import EthDriver.LiveLink
import EthDriver.NetifTask

namespace EthDriver.MacFilter

open Bits MacRegs NetifTask Runs Negotiation NegotiationInvariant LiveLink

/-- Where the netif task is in an iteration of its loop, with the operations of the
`LinkSta` branch still to be made. -/
inductive Pc
  | handle
  | observe
  | branch (ops : List Op)
  | ended
  deriving DecidableEq

/-- The 10M driver and the netif task. `observed` is the `LinkSta` the iteration has
seen, `irqSince` whether a `PHYLINK` interrupt has come since. -/
structure Sys where
  drv : State
  task : Task
  pc : Pc
  observed : Bool
  irqSince : Bool

inductive Act
  | tick (timperiod : BitVec 16)
  | mdix (v : BitVec 16)
  | phyLink (r : LinkRegs)
  | task (r : Regs) (bound : Bool)

def init (drv : State) : Sys := ⟨drv, Task.init, .handle, false, false⟩

def taskStep (useDhcp : Bool) (s : Sys) (r : Regs) (bound : Bool) : Sys :=
  match s.pc with
  | .handle => { s with drv := wchnetHandlePhyNegotiation s.drv r, pc := .observe }
  | .observe =>
    { s with
      pc := .branch (linkBranch useDhcp bound s.drv.linkSta s.task)
      observed := s.drv.linkSta
      irqSince := false }
  | .branch (o :: ops) =>
    { s with
      drv := { s.drv with mac := execMac s.drv.mac o }
      task := s.task.exec o
      pc := .branch ops }
  | .branch [] => { s with pc := .ended }
  | .ended => { s with pc := .handle }

def step (useDhcp : Bool) (s : Sys) : Act → Sys
  | .tick timperiod => { s with drv := Negotiation.step s.drv (.tick timperiod) }
  | .mdix v => { s with drv := Negotiation.step s.drv (.mdix v) }
  | .phyLink r => { s with drv := ethPhyLink s.drv r, irqSince := true }
  | .task r bound => taskStep useDhcp s r bound

def filterOpen (m : Mac) : Bool := test m.macffr (ethReceiveAllEnable ||| ethPromiscuousModeEnable)

/-- An iteration that has seen the link up, with no interrupt since, ends with the
filter restored. -/
def FilterRestored (s : Sys) : Prop :=
  s.pc = .ended → s.observed = true → s.irqSince = false → filterOpen s.drv.mac = false

instance (s : Sys) : Decidable (FilterRestored s) := inferInstanceAs (Decidable (_ → _ → _ → _))

def rest : Pc → List Op
  | .branch ops => ops
  | _ => []

/-- These operations include `ETH_EnableMacFilter`, or the task comes out of them with
`link_was_up` clear and will call it when it next sees the link up. -/
def ahead (ops : List Op) (t : Task) : Bool :=
  ops.contains .ethEnableMacFilter || !(ops.foldl Task.exec t).linkWasUp

def edgeAhead (s : Sys) : Bool := ahead (rest s.pc) s.task

/-- An interrupt opens the filter only when the task is going to restore it. -/
def OpensBeforeEdge (s : Sys) : Act → Prop
  | .phyLink r => linksUp r = true → edgeAhead s = true
  | _ => True

instance (s : Sys) : ∀ a, Decidable (OpensBeforeEdge s a)
  | .phyLink _ => inferInstanceAs (Decidable (_ → _))
  | .tick _ | .mdix _ | .task _ _ => inferInstanceAs (Decidable True)

theorem ahead_linkBranch (useDhcp bound linkSta : Bool) (t : Task) :
    ahead (linkBranch useDhcp bound linkSta t) t = (!linkSta || !t.linkWasUp) := by
  obtain ⟨w, d, i, n⟩ := t
  revert useDhcp bound linkSta w d i n
  decide

theorem ethEnableMacFilter_closed (m : Mac) : filterOpen m.ethEnableMacFilter = false :=
  test_clear_of_le m.macffr (by decide)

/-- The filter is open only with an edge ahead, and the task comes out of the branch
with the link it has seen. -/
structure Inv (s : Sys) : Prop where
  edge : filterOpen s.drv.mac = true → edgeAhead s = true
  seen : s.pc ≠ .handle → s.pc ≠ .observe →
    ((rest s.pc).foldl Task.exec s.task).linkWasUp = s.observed

variable {useDhcp : Bool} {s : Sys}

theorem Inv.phyLink (h : Inv s) {r : LinkRegs} (hc : OpensBeforeEdge s (.phyLink r)) :
    Inv (step useDhcp s (.phyLink r)) := by
  refine ⟨fun ho => ?_, h.seen⟩
  change filterOpen (ethPhyLink s.drv r).mac = true at ho
  change edgeAhead s = true
  cases phyLink_outcome s.drv r with
  | up hr hn full mdix stat time eq => exact hc hr
  | reset hr hn eq | down hr hn stat time eq =>
    rw [eq] at ho
    exact h.edge ho

theorem exec_frame {o : Op} (ho : o ≠ .ethEnableMacFilter) (ops : List Op) (m : Mac) (t : Task) :
    execMac m o = m ∧ ahead (o :: ops) t = ahead ops (t.exec o) := by
  cases o with
  | ethEnableMacFilter => exact absurd rfl ho
  | linkWasUp | netifSetLinkUp | netifSetLinkDown | dhcpStarted | dhcpStart | ipPrinted | printf =>
    exact ⟨rfl, rfl⟩

theorem edgeAhead_of_pc {s : Sys} {pc : Pc} (hpc : s.pc = pc) :
    edgeAhead s = ahead (rest pc) s.task := by
  rw [edgeAhead, hpc]

theorem Inv.taskStep (h : Inv s) (r : Regs) (bound : Bool) : Inv (taskStep useDhcp s r bound) := by
  have hedge := h.edge
  cases hpc : s.pc with
  | handle =>
    rw [edgeAhead_of_pc hpc] at hedge
    simp only [MacFilter.taskStep, hpc]
    refine ⟨fun ho => ?_, fun _ hne => absurd rfl hne⟩
    obtain hm | ⟨-, hm⟩ := (handle_frame s.drv r).mac
    · rw [hm] at ho
      exact hedge ho
    · rw [hm, ethEnableMacFilter_closed] at ho
      cases ho
  | observe =>
    rw [edgeAhead_of_pc hpc] at hedge
    simp only [MacFilter.taskStep, hpc]
    refine ⟨fun ho => ?_, fun _ _ => linkBranch_linkWasUp _ _ _ _⟩
    have he : (!s.task.linkWasUp) = true := hedge ho
    change ahead (linkBranch useDhcp bound s.drv.linkSta s.task) s.task = true
    rw [ahead_linkBranch, he, Bool.or_true]
  | branch ops =>
    rw [edgeAhead_of_pc hpc] at hedge
    have hs := h.seen (by simp [hpc]) (by simp [hpc])
    simp only [rest, hpc] at hs
    cases ops with
    | nil =>
      simp only [MacFilter.taskStep, hpc]
      exact ⟨hedge, fun _ _ => hs⟩
    | cons o ops =>
      simp only [MacFilter.taskStep, hpc]
      refine ⟨fun ho => ?_, fun _ _ => hs⟩
      by_cases hf : o = .ethEnableMacFilter
      · subst hf
        change filterOpen s.drv.mac.ethEnableMacFilter = true at ho
        rw [ethEnableMacFilter_closed] at ho
        cases ho
      · obtain ⟨hm, ha⟩ := exec_frame hf ops s.drv.mac s.task
        change filterOpen (execMac s.drv.mac o) = true at ho
        rw [hm] at ho
        exact ha.symm.trans (hedge ho)
  | ended =>
    rw [edgeAhead_of_pc hpc] at hedge
    simp only [MacFilter.taskStep, hpc]
    exact ⟨hedge, fun hne => absurd rfl hne⟩

theorem Inv.step (h : Inv s) (a : Act) (hc : OpensBeforeEdge s a) : Inv (step useDhcp s a) := by
  cases a with
  | tick | mdix => exact ⟨h.edge, h.seen⟩
  | phyLink r => exact h.phyLink hc
  | task r bound => exact h.taskStep r bound

theorem Inv.restored (h : Inv s) : FilterRestored s := by
  intro hpc hobs _
  have hedge := h.edge
  have hs := h.seen (by simp [hpc]) (by simp [hpc])
  rw [edgeAhead_of_pc hpc] at hedge
  simp only [rest, hpc, List.foldl_nil, hobs] at hs
  by_contra hopen
  have he : (!s.task.linkWasUp) = true := hedge (by rwa [Bool.not_eq_false] at hopen)
  rw [hs] at he
  cases he

def quiet : Regs := ⟨0, 0, 0, 0, 0, 0, 0, 0⟩

/-- The filter is open under a reported link, and no edge is ahead. -/
structure Exposed (s : Sys) : Prop where
  filter : filterOpen s.drv.mac = true
  link : s.drv.linkSta = true
  edge : edgeAhead s = false

theorem Exposed.task (h : Exposed s) : Exposed (step useDhcp s (.task quiet false)) := by
  have hedge := h.edge
  change Exposed (MacFilter.taskStep useDhcp s quiet false)
  cases hpc : s.pc with
  | handle =>
    rw [edgeAhead_of_pc hpc] at hedge
    simp only [MacFilter.taskStep, hpc]
    refine ⟨?_, (handle_frame s.drv quiet).link.trans h.link, hedge⟩
    obtain hm | ⟨hne, -⟩ := (handle_frame s.drv quiet).mac
    · rw [hm]
      exact h.filter
    · exact absurd rfl hne
  | observe =>
    rw [edgeAhead_of_pc hpc] at hedge
    have hw : (!s.task.linkWasUp) = false := hedge
    simp only [MacFilter.taskStep, hpc]
    refine ⟨h.filter, h.link, ?_⟩
    change ahead (linkBranch useDhcp false s.drv.linkSta s.task) s.task = false
    rw [ahead_linkBranch, h.link, hw]
    rfl
  | branch ops =>
    rw [edgeAhead_of_pc hpc] at hedge
    cases ops with
    | nil =>
      simp only [MacFilter.taskStep, hpc]
      exact ⟨h.filter, h.link, hedge⟩
    | cons o ops =>
      have hf : o ≠ .ethEnableMacFilter := fun he => by
        rw [he] at hedge
        cases hedge
      obtain ⟨hm, ha⟩ := exec_frame hf ops s.drv.mac s.task
      simp only [MacFilter.taskStep, hpc]
      refine ⟨?_, h.link, ha.symm.trans hedge⟩
      change filterOpen (execMac s.drv.mac o) = true
      rw [hm]
      exact h.filter
  | ended =>
    rw [edgeAhead_of_pc hpc] at hedge
    simp only [MacFilter.taskStep, hpc]
    exact ⟨h.filter, h.link, hedge⟩

section Reach

theorem Exposed.reach_branch (ops : List Op) (h : Exposed s) (hpc : s.pc = .branch ops)
    (ho : s.observed = true) (hi : s.irqSince = false) :
    CanFail (step useDhcp) FilterRestored s := by
  induction ops generalizing s with
  | nil =>
    refine ⟨[.task quiet false], fun hr => ?_⟩
    have hs : step useDhcp s (.task quiet false) = { s with pc := .ended } := by
      simp only [step, MacFilter.taskStep, hpc]
    rw [run_cons, run_nil, hs] at hr
    exact Bool.false_ne_true ((hr rfl ho hi).symm.trans h.filter)
  | cons o ops ih =>
    apply CanFail.of_step (Act.task quiet false)
    refine ih h.task ?_ ?_ ?_ <;> simp only [step, MacFilter.taskStep, hpc]
    · exact ho
    · exact hi

theorem Exposed.reach_observe (h : Exposed s) (hpc : s.pc = .observe) :
    CanFail (step useDhcp) FilterRestored s := by
  apply CanFail.of_step (Act.task quiet false)
  refine h.task.reach_branch (linkBranch useDhcp false s.drv.linkSta s.task) ?_ ?_ ?_ <;>
    simp only [step, MacFilter.taskStep, hpc]
  exact h.link

theorem Exposed.reach_handle (h : Exposed s) (hpc : s.pc = .handle) :
    CanFail (step useDhcp) FilterRestored s := by
  apply CanFail.of_step (Act.task quiet false)
  apply h.task.reach_observe
  simp only [step, MacFilter.taskStep, hpc]

theorem Exposed.reach_ended (h : Exposed s) (hpc : s.pc = .ended) :
    CanFail (step useDhcp) FilterRestored s := by
  apply CanFail.of_step (Act.task quiet false)
  apply h.task.reach_handle
  simp only [step, MacFilter.taskStep, hpc]

/-- Whatever the task is at, the iteration after this one ends with the filter open. -/
theorem Exposed.reach (h : Exposed s) : CanFail (step useDhcp) FilterRestored s := by
  cases hpc : s.pc with
  | handle => exact h.reach_handle hpc
  | observe => exact h.reach_observe hpc
  | ended => exact h.reach_ended hpc
  | branch ops =>
    induction ops generalizing s with
    | nil =>
      apply CanFail.of_step (Act.task quiet false)
      apply h.task.reach_ended
      simp only [step, MacFilter.taskStep, hpc]
    | cons o ops ih =>
      apply CanFail.of_step (Act.task quiet false)
      apply ih h.task
      simp only [step, MacFilter.taskStep, hpc]

end Reach

theorem opened_stays_open {a : Act} (ha : ¬ OpensBeforeEdge s a) :
    CanFail (step useDhcp) FilterRestored (step useDhcp s a) := by
  cases a with
  | tick | mdix | task => exact absurd trivial ha
  | phyLink r =>
    simp only [OpensBeforeEdge, Classical.not_imp, Bool.not_eq_true] at ha
    obtain ⟨hr, hedge⟩ := ha
    cases phyLink_outcome s.drv r with
    | up hr' hn full mdix stat time eq =>
      have hexp : Exposed (step useDhcp s (.phyLink r)) := by
        have hself : test (ethReceiveAllEnable ||| ethPromiscuousModeEnable)
          (ethReceiveAllEnable ||| ethPromiscuousModeEnable) = true := by decide
        simp only [step, eq]
        refine ⟨?_, rfl, hedge⟩
        change test (s.drv.mac.macffr ||| _) _ = true
        rw [test_or, hself, Bool.or_true]
      exact hexp.reach
    | reset hr' hn eq => exact absurd (hn.symm.trans hr) Bool.false_ne_true
    | down hr' hn stat time eq => exact absurd (hr'.symm.trans hr) Bool.false_ne_true

/-- In every run in which each link-up interrupt comes with an edge ahead of the task,
each iteration that has seen the link up, with no interrupt since, ends with the
filter restored. After any run, a link-up interrupt with no edge ahead has a
continuation in which an iteration does not. -/
theorem filter_restored_after_link_up (useDhcp : Bool) (localTime chipId extenCtr : BitVec 32)
    (mac3 mac4 mac5 : BitVec 8) (acts : List Act) :
    let s := init (Negotiation.init localTime chipId extenCtr mac3 mac4 mac5)
    (Meets (step useDhcp) OpensBeforeEdge s acts →
      Throughout (step useDhcp) FilterRestored s acts) ∧
    ∀ a, ¬ OpensBeforeEdge (run (step useDhcp) s acts) a →
      ∃ more, ¬ Throughout (step useDhcp) FilterRestored s (acts ++ a :: more) := by
  intro s
  have h0 : Inv s := by
    refine ⟨fun ho => ?_, fun hne => absurd rfl hne⟩
    change test ethPassControlFramesBlockAll _ = true at ho
    exact absurd ho (by decide)
  refine ⟨fun hm => ?_, fun a ha => ?_⟩
  · have hall : Throughout (step useDhcp) Inv s acts :=
      throughout_of_meets (fun _ a h hc => h.step a hc) h0 hm
    exact hall.mono fun _ h => h.restored
  · exact (opened_stays_open ha).not_throughout

def upIrq : Act := .phyLink ⟨0x0024, 0x1000, 0x0021, 0⟩

def downIrq : Act := .phyLink ⟨0, 0x1000, 0, 0⟩

def tasks (n : ℕ) : List Act := List.replicate n (.task quiet false)

/-- The link comes up and an iteration sees the edge. It goes down and comes up again
before the next iteration looks. -/
def missedEdge : List Act := upIrq :: tasks 8 ++ [downIrq, upIrq] ++ tasks 3

theorem filter_left_open :
    ¬ Throughout (step false) FilterRestored (init (Negotiation.init 0 0 0 0 0 0)) missedEdge :=
  fun h => absurd h.last (by decide +kernel)

def seenEdge : List Act := upIrq :: tasks 8 ++ downIrq :: tasks 7 ++ upIrq :: tasks 7

theorem filter_restored_twice :
    (run (step false) (init (Negotiation.init 0 0 0 0 0 0)) seenEdge).pc = .ended ∧
      Throughout (step false) FilterRestored (init (Negotiation.init 0 0 0 0 0 0)) seenEdge := by
  have hm : Meets (step false) OpensBeforeEdge (init (Negotiation.init 0 0 0 0 0 0)) seenEdge := by
    decide +kernel
  exact ⟨by decide +kernel, (filter_restored_after_link_up false 0 0 0 0 0 0 seenEdge).1 hm⟩

end EthDriver.MacFilter

import EthDriver.NetifInput
import Mathlib.Data.Finset.Card
import Mathlib.Data.Fintype.Card

namespace EthDriver.RxLoops

open Bits Descriptors Pbufs Runs RxRing NetifInput

variable {n : ℕ}

/-- How many descriptors of a table belong to the processor. -/
def owned (desc : Table (n + 1)) : ℕ :=
  (Finset.univ.filter fun i => test (desc i).status ethDmaRxDescOwn = false).card

theorem owned_le (desc : Table (n + 1)) : owned desc ≤ n + 1 := by
  have h := Finset.card_filter_le Finset.univ
    fun i : Fin (n + 1) => test (desc i).status ethDmaRxDescOwn = false
  rwa [Finset.card_univ, Fintype.card_fin] at h

theorem owned_give {desc : Table (n + 1)} {i : Fin (n + 1)} {d : Desc (n + 1)}
    (h : test (desc i).status ethDmaRxDescOwn = false)
    (hd : test d.status ethDmaRxDescOwn = true) :
    owned (Function.update desc i d) + 1 = owned desc := by
  have hset : (Finset.univ.filter fun j =>
      test (Function.update desc i d j).status ethDmaRxDescOwn = false) =
      (Finset.univ.filter fun j => test (desc j).status ethDmaRxDescOwn = false).erase i := by
    ext j
    rw [Finset.mem_erase, Finset.mem_filter, Finset.mem_filter]
    by_cases hj : j = i
    · subst j
      rw [Function.update_self, hd]
      simp
    · rw [Function.update_of_ne hj]
      simp [hj]
  rw [owned, hset]
  exact Finset.card_erase_add_one (Finset.mem_filter.mpr ⟨Finset.mem_univ i, h⟩)

theorem owned_take {desc : Table (n + 1)} {i : Fin (n + 1)} {d : Desc (n + 1)}
    (h : test (desc i).status ethDmaRxDescOwn = true)
    (hd : test d.status ethDmaRxDescOwn = false) :
    owned (Function.update desc i d) = owned desc + 1 := by
  have hback : owned (Function.update (Function.update desc i d) i (desc i)) + 1 =
      owned (Function.update desc i d) :=
    owned_give (by rw [Function.update_self]; exact hd) h
  rw [Function.update_idem, Function.update_eq_self] at hback
  exact hback.symm

/-- The task has found the descriptor at `pDMARxSet` its own and has not handed it back. -/
def examining : RxRing.Pc → Bool
  | .es | .fs | .ls | .len | .addr _ | .discard | .alloc _ _ | .take _ _ _ | .free _ _ => true
  | _ => false

def Looked (s : RxRing.State n) : Prop := examining s.pc = true → CpuOwned s s.pDmaRxSet

def handing : RxRing.Pc → Bool
  | .discard | .free _ _ => true
  | _ => false

/-- The DMA writes a descriptor back. -/
def writesBack (s : RxRing.State n) : DmaAct → Bool
  | .close _ _ => ready s
  | _ => false

theorem handBack_owned {s : RxRing.State n} (h : CpuOwned s s.pDmaRxSet) :
    owned s.handBack.desc + 1 = owned s.desc :=
  owned_give h (by decide : test ethDmaRxDescOwn ethDmaRxDescOwn = true)

theorem pollDemand_eq (s : RxRing.State n) :
    ∃ suspended, s.pollDemand = { s with suspended := suspended } := by
  simp only [RxRing.State.pollDemand]
  split
  · exact ⟨false, rfl⟩
  · exact ⟨s.suspended, rfl⟩

/-- An access of `low_level_input` takes one descriptor from the processor's or none. -/
theorem cpuStep_owned {s : RxRing.State n} (h : Looked s) (q : Option Pbuf) :
    owned (cpuStep s q).desc + (handing s.pc).toNat = owned s.desc := by
  cases hpc : s.pc with
  | discard | free =>
    simp only [cpuStep, hpc]
    exact handBack_owned (h (by rw [hpc]; rfl))
  | alloc src len => cases q <;> simp [cpuStep, hpc, handing, RxRing.State.goto]
  | resume p =>
    obtain ⟨suspended, he⟩ := pollDemand_eq s
    simp only [cpuStep, hpc, he]
    rfl
  | idle | retNull | ret | own | es | fs | ls | len | addr | discardNext | take | freeNext =>
    simp only [cpuStep, hpc]
    rfl

theorem Looked.goto {s : RxRing.State n} {pc : RxRing.Pc}
    (h : examining pc = true → CpuOwned s s.pDmaRxSet) : Looked (s.goto pc) := h

theorem Looked.cpuStep {s : RxRing.State n} (h : Looked s) (q : Option Pbuf) :
    Looked (cpuStep s q) := by
  cases hpc : s.pc with
  | own =>
    simp only [RxRing.cpuStep, hpc]
    apply Looked.goto
    split
    · exact fun he => absurd he (by decide)
    · rename_i ho
      exact fun _ => Bool.eq_false_of_not_eq_true ho
  | es | fs | ls | len | addr | take =>
    simp only [RxRing.cpuStep, hpc]
    exact fun _ => h (by rw [hpc]; rfl)
  | alloc src len =>
    cases q with
    | none | some =>
      simp only [RxRing.cpuStep, hpc]
      exact fun _ => h (by rw [hpc]; rfl)
  | idle | retNull | ret =>
    simp only [RxRing.cpuStep, hpc]
    exact h
  | discard | free | discardNext | freeNext | resume =>
    simp only [RxRing.cpuStep, hpc]
    apply Looked.goto
    exact fun he => absurd he Bool.false_ne_true

theorem dmaStep_owned (s : RxRing.State n) (a : DmaAct) :
    owned (dmaStep s a).desc = owned s.desc + (writesBack s a).toNat := by
  cases a with
  | fill off data =>
    simp only [dmaStep]
    split <;> rfl
  | suspend =>
    simp only [dmaStep]
    split <;> rfl
  | close status last =>
    simp only [dmaStep, writesBack]
    split
    · rename_i hr
      have hown : test (s.desc s.cur).status ethDmaRxDescOwn = true := by
        simp only [ready, Bool.and_eq_true] at hr
        exact hr.2
      rw [hr, Bool.toNat_true]
      exact owned_take hown (RxInvariant.closeStatus_own status s.openFrame.isEmpty last)
    · rename_i hr
      rw [Bool.eq_false_of_not_eq_true hr]
      rfl

theorem dmaStep_task (s : RxRing.State n) (a : DmaAct) :
    (dmaStep s a).pDmaRxSet = s.pDmaRxSet ∧ (dmaStep s a).pc = s.pc := by
  cases a with
  | fill | suspend | close =>
    simp only [dmaStep]
    split <;> exact ⟨rfl, rfl⟩

/-- The DMA leaves the processor's descriptors alone. -/
theorem dmaStep_desc {s : RxRing.State n} {i : Fin (n + 1)} (h : CpuOwned s i) (a : DmaAct) :
    (dmaStep s a).desc i = s.desc i := by
  cases a with
  | fill | suspend =>
    simp only [dmaStep]
    split <;> rfl
  | close status last =>
    simp only [dmaStep]
    split
    · rename_i hr
      exact Function.update_of_ne (RxInvariant.cur_ne hr h) _ _
    · rfl

theorem Looked.dmaStep {s : RxRing.State n} (h : Looked s) (a : DmaAct) : Looked (dmaStep s a) := by
  obtain ⟨hset, hpc⟩ := dmaStep_task s a
  intro he
  rw [hpc] at he
  rw [hset, CpuOwned, dmaStep_desc (h he) a]
  exact h he

theorem Looked.pollDemand {s : RxRing.State n} (h : Looked s) : Looked s.pollDemand := by
  obtain ⟨suspended, he⟩ := pollDemand_eq s
  rw [he]
  exact h

theorem Looked.call {s : RxRing.State n} (h : Looked s) : Looked (call s) := by
  cases hpc : s.pc with
  | idle | retNull | ret =>
    simp only [RxRing.call, hpc]
    apply Looked.goto
    exact fun he => absurd he Bool.false_ne_true
  | own | es | fs | ls | len | addr | discard | discardNext | alloc | take | free | freeNext
  | resume =>
    simp only [RxRing.call, hpc]
    exact h

theorem Looked.step {s : RxRing.State n} (h : Looked s) (a : RxRing.Act) :
    Looked (RxRing.step s a) := by
  cases a with
  | call => exact h.call
  | cpu q => exact h.cpuStep q
  | dma a => exact h.dmaStep a
  | poll => exact h.pollDemand

/-- `ETH_RecPeek` is running. -/
def peeking : RxRing.Pc → Bool
  | .own | .es | .fs | .ls | .len | .addr _ | .discard | .discardNext => true
  | _ => false

/-- A run of `ETH_RecPeek` beside the DMA stops when it returns. -/
def recPeekStep (s : RxRing.State n) (a : RxRing.Act) : RxRing.State n :=
  if peeking s.pc then RxRing.step s a else s

def isCpu : RxRing.Act → Bool
  | .cpu _ => true
  | _ => false

def discards (s : RxRing.State n) (a : RxRing.Act) : Bool := decide (s.pc = .discard) && isCpu a

def peekWrites (s : RxRing.State n) : RxRing.Act → Bool
  | .dma a => peeking s.pc && writesBack s a
  | _ => false

/-- The accesses `ETH_RecPeek` can still make before it returns or discards. -/
def peekRank : RxRing.Pc → ℕ
  | .discardNext => 7
  | .own => 6
  | .es => 5
  | .fs => 4
  | .ls => 3
  | .len | .discard => 2
  | .addr _ => 1
  | _ => 0

theorem cpuStep_peekRank {s : RxRing.State n} (h : peeking s.pc = true) (q : Option Pbuf) :
    peekRank (cpuStep s q).pc + 1 ≤ peekRank s.pc + 6 * (handing s.pc).toNat := by
  cases hpc : s.pc with
  | own | es | fs | ls =>
    simp only [cpuStep, hpc, RxRing.State.goto]
    split <;> decide
  | len | addr | discard | discardNext =>
    simp [cpuStep, hpc, RxRing.State.goto, peekRank, handing]
  | idle | retNull | ret | alloc | take | free | freeNext | resume =>
    rw [hpc] at h
    cases h

theorem recPeekStep_looked (s : RxRing.State n) (a : RxRing.Act) (h : Looked s) :
    Looked (recPeekStep s a) := by
  simp only [recPeekStep]
  split
  · exact h.step a
  · exact h

/-- While `ETH_RecPeek` runs, the others only write descriptors back. -/
theorem step_other {s : RxRing.State n} (hp : peeking s.pc = true) {a : RxRing.Act}
    (ha : isCpu a = false) :
    owned (RxRing.step s a).desc = owned s.desc + (peekWrites s a).toNat ∧
      (RxRing.step s a).pc = s.pc := by
  cases a with
  | cpu q => cases ha
  | dma a =>
    rw [RxRing.step, dmaStep_owned, peekWrites, hp, Bool.true_and]
    exact ⟨rfl, (dmaStep_task s a).2⟩
  | call =>
    have hcall : call s = s := by
      cases hpc : s.pc with
      | idle | retNull | ret =>
        rw [hpc] at hp
        cases hp
      | own | es | fs | ls | len | addr | discard | discardNext | alloc | take | free | freeNext
      | resume => simp only [call, hpc]
    rw [RxRing.step, hcall]
    exact ⟨rfl, rfl⟩
  | poll =>
    obtain ⟨suspended, he⟩ := pollDemand_eq s
    rw [RxRing.step, he]
    exact ⟨rfl, rfl⟩

theorem recPeekStep_owned (s : RxRing.State n) (a : RxRing.Act) (h : Looked s) :
    owned (recPeekStep s a).desc + (discards s a).toNat ≤
      owned s.desc + 1 * (peekWrites s a).toNat := by
  have hle : (decide (s.pc = .discard)).toNat ≤ (handing s.pc).toNat := by
    cases hpc : s.pc <;> simp [handing]
  cases hp : peeking s.pc with
  | false =>
    have hne : s.pc ≠ .discard := fun hpc => by
      rw [hpc] at hp
      cases hp
    simp [recPeekStep, hp, discards, hne]
  | true =>
    simp only [recPeekStep, hp, if_true, discards]
    cases ha : isCpu a with
    | true =>
      cases a with
      | cpu q =>
        have hc := cpuStep_owned h q
        simp only [RxRing.step, Bool.and_true]
        omega
      | call | dma | poll => cases ha
    | false =>
      rw [(step_other hp ha).1]
      simp

theorem recPeekStep_rank (s : RxRing.State n) (a : RxRing.Act) (h : Looked s) :
    6 * owned (recPeekStep s a).desc + peekRank (recPeekStep s a).pc +
        (peeking s.pc && isCpu a).toNat ≤
      6 * owned s.desc + peekRank s.pc + 6 * (peekWrites s a).toNat := by
  cases hp : peeking s.pc with
  | false => simp [recPeekStep, hp]
  | true =>
    simp only [recPeekStep, hp, if_true, Bool.true_and]
    cases ha : isCpu a with
    | true =>
      cases a with
      | cpu q =>
        have hc := cpuStep_owned h q
        have hr := cpuStep_peekRank hp q
        simp only [RxRing.step, Bool.toNat_true]
        omega
      | call | dma | poll => cases ha
    | false =>
      obtain ⟨ho, hpc⟩ := step_other hp ha
      rw [ho, hpc, Bool.toNat_false]
      omega

/-- While the DMA writes back `m` descriptors, `ETH_RecPeek` discards at most `m` more than
the ring has, and returns. -/
theorem recPeek_bounded (s : RxRing.State n) (acts : List RxRing.Act) :
    let m := stepCount recPeekStep peekWrites (s.goto .own) acts
    stepCount recPeekStep discards (s.goto .own) acts ≤ n + 1 + m ∧
      (peeking (run recPeekStep (s.goto .own) acts).pc = true →
        acts.countP isCpu ≤ 6 * (n + 1 + m) + 6) := by
  intro m
  have hl : Looked (s.goto .own) := Looked.goto fun he => absurd he Bool.false_ne_true
  have hn := owned_le (s.goto .own).desc
  constructor
  · have hb := stepCount_le_of_potential recPeekStep (fun t => owned t.desc) 1 discards peekWrites
      recPeekStep_looked recPeekStep_owned hl acts
    omega
  · intro hr
    have hstop : ∀ (t : RxRing.State n) a, peeking t.pc = false →
        peeking (recPeekStep t a).pc = false := fun t a ht => by
      rw [recPeekStep, ht, if_neg Bool.false_ne_true]
      exact ht
    have hb := stepCount_le_of_potential recPeekStep (fun t => 6 * owned t.desc + peekRank t.pc) 6
      (fun t a => peeking t.pc && isCpu a) peekWrites recPeekStep_looked recPeekStep_rank hl acts
    rw [countP_eq_stepCount (fun t : RxRing.State n => peeking t.pc) isCpu hstop hr]
    change _ ≤ 6 * owned (s.goto .own).desc + 6 + _ at hb
    omega

/-- `ethernetif_input` has not returned. -/
def running (s : NetifInput.State n) : Bool := decide (s.pc ≠ .done)

def isTask : NetifInput.Act → Bool
  | .task => true
  | _ => false

/-- The task hands a descriptor back, in a discard or in `ETH_RecFree`. -/
def handsBack (s : NetifInput.State n) (a : NetifInput.Act) : Bool :=
  isTask a && decide (s.pc = .receive) && handing s.ring.pc

def inputWrites (s : NetifInput.State n) : NetifInput.Act → Bool
  | .dma a => running s && writesBack s.ring a
  | _ => false

/-- `low_level_input` has returned. -/
def settled : RxRing.Pc → Bool
  | .retNull | .ret _ => true
  | _ => false

theorem receive_cases (lwip : Lwip) (s : NetifInput.State n) :
    (settled s.ring.pc = false ∧ ∃ q allocs log, receive lwip s =
        { s with ring := cpuStep s.ring q, allocs := allocs, log := log }) ∨
      settled s.ring.pc = true ∧ receive lwip s = { s with pc := .done } ∨
      ∃ p, s.ring.pc = .ret (some p) ∧ receive lwip s = { s with pc := .input s.allocs p } := by
  cases hpc : s.ring.pc with
  | retNull => exact .inr (.inl ⟨rfl, by simp only [receive, hpc]⟩)
  | ret p =>
    cases p with
    | none => exact .inr (.inl ⟨rfl, by simp only [receive, hpc]⟩)
    | some p => exact .inr (.inr ⟨p, rfl, by simp only [receive, hpc]⟩)
  | idle | own | es | fs | ls | len | addr | discard | discardNext | alloc | take | free | freeNext
  | resume =>
    simp only [receive, hpc]
    exact .inl ⟨rfl, _, _, _, rfl⟩

/-- The accesses the task can still make before it returns or hands a descriptor back. -/
def inputRank : RxRing.Pc → ℕ
  | .freeNext _ => 14
  | .resume _ => 13
  | .ret _ => 12
  | .discardNext => 10
  | .own => 9
  | .es => 8
  | .fs => 7
  | .ls => 6
  | .len => 5
  | .addr _ => 4
  | .alloc _ _ => 3
  | .take _ _ _ => 2
  | .free _ _ | .discard | .retNull => 1
  | .idle => 0

def rank (s : NetifInput.State n) : ℕ :=
  match s.pc with
  | .done => 0
  | .take | .free _ _ => 10
  | .input _ _ => 11
  | .receive => inputRank s.ring.pc

theorem cpuStep_inputRank {s : RxRing.State n} (hs : settled s.pc = false) (hi : s.pc ≠ .idle)
    (q : Option Pbuf) :
    inputRank (cpuStep s q).pc + 1 ≤ inputRank s.pc + 14 * (handing s.pc).toNat := by
  cases hpc : s.pc with
  | own | es | fs | ls =>
    simp only [cpuStep, hpc, RxRing.State.goto]
    split <;> decide
  | alloc src len => cases q <;> simp [cpuStep, hpc, RxRing.State.goto, inputRank, handing]
  | len | addr | discard | discardNext | take | free | freeNext | resume =>
    simp [cpuStep, hpc, RxRing.State.goto, inputRank, handing]
  | idle => exact absurd hpc hi
  | retNull | ret =>
    rw [hpc] at hs
    cases hs

theorem cpuStep_ne_idle {s : RxRing.State n} (h : s.pc ≠ .idle) (q : Option Pbuf) :
    (cpuStep s q).pc ≠ .idle := by
  cases hpc : s.pc with
  | idle => exact absurd hpc h
  | own | es | fs | ls =>
    simp only [cpuStep, hpc, RxRing.State.goto]
    split <;> decide
  | alloc src len => cases q <;> simp [cpuStep, hpc, RxRing.State.goto]
  | retNull | ret | len | addr | discard | discardNext | take | free | freeNext | resume =>
    simp [cpuStep, hpc, RxRing.State.goto]

/-- Outside `low_level_input` the next call starts it afresh. -/
structure Serving (s : NetifInput.State n) : Prop where
  looked : Looked s.ring
  rest : s.pc ≠ .receive → (call s.ring).pc = .own
  awake : s.pc = .receive → s.ring.pc ≠ .idle

theorem start_serving (ring : RxRing.State n) : Serving (start ring) where
  looked := Looked.goto fun he => absurd he Bool.false_ne_true
  rest _ := rfl
  awake he := absurd he (by simp [start])

theorem call_of_settled {s : RxRing.State n} (h : settled s.pc = true) : (call s).pc = .own := by
  cases hpc : s.pc with
  | retNull | ret =>
    simp only [call, hpc]
    rfl
  | idle | own | es | fs | ls | len | addr | discard | discardNext | alloc | take | free | freeNext
  | resume =>
    rw [hpc] at h
    cases h

theorem Serving.called {s : NetifInput.State n} (h : Serving s) (hpc : s.pc ≠ .receive)
    (log : List (Event n)) :
    Serving { s with ring := call s.ring, pc := .receive, log := log } := by
  refine ⟨h.looked.call, fun hne => absurd rfl hne, fun _ => ?_⟩
  rw [h.rest hpc]
  exact fun he => by cases he

theorem Serving.task {s : NetifInput.State n} (h : Serving s) (lwip : Lwip) :
    Serving (taskStep lwip s) := by
  cases hpc : s.pc with
  | take =>
    simp only [taskStep, hpc]
    exact h.called (by rw [hpc]; simp) s.log
  | receive =>
    simp only [taskStep, hpc]
    obtain ⟨-, q, allocs, log, he⟩ | ⟨hset, he⟩ | ⟨p, hret, he⟩ := receive_cases lwip s
    · rw [he]
      exact ⟨h.looked.cpuStep q, fun hne => absurd hpc hne,
        fun _ => cpuStep_ne_idle (h.awake hpc) q⟩
    · rw [he]
      exact ⟨h.looked, fun _ => call_of_settled hset, fun hr => by cases hr⟩
    · rw [he]
      exact ⟨h.looked, fun _ => call_of_settled (by rw [hret]; rfl), fun hr => by cases hr⟩
  | input k p =>
    have hne : s.pc ≠ .receive := by rw [hpc]; simp
    simp only [taskStep, hpc]
    split
    · exact h.called hne _
    · exact ⟨h.looked, fun _ => h.rest hne, fun hr => by cases hr⟩
  | free k p =>
    simp only [taskStep, hpc]
    exact h.called (by rw [hpc]; simp) _
  | done =>
    simp only [taskStep, hpc]
    exact h

theorem dmaStep_call (s : RxRing.State n) (a : DmaAct) :
    (call (dmaStep s a)).pc = (call s).pc := by
  have hpc := (dmaStep_task s a).2
  cases hs : s.pc <;> simp only [call, hpc, hs] <;> rfl

theorem Serving.step (lwip : Lwip) (s : NetifInput.State n) (a : NetifInput.Act) (h : Serving s) :
    Serving (NetifInput.step lwip s a) := by
  cases a with
  | task => exact h.task lwip
  | dma a =>
    refine ⟨h.looked.dmaStep a, fun hne => (dmaStep_call s.ring a).trans (h.rest hne), fun hr => ?_⟩
    change (dmaStep s.ring a).pc ≠ .idle
    rw [(dmaStep_task s.ring a).2]
    exact h.awake hr
  | poll =>
    obtain ⟨suspended, he⟩ := pollDemand_eq s.ring
    rw [NetifInput.step, he]
    refine ⟨h.looked, fun hne => ?_, h.awake⟩
    have hrest := h.rest hne
    cases hs : s.ring.pc <;> simp only [call, hs] at hrest ⊢ <;> exact hrest

theorem receive_measure {s : NetifInput.State n} (h : Serving s) (lwip : Lwip)
    (hpc : s.pc = .receive) :
    owned (receive lwip s).ring.desc + (handing s.ring.pc).toNat = owned s.ring.desc ∧
      rank (receive lwip s) + 1 ≤ inputRank s.ring.pc + 14 * (handing s.ring.pc).toNat := by
  obtain ⟨hset, q, allocs, log, he⟩ | ⟨hset, he⟩ | ⟨p, hret, he⟩ := receive_cases lwip s
  · rw [he]
    simp only [rank, hpc]
    exact ⟨cpuStep_owned h.looked q, cpuStep_inputRank hset (h.awake hpc) q⟩
  · rw [he]
    cases hring : s.ring.pc with
    | retNull | ret => exact ⟨rfl, by simp [rank, inputRank, handing]⟩
    | idle | own | es | fs | ls | len | addr | discard | discardNext | alloc | take | free
    | freeNext | resume =>
      rw [hring] at hset
      cases hset
  · rw [he, hret]
    exact ⟨rfl, by simp [rank, inputRank]⟩

theorem call_owned (s : RxRing.State n) : owned (call s).desc = owned s.desc := by
  cases hs : s.pc <;> simp only [call, hs] <;> rfl

/-- What a step of the task does to the two measures. -/
theorem taskStep_measure {s : NetifInput.State n} (h : Serving s) (lwip : Lwip) :
    owned (taskStep lwip s).ring.desc + (handsBack s .task).toNat = owned s.ring.desc ∧
      rank (taskStep lwip s) + (running s).toNat ≤
        rank s + 14 * (handsBack s .task).toNat := by
  have hown := call_owned s.ring
  cases hpc : s.pc with
  | receive =>
    simpa [handsBack, isTask, running, taskStep, rank, hpc] using receive_measure h lwip hpc
  | take | free =>
    have hcall := h.rest (by rw [hpc]; simp)
    simp [taskStep, hpc, handsBack, running, rank, hcall, inputRank, hown]
  | input k p =>
    have hcall := h.rest (by rw [hpc]; simp)
    cases hacc : lwip.accepts k with
    | true => simp [taskStep, hpc, hacc, handsBack, running, rank, hcall, inputRank, hown]
    | false => simp [taskStep, hpc, hacc, handsBack, running, rank]
  | done => simp [taskStep, hpc, handsBack, running]

/-- While `ethernetif_input` runs, the others only write descriptors back. -/
theorem step_other_measure (lwip : Lwip) {s : NetifInput.State n} (hr : running s = true)
    {a : NetifInput.Act} (ha : isTask a = false) :
    owned (NetifInput.step lwip s a).ring.desc =
        owned s.ring.desc + (inputWrites s a).toNat ∧
      rank (NetifInput.step lwip s a) = rank s ∧ (NetifInput.step lwip s a).pc = s.pc := by
  cases a with
  | task => cases ha
  | dma a =>
    refine ⟨?_, ?_, rfl⟩
    · rw [inputWrites, hr, Bool.true_and]
      exact dmaStep_owned s.ring a
    · simp only [rank, NetifInput.step, (dmaStep_task s.ring a).2]
  | poll =>
    obtain ⟨suspended, he⟩ := pollDemand_eq s.ring
    rw [NetifInput.step, he]
    exact ⟨rfl, rfl, rfl⟩

theorem step_stopped (lwip : Lwip) (s : NetifInput.State n) (a : NetifInput.Act)
    (h : running s = false) : running (NetifInput.step lwip s a) = false := by
  have hpc : s.pc = .done := by simpa [running] using h
  cases a with
  | task => simp [NetifInput.step, taskStep, hpc, running]
  | dma | poll => exact h

/-- What is left to hand back before `ethernetif_input` returns. -/
def left (s : NetifInput.State n) : ℕ := if running s then owned s.ring.desc else 0

/-- A bound on the accesses left to make. -/
def work (s : NetifInput.State n) : ℕ :=
  if running s then 14 * owned s.ring.desc + rank s else 0

theorem step_left (lwip : Lwip) (s : NetifInput.State n) (a : NetifInput.Act) (h : Serving s) :
    left (NetifInput.step lwip s a) + (handsBack s a).toNat ≤
      left s + 1 * (inputWrites s a).toNat := by
  cases hr : running s with
  | false =>
    have hpc : s.pc = .done := by simpa [running] using hr
    simp [left, step_stopped lwip s a hr, handsBack, hpc]
  | true =>
    have hle : left (NetifInput.step lwip s a) ≤ owned (NetifInput.step lwip s a).ring.desc := by
      rw [left]
      split
      · exact Nat.le_refl _
      · exact Nat.zero_le _
    have hs : left s = owned s.ring.desc := by rw [left, hr, if_pos rfl]
    cases ha : isTask a with
    | true =>
      cases a with
      | task =>
        have hm := (taskStep_measure h lwip).1
        simp only [NetifInput.step] at hle ⊢
        omega
      | dma | poll => cases ha
    | false =>
      have hm := (step_other_measure lwip hr ha).1
      have hb : handsBack s a = false := by rw [handsBack, ha, Bool.false_and, Bool.false_and]
      rw [hb, Bool.toNat_false]
      omega

theorem step_work (lwip : Lwip) (s : NetifInput.State n) (a : NetifInput.Act) (h : Serving s) :
    work (NetifInput.step lwip s a) + (running s && isTask a).toNat ≤
      work s + 14 * (inputWrites s a).toNat := by
  cases hr : running s with
  | false => simp [work, step_stopped lwip s a hr]
  | true =>
    have hle : work (NetifInput.step lwip s a) ≤
        14 * owned (NetifInput.step lwip s a).ring.desc + rank (NetifInput.step lwip s a) := by
      rw [work]
      split
      · exact Nat.le_refl _
      · exact Nat.zero_le _
    have hs : work s = 14 * owned s.ring.desc + rank s := by rw [work, hr, if_pos rfl]
    rw [Bool.true_and]
    cases ha : isTask a with
    | true =>
      cases a with
      | task =>
        have hm := taskStep_measure h lwip
        rw [hr] at hm
        simp only [NetifInput.step, Bool.toNat_true] at hle hm ⊢
        omega
      | dma | poll => cases ha
    | false =>
      obtain ⟨ho, hrank, -⟩ := step_other_measure lwip hr ha
      rw [Bool.toNat_false]
      omega

/-- While the DMA writes back `m` descriptors, `ethernetif_input` hands back at most `m`
more than the ring has, and returns. -/
theorem netifInput_bounded (lwip : Lwip) (s : RxRing.State n) (acts : List NetifInput.Act) :
    let m := stepCount (NetifInput.step lwip) inputWrites (start s) acts
    stepCount (NetifInput.step lwip) handsBack (start s) acts ≤ n + 1 + m ∧
      ((run (NetifInput.step lwip) (start s) acts).pc ≠ .done →
        acts.countP isTask ≤ 14 * (n + 1 + m) + 10) := by
  intro m
  have hs := start_serving s
  have hn := owned_le (start s).ring.desc
  constructor
  · have hb := stepCount_le_of_potential (NetifInput.step lwip) left 1 handsBack inputWrites
      (Serving.step lwip) (step_left lwip) hs acts
    change _ ≤ owned (start s).ring.desc + _ at hb
    omega
  · intro hne
    have hr : running (run (NetifInput.step lwip) (start s) acts) = true := decide_eq_true hne
    have hb := stepCount_le_of_potential (NetifInput.step lwip) work 14
      (fun t a => running t && isTask a) inputWrites (Serving.step lwip) (step_work lwip) hs acts
    rw [countP_eq_stepCount running isTask (step_stopped lwip) hr]
    change _ ≤ 14 * owned (start s).ring.desc + 10 + _ at hb
    omega

/-- Both receive loops terminate on every chain of descriptors, from every position and
with any ring content. -/
theorem rx_loops_terminate (n : ℕ) (s : RxRing.State n) :
    (∀ acts,
      let m := stepCount recPeekStep peekWrites (s.goto .own) acts
      stepCount recPeekStep discards (s.goto .own) acts ≤ n + 1 + m ∧
      (peeking (run recPeekStep (s.goto .own) acts).pc = true →
        acts.countP isCpu ≤ 6 * (n + 1 + m) + 6)) ∧
    (∀ lwip acts,
      let m := stepCount (NetifInput.step lwip) inputWrites (start s) acts
      stepCount (NetifInput.step lwip) handsBack (start s) acts ≤ n + 1 + m ∧
      ((run (NetifInput.step lwip) (start s) acts).pc ≠ .done →
        acts.countP isTask ≤ 14 * (n + 1 + m) + 10)) :=
  ⟨recPeek_bounded s, fun lwip acts => netifInput_bounded lwip s acts⟩

end EthDriver.RxLoops

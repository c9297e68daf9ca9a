import EthDriver.RmiiLink

namespace EthDriver.RmiiInvariant

open Bits MacRegs Mac NetifTask Runs Traces RmiiLink

variable {useDhcp : Bool} {s : State}

def linkBits : BitVec 32 := ethMaccrTe ||| ethMaccrRe ||| ethSpeed100M ||| ethModeFullDuplex

def observing : Pc → Bool
  | .observe _ => true
  | _ => false

structure MacInv (mac : Mac) (linkSta : Bool) (trace : List Event) : Prop where
  te : test mac.maccr ethMaccrTe = linkSta
  re : test mac.maccr ethMaccrRe = linkSta
  speed : test mac.maccr ethSpeed100M = lastBit pscrRead (1#16 <<< 3) trace
  duplex : test mac.maccr ethModeFullDuplex = lastBit pscrRead (1#16 <<< 4) trace
  others : mac.maccr &&& ~~~linkBits = ethRegInit.maccr &&& ~~~linkBits

structure Inv (useDhcp : Bool) (s : State) : Prop where
  driver : s.phyLinkState = s.linkSta
  edge : s.pc = .pscr → s.linkSta = false ∧ lastBit bsrUsed phyLinkedStatus s.trace = true
  bsr : s.pc ≠ .pscr → lastBit bsrUsed phyLinkedStatus s.trace = s.linkSta
  observed : observing s.pc = false → s.task.linkWasUp = s.linkSta
  netif : s.task.netifLinkUp = s.task.linkWasUp
  mac : MacInv s.mac s.linkSta s.trace
  starts : Alternates (s.trace.filterMap starts) s.linkSta
  links : Alternates (s.trace.filterMap links) s.task.linkWasUp
  leases : useDhcp = true → s.task.dhcpStarted = s.task.linkWasUp ∧
    Alternates (s.trace.filterMap leases) (s.linkSta && !s.task.linkWasUp)

theorem regInit_macInv : MacInv ethRegInit false [] :=
  ⟨by decide, by decide, by decide, by decide, rfl⟩

theorem init_inv (localTime : BitVec 32) : Inv useDhcp (init localTime) where
  driver := rfl
  edge he := by cases he
  bsr _ := rfl
  observed _ := rfl
  netif := rfl
  mac := regInit_macInv
  starts := .nil
  links := .nil
  leases _ := ⟨rfl, .nil⟩

theorem lastBit_keep {f : Event → Option (BitVec 16)} {es : List Event} (he : es.filterMap f = [])
    (m : BitVec 16) (trace : List Event) : lastBit f m (trace ++ es) = lastBit f m trace := by
  rw [lastBit, lastBit, last_keep he]

theorem lastBit_concat (f : Event → Option (BitVec 16)) (m : BitVec 16) (trace : List Event)
    {e : Event} {v : BitVec 16} (he : f e = some v) : lastBit f m (trace ++ [e]) = test v m := by
  rw [lastBit, last_concat he, Option.any_some]

theorem MacInv.log {mac : Mac} {linkSta : Bool} {trace : List Event}
    (h : MacInv mac linkSta trace) {es : List Event} (he : es.filterMap pscrRead = []) :
    MacInv mac linkSta (trace ++ es) :=
  ⟨h.te, h.re, h.speed.trans (lastBit_keep he _ _).symm,
    h.duplex.trans (lastBit_keep he _ _).symm, h.others⟩

theorem MacInv.congr {mac mac' : Mac} {linkSta : Bool} {trace : List Event}
    (h : MacInv mac linkSta trace) (he : mac'.maccr = mac.maccr) : MacInv mac' linkSta trace :=
  ⟨he ▸ h.te, he ▸ h.re, he ▸ h.speed, he ▸ h.duplex, he ▸ h.others⟩

theorem MacInv.linkDown {mac : Mac} {linkSta : Bool} {trace : List Event}
    (h : MacInv mac linkSta trace) : MacInv mac.ethStop false trace := by
  refine ⟨?_, ?_, ?_, ?_, ?_⟩ <;> rw [ethStop_maccr]
  · rw [setMaccr_other _ (by decide), setMaccr_self _ (by decide)]
  · rw [setMaccr_self _ (by decide)]
  · rw [setMaccr_other _ (by decide), setMaccr_other _ (by decide), h.speed]
  · rw [setMaccr_other _ (by decide), setMaccr_other _ (by decide), h.duplex]
  · rw [setMaccr_outside _ (by decide) (by decide), setMaccr_outside _ (by decide) (by decide),
      h.others]

theorem MacInv.linkUp {mac : Mac} {linkSta : Bool} {trace : List Event}
    (h : MacInv mac linkSta trace) (v : BitVec 16) :
    MacInv ((mac.setMaccr ethSpeed100M (test v (1#16 <<< 3))).setMaccr ethModeFullDuplex
      (test v (1#16 <<< 4))).ethStart true (trace ++ [.pscr v]) := by
  refine ⟨?_, ?_, ?_, ?_, ?_⟩ <;> rw [ethStart_maccr]
  · rw [setMaccr_other _ (by decide), setMaccr_self _ (by decide)]
  · rw [setMaccr_self _ (by decide)]
  · rw [setMaccr_other _ (by decide), setMaccr_other _ (by decide), setMaccr_other _ (by decide),
      setMaccr_self _ (by decide), lastBit_concat _ _ _ rfl]
  · rw [setMaccr_other _ (by decide), setMaccr_other _ (by decide), setMaccr_self _ (by decide),
      lastBit_concat _ _ _ rfl]
  · rw [setMaccr_outside _ (by decide) (by decide), setMaccr_outside _ (by decide) (by decide),
      setMaccr_outside _ (by decide) (by decide), setMaccr_outside _ (by decide) (by decide),
      h.others]

namespace Inv

/-- Control moves on and nothing the invariant counts is logged. -/
theorem quiet (h : Inv useDhcp s) {pc : Pc} {es : List Event} (hpc : s.pc ≠ .pscr)
    (hpc' : pc ≠ .pscr) (ho : observing s.pc = false) (hb : es.filterMap bsrUsed = [])
    (hp : es.filterMap pscrRead = []) (hs : es.filterMap RmiiLink.starts = [])
    (hl : es.filterMap RmiiLink.links = []) (hd : es.filterMap RmiiLink.leases = []) :
    Inv useDhcp { s with pc := pc, trace := s.trace ++ es } where
  driver := h.driver
  edge he := absurd he hpc'
  bsr _ := (lastBit_keep hb _ _).trans (h.bsr hpc)
  observed _ := h.observed ho
  netif := h.netif
  mac := h.mac.log hp
  starts := h.starts.keep hs
  links := h.links.keep hl
  leases hu := ⟨(h.leases hu).1, (h.leases hu).2.keep hd⟩

theorem goto (h : Inv useDhcp s) {pc : Pc} (hpc : s.pc ≠ .pscr) (hpc' : pc ≠ .pscr)
    (ho : observing s.pc = false) : Inv useDhcp (s.goto pc) := by
  have hq : Inv useDhcp { s with pc := pc, trace := s.trace ++ [] } :=
    h.quiet hpc hpc' ho rfl rfl rfl rfl rfl
  rwa [List.append_nil] at hq

theorem unchanged (h : Inv useDhcp s) {v : BitVec 16} (hv : test v phyLinkedStatus = s.linkSta) :
    Inv useDhcp { s with pc := .observe true, trace := s.trace ++ [.bsr v] } where
  driver := h.driver
  edge he := by cases he
  bsr _ := (lastBit_concat _ _ _ rfl).trans hv
  observed hn := by cases hn
  netif := h.netif
  mac := h.mac.log rfl
  starts := h.starts.keep rfl
  links := h.links.keep rfl
  leases hu := ⟨(h.leases hu).1, (h.leases hu).2.keep rfl⟩

theorem rising (h : Inv useDhcp s) (ho : observing s.pc = false) (hl : s.linkSta = false)
    {v : BitVec 16} (hv : test v phyLinkedStatus = true) :
    Inv useDhcp { s with pc := .pscr, trace := s.trace ++ [.bsr v] } where
  driver := h.driver
  edge _ := ⟨hl, (lastBit_concat _ _ _ rfl).trans hv⟩
  bsr he := absurd rfl he
  observed _ := h.observed ho
  netif := h.netif
  mac := h.mac.log rfl
  starts := h.starts.keep rfl
  links := h.links.keep rfl
  leases hu := ⟨(h.leases hu).1, (h.leases hu).2.keep rfl⟩

theorem falling (h : Inv useDhcp s) (ho : observing s.pc = false) (hl : s.linkSta = true)
    {v : BitVec 16} (hv : test v phyLinkedStatus = false) :
    Inv useDhcp { s with
      phyLinkState := false
      linkSta := false
      mac := s.mac.ethStop
      pc := .observe true
      trace := s.trace ++ [.bsr v] ++ [.ethStop] } where
  driver := rfl
  edge he := by cases he
  bsr _ := by rw [lastBit_keep rfl, lastBit_concat _ _ _ rfl, hv]
  observed hn := by cases hn
  netif := h.netif
  mac := (h.mac.linkDown.log rfl).log rfl
  starts := by
    have hs := h.starts
    rw [hl] at hs
    exact (hs.keep rfl).toggle rfl
  links := (h.links.keep rfl).keep rfl
  leases hu := by
    obtain ⟨hd, ha⟩ := h.leases hu
    rw [h.observed ho, hl] at ha
    exact ⟨hd, (ha.keep rfl).keep rfl⟩

theorem bsrStep (h : Inv useDhcp s) (hpc : s.pc = .bsr) (v : BitVec 16) (bound : Bool) :
    Inv useDhcp (cpuStep useDhcp s v bound) := by
  have ho : observing s.pc = false := by rw [hpc]; rfl
  cases hv : test v phyLinkedStatus with
  | true =>
    cases hl : s.linkSta with
    | true =>
      have hu := h.unchanged (hv.trans hl.symm)
      simpa only [cpuStep, hpc, hv, if_true, State.log, h.driver, hl, Bool.not_true,
        Bool.false_eq_true, if_false] using hu
    | false =>
      have hr := h.rising ho hl hv
      simpa only [cpuStep, hpc, hv, if_true, State.log, State.goto, h.driver, hl,
        Bool.not_false] using hr
  | false =>
    cases hl : s.linkSta with
    | true =>
      have hf := h.falling ho hl hv
      simpa only [cpuStep, hpc, hv, Bool.false_eq_true, if_false, State.log, State.linkDown,
        h.driver, hl, if_true] using hf
    | false =>
      have hu := h.unchanged (hv.trans hl.symm)
      simpa only [cpuStep, hpc, hv, Bool.false_eq_true, if_false, State.log, h.driver, hl] using hu

theorem pscrStep (h : Inv useDhcp s) (hpc : s.pc = .pscr) (v : BitVec 16) (bound : Bool) :
    Inv useDhcp (cpuStep useDhcp s v bound) := by
  obtain ⟨hl, hb⟩ := h.edge hpc
  have hw : s.task.linkWasUp = false := (h.observed (by rw [hpc]; rfl)).trans hl
  have hs := h.starts
  rw [hl] at hs
  simp only [cpuStep, hpc]
  exact
    { driver := rfl
      edge := fun he => by cases he
      bsr := fun _ => (lastBit_keep rfl _ _).trans ((lastBit_keep rfl _ _).trans hb)
      observed := fun hn => by cases hn
      netif := h.netif
      mac := (h.mac.linkUp v).log rfl
      starts := (hs.keep rfl).toggle rfl
      links := (h.links.keep rfl).keep rfl
      leases := fun hu => by
        obtain ⟨hd, ha⟩ := h.leases hu
        rw [hl, hw] at ha
        change s.task.dhcpStarted = s.task.linkWasUp ∧ Alternates _ (true && !s.task.linkWasUp)
        rw [hw] at hd ⊢
        exact ⟨hd, (ha.keep rfl).toggle rfl⟩ }

end Inv

theorem foldl_exec (ops : List Op) (s : State) :
    ops.foldl State.exec s = { s with
      task := ops.foldl Task.exec s.task
      mac := ops.foldl execMac s.mac
      trace := s.trace ++ ops.map .op } := by
  induction ops generalizing s with
  | nil => simp
  | cons o ops ih => rw [List.foldl_cons, ih]; simp [State.exec]

section Branch

variable (useDhcp bound linkSta : Bool) (t : Task)

/-- lwIP is told about the link only when it has changed. -/
theorem linkBranch_links :
    ((linkBranch useDhcp bound linkSta t).map Event.op).filterMap links =
      if t.linkWasUp = linkSta then [] else [linkSta] := by
  obtain ⟨w, d, i, n⟩ := t
  revert useDhcp bound linkSta w d i n
  decide

/-- DHCP is started exactly when the link has come up. -/
theorem linkBranch_leases (h : t.dhcpStarted = t.linkWasUp) :
    ((linkBranch true bound linkSta t).map Event.op).filterMap leases =
      if linkSta && !t.linkWasUp then [false] else [] := by
  obtain ⟨w, d, i, n⟩ := t
  revert bound linkSta w d i n
  decide

end Branch

theorem filterMap_op_nil {β : Type} {f : Event → Option β} (hf : ∀ o, f (.op o) = none)
    (ops : List Op) : (ops.map Event.op).filterMap f = [] := by
  simp [List.filterMap_map, hf]

namespace Inv

theorem observeStep (h : Inv useDhcp s) {polled : Bool} (hpc : s.pc = .observe polled)
    (v : BitVec 16) (bound : Bool) : Inv useDhcp (cpuStep useDhcp s v bound) := by
  simp only [cpuStep, hpc, foldl_exec, State.goto]
  exact
    { driver := h.driver
      edge := fun he => by cases he
      bsr := fun _ => by
        have hb := h.bsr (by rw [hpc]; simp)
        exact (lastBit_keep (filterMap_op_nil (fun _ => rfl) _) _ _).trans hb
      observed := fun _ => linkBranch_linkWasUp _ _ _ _
      netif := by
        rw [linkBranch_linkWasUp]
        exact linkBranch_netifLinkUp _ _ _ _ h.netif
      mac := (h.mac.congr (foldl_execMac_maccr _ _)).log (filterMap_op_nil (fun _ => rfl) _)
      starts := h.starts.keep (filterMap_op_nil (fun _ => rfl) _)
      links := by
        have hops := linkBranch_links useDhcp bound s.linkSta s.task
        rw [linkBranch_linkWasUp]
        by_cases he : s.task.linkWasUp = s.linkSta
        · rw [if_pos he] at hops
          rw [← he]
          rw [← he] at hops
          exact h.links.keep hops
        · rw [if_neg he] at hops
          have hn : s.linkSta = !s.task.linkWasUp := Bool.eq_not.mpr (Ne.symm he)
          rw [hn] at hops ⊢
          exact h.links.toggle hops
      leases := fun hu => by
        subst hu
        obtain ⟨hd, ha⟩ := h.leases rfl
        have hops := linkBranch_leases bound s.linkSta s.task hd
        rw [linkBranch_linkWasUp, linkBranch_dhcpStarted _ _ _ hd]
        refine ⟨rfl, ?_⟩
        rw [Bool.and_not_self]
        cases he : s.linkSta && !s.task.linkWasUp with
        | true =>
          rw [he] at hops ha
          exact ha.toggle hops
        | false =>
          rw [he] at hops ha
          exact ha.keep hops }

theorem cpuStep (h : Inv useDhcp s) (v : BitVec 16) (bound : Bool) :
    Inv useDhcp (cpuStep useDhcp s v bound) := by
  cases hpc : s.pc with
  | input =>
    simp only [RmiiLink.cpuStep, hpc]
    exact h.goto (by simp [hpc]) (by simp) (by rw [hpc]; rfl)
  | throttle =>
    simp only [RmiiLink.cpuStep, hpc]
    split <;> exact h.goto (by simp [hpc]) (by simp) (by rw [hpc]; rfl)
  | stamp =>
    have hg : Inv useDhcp (s.goto .bsrLatched) :=
      h.goto (by simp [hpc]) (by simp) (by rw [hpc]; rfl)
    simp only [RmiiLink.cpuStep, hpc]
    exact ⟨hg.driver, hg.edge, hg.bsr, hg.observed, hg.netif, hg.mac, hg.starts, hg.links,
      hg.leases⟩
  | bsrLatched =>
    simp only [RmiiLink.cpuStep, hpc]
    exact h.quiet (by simp [hpc]) (by simp) (by rw [hpc]; rfl) rfl rfl rfl rfl rfl
  | bsr => exact h.bsrStep hpc v bound
  | pscr => exact h.pscrStep hpc v bound
  | observe polled => exact h.observeStep hpc v bound

theorem step (h : Inv useDhcp s) (a : Act) : Inv useDhcp (step useDhcp s a) := by
  cases a with
  | tick timperiod =>
    exact ⟨h.driver, h.edge, h.bsr, h.observed, h.netif, h.mac, h.starts, h.links, h.leases⟩
  | cpu v bound => exact h.cpuStep v bound

end Inv

theorem run_inv (localTime : BitVec 32) (acts : List Act) :
    Inv useDhcp (run (step useDhcp) (init localTime) acts) :=
  run_invariant (fun _ a h => h.step a) (init_inv localTime) acts

/-- Between two iterations of the netif task all copies of the link status agree
with the last `BSR` value used; `MACCR` has the MAC on exactly while the link is up,
the mode of the last rising edge, and its other bits from `ETH_RegInit`; starts and
stops, and the calls that tell lwIP, alternate; and each rising edge starts DHCP
once. -/
theorem rmii_link_state (useDhcp : Bool) (localTime : BitVec 32) (acts : List Act) :
    let s := run (step useDhcp) (init localTime) acts
    s.pc = .input →
      (s.phyLinkState = s.linkSta ∧ s.task.linkWasUp = s.linkSta ∧
        s.task.netifLinkUp = s.linkSta ∧ lastBit bsrUsed phyLinkedStatus s.trace = s.linkSta) ∧
      (test s.mac.maccr ethMaccrTe = s.linkSta ∧ test s.mac.maccr ethMaccrRe = s.linkSta) ∧
      (test s.mac.maccr ethSpeed100M = lastBit pscrRead (1#16 <<< 3) s.trace ∧
        test s.mac.maccr ethModeFullDuplex = lastBit pscrRead (1#16 <<< 4) s.trace ∧
        s.mac.maccr &&& ~~~linkBits = ethRegInit.maccr &&& ~~~linkBits) ∧
      (Alternates (s.trace.filterMap starts) s.linkSta ∧
        Alternates (s.trace.filterMap links) s.linkSta) ∧
      (useDhcp = true → Alternates (s.trace.filterMap leases) false) := by
  intro s hpc
  have h : Inv useDhcp s := run_inv localTime acts
  have hw := h.observed (by rw [hpc]; rfl)
  have hn := h.netif
  have hlinks := h.links
  rw [hw] at hn hlinks
  refine ⟨⟨h.driver, hw, hn, h.bsr (by rw [hpc]; simp)⟩, ⟨h.mac.te, h.mac.re⟩,
    ⟨h.mac.speed, h.mac.duplex, h.mac.others⟩, ⟨h.starts, hlinks⟩, fun hu => ?_⟩
  have ha := (h.leases hu).2
  rwa [hw, Bool.and_not_self] at ha

def upIteration : List Act :=
  [.cpu 0 false, .cpu 0 false, .cpu 0 false, .cpu 0 false, .cpu 0x0004 false, .cpu 0x0018 false,
    .cpu 0 false]

theorem rmii_link_state_up :
    let s := run (step true) (init 0) upIteration
    s.linkSta = true ∧ s.task.netifLinkUp = s.linkSta ∧
      Alternates (s.trace.filterMap leases) false := by
  have h := rmii_link_state true 0 upIteration (by decide +kernel)
  exact ⟨by decide +kernel, h.1.2.2.1, h.2.2.2.2 rfl⟩

end EthDriver.RmiiInvariant

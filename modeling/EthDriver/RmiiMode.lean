import EthDriver.RmiiInvariant

namespace EthDriver.RmiiMode

open Bits MacRegs Mac NetifTask Runs Traces RmiiLink RmiiInvariant

structure Mode where
  speed100 : Bool
  fullDuplex : Bool
  deriving DecidableEq

/-- The LAN8720A: its link, the mode it has resolved, and whether the link status bit
of `BSR` is latched low since a drop that has not been read yet. -/
structure Phy where
  up : Bool
  mode : Mode
  latched : Bool

inductive PhyEvent
  | drop
  | negotiate (m : Mode)
  | comeUp

/-- What the PHY does on its own. It changes its mode only while the link is down. -/
def Phy.step (p : Phy) : PhyEvent → Phy
  | .drop => { p with up := false, latched := true }
  | .negotiate m => if p.up then p else { p with mode := m }
  | .comeUp => { p with up := true }

/-- `BSR`, with any value in its other bits. -/
def Phy.bsr (p : Phy) (rest : BitVec 16) : BitVec 16 :=
  (rest &&& ~~~phyLinkedStatus) ||| (if p.up && !p.latched then phyLinkedStatus else 0)

def Phy.pscr (p : Phy) (rest : BitVec 16) : BitVec 16 :=
  (rest &&& ~~~(1#16 <<< 3 ||| 1#16 <<< 4)) |||
    ((if p.mode.speed100 then 1#16 <<< 3 else 0) ||| (if p.mode.fullDuplex then 1#16 <<< 4 else 0))

/-- The netif task and the PHY. `polled` records that the last step was the end of a
poll that was executed. -/
structure Sys where
  drv : State
  phy : Phy
  polled : Bool

inductive Act
  | tick (timperiod : BitVec 16)
  | phy (e : PhyEvent)
  | cpu (rest : BitVec 16) (bound : Bool)

def init (localTime : BitVec 32) (phy : Phy) : Sys := ⟨RmiiLink.init localTime, phy, false⟩

/-- What the next access of the task reads from the PHY, and what the read does to
it. -/
def smiRead (pc : Pc) (p : Phy) (rest : BitVec 16) : BitVec 16 × Phy :=
  match pc with
  | .bsrLatched | .bsr => (p.bsr rest, { p with latched := false })
  | .pscr => (p.pscr rest, p)
  | _ => (rest, p)

variable {useDhcp : Bool}

def step (useDhcp : Bool) (s : Sys) : Act → Sys
  | .tick timperiod =>
    { s with drv := RmiiLink.step useDhcp s.drv (.tick timperiod), polled := false }
  | .phy e => { s with phy := s.phy.step e, polled := false }
  | .cpu rest bound =>
    let r := smiRead s.drv.pc s.phy rest
    let drv := cpuStep useDhcp s.drv r.1 bound
    { drv := drv
      phy := r.2
      polled := decide (drv.pc = .observe true) }

def InMode (mac : Mac) (m : Mode) : Prop :=
  test mac.maccr ethSpeed100M = m.speed100 ∧ test mac.maccr ethModeFullDuplex = m.fullDuplex

instance (mac : Mac) (m : Mode) : Decidable (InMode mac m) := inferInstanceAs (Decidable (_ ∧ _))

/-- A poll that reports the link up leaves the MAC in the mode of the link. -/
def ModeAgrees (s : Sys) : Prop :=
  s.polled = true → s.drv.linkSta = true → s.phy.up = true → InMode s.drv.mac s.phy.mode

instance (s : Sys) : Decidable (ModeAgrees s) := inferInstanceAs (Decidable (_ → _ → _ → _))

/-- The drop has been seen by a poll, or the second `BSR` read of the poll in
progress is about to see it. -/
def dropSeen (s : Sys) : Bool :=
  !s.drv.phyLinkState || (decide (s.drv.pc = .bsr) && s.phy.latched)

/-- The PHY goes into another mode only after the driver has seen the drop. -/
def SeenBeforeChange (s : Sys) : Act → Prop
  | .phy (.negotiate m) => s.phy.up = false → m ≠ s.phy.mode → dropSeen s = true
  | _ => True

instance (s : Sys) : ∀ a, Decidable (SeenBeforeChange s a)
  | .phy (.negotiate _) => inferInstanceAs (Decidable (_ → _ → _))
  | .phy .drop | .phy .comeUp | .tick _ | .cpu _ _ => inferInstanceAs (Decidable True)

structure Tracks (useDhcp : Bool) (s : Sys) : Prop where
  drv : Inv useDhcp s.drv
  mode : dropSeen s = false → InMode s.drv.mac s.phy.mode
  fresh : s.polled = true → s.drv.pc = .observe true

theorem init_tracks (localTime : BitVec 32) (phy : Phy) : Tracks useDhcp (init localTime phy) where
  drv := init_inv localTime
  mode hs := by simp [dropSeen, init, RmiiLink.init] at hs
  fresh hp := by cases hp

theorem test_pscr_speed (p : Phy) (rest : BitVec 16) :
    test (p.pscr rest) (1#16 <<< 3) = p.mode.speed100 := by
  rw [Phy.pscr, test_or, test_clear_of_le _ (by decide), test_or]
  cases p.mode.speed100 <;> cases p.mode.fullDuplex <;> decide

theorem test_pscr_duplex (p : Phy) (rest : BitVec 16) :
    test (p.pscr rest) (1#16 <<< 4) = p.mode.fullDuplex := by
  rw [Phy.pscr, test_or, test_clear_of_le _ (by decide), test_or]
  cases p.mode.speed100 <;> cases p.mode.fullDuplex <;> decide

theorem test_bsr (p : Phy) (rest : BitVec 16) :
    test (p.bsr rest) phyLinkedStatus = (p.up && !p.latched) := by
  rw [Phy.bsr, test_or, test_clear_of_le _ (by decide)]
  cases p.up <;> cases p.latched <;> decide

theorem inMode_congr {mac mac' : Mac} (h : mac'.maccr = mac.maccr) (m : Mode) :
    InMode mac' m ↔ InMode mac m := by
  rw [InMode, InMode, h]

theorem inMode_ethStop (mac : Mac) (m : Mode) : InMode mac.ethStop m ↔ InMode mac m := by
  rw [InMode, InMode, ethStop_maccr, setMaccr_other _ (by decide), setMaccr_other _ (by decide),
    setMaccr_other _ (by decide), setMaccr_other _ (by decide)]

theorem InMode.unique {mac : Mac} {m m' : Mode} (h : InMode mac m) (h' : InMode mac m') :
    m = m' := by
  obtain ⟨a, b⟩ := m
  obtain ⟨a', b'⟩ := m'
  obtain ⟨hs, hd⟩ := h
  obtain ⟨hs', hd'⟩ := h'
  simp only at hs hd hs' hd'
  rw [← hs, ← hd, ← hs', ← hd']

theorem cpuStep_pscr {s : State} (hpc : s.pc = .pscr) (p : Phy) (rest : BitVec 16) (bound : Bool) :
    InMode (cpuStep useDhcp s (p.pscr rest) bound).mac p.mode := by
  simp only [cpuStep, hpc, State.goto, State.linkUp, State.log, InMode]
  rw [ethStart_maccr]
  constructor
  · rw [setMaccr_other _ (by decide), setMaccr_other _ (by decide), setMaccr_other _ (by decide),
      setMaccr_self _ (by decide), test_pscr_speed]
  · rw [setMaccr_other _ (by decide), setMaccr_other _ (by decide), setMaccr_self _ (by decide),
      test_pscr_duplex]

theorem cpuStep_mode {s : State} (hpc : s.pc ≠ .pscr) (v : BitVec 16) (bound : Bool) (m : Mode) :
    InMode (cpuStep useDhcp s v bound).mac m ↔ InMode s.mac m := by
  cases h : s.pc with
  | input | throttle | stamp | bsrLatched => simp only [cpuStep, h, State.goto, State.log]
  | bsr =>
    simp only [cpuStep, h]
    split
    · split <;> exact Iff.rfl
    · split
      · exact inMode_ethStop s.mac m
      · exact Iff.rfl
  | pscr => exact absurd h hpc
  | observe polled =>
    simp only [cpuStep, h, foldl_exec]
    exact inMode_congr (foldl_execMac_maccr _ _) m

/-- Only the second `BSR` read and the rising edge change `phy_link_state`. -/
theorem cpuStep_phyLinkState {s : State} (hb : s.pc ≠ .bsr) (hp : s.pc ≠ .pscr) (v : BitVec 16)
    (bound : Bool) : (cpuStep useDhcp s v bound).phyLinkState = s.phyLinkState := by
  cases h : s.pc with
  | input | throttle | stamp | bsrLatched => simp only [cpuStep, h, State.goto, State.log]
  | bsr => exact absurd h hb
  | pscr => exact absurd h hp
  | observe polled => simp only [cpuStep, h, foldl_exec]; rfl

theorem cpuStep_bsr {s : State} (hpc : s.pc = .bsr) (v : BitVec 16) (bound : Bool)
    (h : (cpuStep useDhcp s v bound).phyLinkState = true) :
    test v phyLinkedStatus = true ∧ s.phyLinkState = true := by
  simp only [cpuStep, hpc, State.log] at h
  cases hv : test v phyLinkedStatus <;> cases hs : s.phyLinkState <;>
    simp [hv, hs, State.goto, State.linkDown] at h ⊢

theorem dropSeen_false {s : Sys} :
    dropSeen s = false ↔ s.drv.phyLinkState = true ∧ (s.drv.pc = .bsr → s.phy.latched = false) := by
  simp [dropSeen]

theorem Tracks.phy {s : Sys} (h : Tracks useDhcp s) (e : PhyEvent)
    (hc : SeenBeforeChange s (.phy e)) : Tracks useDhcp (step useDhcp s (.phy e)) := by
  refine ⟨h.drv, fun hs => ?_, fun hp => (by cases hp)⟩
  rw [dropSeen_false] at hs
  cases e with
  | drop =>
    have hpc : s.drv.pc ≠ .bsr := fun hpc => by cases hs.2 hpc
    exact h.mode (dropSeen_false.mpr ⟨hs.1, fun hb => absurd hb hpc⟩)
  | comeUp => exact h.mode (dropSeen_false.mpr hs)
  | negotiate m =>
    simp only [step, Phy.step] at hs ⊢
    cases hup : s.phy.up with
    | true =>
      rw [hup] at hs
      exact h.mode (dropSeen_false.mpr hs)
    | false =>
      rw [hup] at hs
      have hd : dropSeen s = false := dropSeen_false.mpr hs
      have hm : m = s.phy.mode := by
        by_contra hne
        exact Bool.false_ne_true (hd.symm.trans (hc hup hne))
      rw [if_neg Bool.false_ne_true, hm]
      exact h.mode hd

theorem Tracks.cpu {s : Sys} (h : Tracks useDhcp s) (rest : BitVec 16) (bound : Bool) :
    Tracks useDhcp (step useDhcp s (.cpu rest bound)) := by
  refine ⟨h.drv.cpuStep _ _, fun hs => ?_, fun hp => of_decide_eq_true hp⟩
  rw [dropSeen_false] at hs
  simp only [step] at hs ⊢
  by_cases hp : s.drv.pc = .pscr
  · simp only [hp, smiRead]
    exact cpuStep_pscr hp s.phy rest bound
  · rw [cpuStep_mode hp]
    by_cases hb : s.drv.pc = .bsr
    · obtain ⟨hv, hl⟩ := cpuStep_bsr hb _ _ hs.1
      simp only [hb, smiRead, test_bsr, Bool.and_eq_true, Bool.not_eq_true'] at hv ⊢
      exact h.mode (dropSeen_false.mpr ⟨hl, fun _ => hv.2⟩)
    · rw [cpuStep_phyLinkState hb hp] at hs
      have hm := h.mode (dropSeen_false.mpr ⟨hs.1, fun he => absurd he hb⟩)
      cases hpc : s.drv.pc <;> exact hm

theorem Tracks.step {s : Sys} (h : Tracks useDhcp s) (a : Act) (hc : SeenBeforeChange s a) :
    Tracks useDhcp (step useDhcp s a) := by
  cases a with
  | tick timperiod =>
    refine ⟨h.drv.step (.tick timperiod), fun hs => h.mode ?_, fun hp => (by cases hp)⟩
    rw [dropSeen_false] at hs ⊢
    exact hs
  | phy e => exact h.phy e hc
  | cpu rest bound => exact h.cpu rest bound

theorem Tracks.agrees {s : Sys} (h : Tracks useDhcp s) : ModeAgrees s := by
  intro hp hl _
  have hpc := h.fresh hp
  refine h.mode (dropSeen_false.mpr ⟨h.drv.driver.trans hl, fun hb => ?_⟩)
  rw [hpc] at hb
  cases hb

/-- The driver has the link up, and the PHY is up in a mode the MAC is not in. -/
structure Stale (useDhcp : Bool) (s : Sys) : Prop where
  drv : Inv useDhcp s.drv
  link : s.drv.phyLinkState = true
  up : s.phy.up = true
  mode : ¬ InMode s.drv.mac s.phy.mode

theorem Stale.ne_pscr {s : Sys} (h : Stale useDhcp s) : s.drv.pc ≠ .pscr := fun hpc =>
  absurd ((h.drv.driver.symm.trans h.link).symm.trans (h.drv.edge hpc).1) (by decide)

theorem Stale.bsr {s : Sys} (h : Stale useDhcp s) (hpc : s.drv.pc = .bsr)
    (hl : s.phy.latched = false) : ¬ ModeAgrees (step useDhcp s (.cpu 0 false)) := by
  intro ha
  have hv : test (s.phy.bsr 0) phyLinkedStatus = true := by rw [test_bsr, h.up, hl]; rfl
  simp only [ModeAgrees, step, hpc, smiRead, cpuStep, hv, State.log, h.link, Bool.not_true,
    Bool.false_eq_true, if_true, if_false, decide_true, forall_const] at ha
  exact h.mode (ha h.up)

theorem Stale.cpu {s : Sys} (h : Stale useDhcp s) (hpc : s.drv.pc ≠ .bsr) :
    Stale useDhcp (step useDhcp s (.cpu 0 false)) := by
  have hphy : (smiRead s.drv.pc s.phy 0).2.up = s.phy.up ∧
      (smiRead s.drv.pc s.phy 0).2.mode = s.phy.mode := by
    simp only [smiRead]
    split <;> exact ⟨rfl, rfl⟩
  refine ⟨h.drv.cpuStep _ _, ?_, hphy.1.trans h.up, ?_⟩
  · exact (cpuStep_phyLinkState hpc h.ne_pscr _ _).trans h.link
  · change ¬ InMode (cpuStep useDhcp s.drv _ false).mac (smiRead s.drv.pc s.phy 0).2.mode
    rw [hphy.2, cpuStep_mode h.ne_pscr]
    exact h.mode

theorem Stale.tick {s : Sys} (h : Stale useDhcp s) (d : BitVec 16) :
    Stale useDhcp (step useDhcp s (.tick d)) :=
  ⟨h.drv.step (.tick d), h.link, h.up, h.mode⟩

/-- The timer can always let the next call poll. -/
theorem exists_tick (now last : BitVec 32) :
    ∃ d : BitVec 16, ¬ now + d.setWidth 32 - last < phyLinkTaskPeriod := by
  simp only [phyLinkTaskPeriod]
  by_cases h : now - last < 50
  · exact ⟨50, by bv_omega⟩
  · exact ⟨0, by simpa using h⟩

section Reach

variable {s : Sys}

theorem Stale.reach_bsr (h : Stale useDhcp s) (hpc : s.drv.pc = .bsr)
    (hl : s.phy.latched = false) : CanFail (step useDhcp) ModeAgrees s :=
  ⟨[.cpu 0 false], h.bsr hpc hl⟩

theorem Stale.reach_bsrLatched (h : Stale useDhcp s) (hpc : s.drv.pc = .bsrLatched) :
    CanFail (step useDhcp) ModeAgrees s := by
  refine CanFail.of_step (.cpu 0 false) ((h.cpu (by simp [hpc])).reach_bsr ?_ ?_)
  · simp only [step, cpuStep, hpc, State.goto]
  · simp only [step, hpc, smiRead]

theorem Stale.reach_stamp (h : Stale useDhcp s) (hpc : s.drv.pc = .stamp) :
    CanFail (step useDhcp) ModeAgrees s := by
  refine CanFail.of_step (.cpu 0 false) ((h.cpu (by simp [hpc])).reach_bsrLatched ?_)
  simp only [step, cpuStep, hpc]

theorem Stale.reach_throttle (h : Stale useDhcp s) (hpc : s.drv.pc = .throttle) :
    CanFail (step useDhcp) ModeAgrees s := by
  obtain ⟨d, hd⟩ := exists_tick s.drv.localTime s.drv.linkPollTime
  have hpc' : (step useDhcp s (.tick d)).drv.pc = .throttle := hpc
  refine CanFail.of_step (.tick d) (CanFail.of_step (.cpu 0 false) ?_)
  apply ((h.tick d).cpu (by simp [hpc'])).reach_stamp
  simp only [step, RmiiLink.step, cpuStep, hpc, State.goto, if_neg hd]

theorem Stale.reach_input (h : Stale useDhcp s) (hpc : s.drv.pc = .input) :
    CanFail (step useDhcp) ModeAgrees s := by
  refine CanFail.of_step (.cpu 0 false) ((h.cpu (by simp [hpc])).reach_throttle ?_)
  simp only [step, cpuStep, hpc, State.goto]

theorem Stale.reach (h : Stale useDhcp s) (hl : s.drv.pc = .bsr → s.phy.latched = false) :
    CanFail (step useDhcp) ModeAgrees s := by
  cases hpc : s.drv.pc with
  | input => exact h.reach_input hpc
  | throttle => exact h.reach_throttle hpc
  | stamp => exact h.reach_stamp hpc
  | bsrLatched => exact h.reach_bsrLatched hpc
  | bsr => exact h.reach_bsr hpc (hl hpc)
  | pscr => exact absurd hpc h.ne_pscr
  | observe polled =>
    refine CanFail.of_step (.cpu 0 false) ((h.cpu (by simp [hpc])).reach_input ?_)
    simp only [step, cpuStep, hpc, State.goto]

end Reach

theorem unseen_change_stale {s : Sys} (h : Tracks useDhcp s) {a : Act}
    (ha : ¬ SeenBeforeChange s a) :
    CanFail (step useDhcp) ModeAgrees (step useDhcp s a) := by
  cases a with
  | tick | cpu => exact absurd trivial ha
  | phy e =>
    cases e with
    | drop | comeUp => exact absurd trivial ha
    | negotiate m =>
      simp only [SeenBeforeChange, Classical.not_imp, Bool.not_eq_true] at ha
      obtain ⟨hup, hne, hseen⟩ := ha
      have hm := h.mode hseen
      obtain ⟨hl, hlat⟩ := dropSeen_false.mp hseen
      have hstale :
          Stale useDhcp (step useDhcp (step useDhcp s (.phy (.negotiate m))) (.phy .comeUp)) := by
        refine ⟨h.drv, hl, rfl, fun hin => hne ?_⟩
        simp only [step, Phy.step, hup, Bool.false_eq_true, if_false] at hin
        exact hin.unique hm
      refine CanFail.of_step (.phy .comeUp) (hstale.reach fun hpc => ?_)
      simp only [step, Phy.step, hup, Bool.false_eq_true, if_false]
      exact hlat hpc

/-- In every run in which the PHY changes its mode only after the driver has seen the
drop, each executed poll that reports the link up leaves the MAC in the PHY's mode.
The first change of mode that goes unseen has a continuation in which a poll does
not. -/
theorem poll_leaves_mode (useDhcp : Bool) (localTime : BitVec 32) (phy : Phy) (acts : List Act)
    (hm : Meets (step useDhcp) SeenBeforeChange (init localTime phy) acts) :
    Throughout (step useDhcp) ModeAgrees (init localTime phy) acts ∧
    ∀ a, ¬ SeenBeforeChange (run (step useDhcp) (init localTime phy) acts) a →
      ∃ more, ¬ Throughout (step useDhcp) ModeAgrees (init localTime phy) (acts ++ a :: more) := by
  have hall : Throughout (step useDhcp) (Tracks useDhcp) (init localTime phy) acts :=
    throughout_of_meets (fun _ a h hc => h.step a hc) (init_tracks localTime phy) hm
  refine ⟨hall.mono fun _ h => h.agrees, fun a ha => ?_⟩
  exact (unseen_change_stale hall.last ha).not_throughout

def iteration (n : ℕ) : List Act := List.replicate n (.cpu 0 false)

/-- The link comes up at 100M full duplex and is polled. It drops and comes back at
10M half duplex before the next poll. -/
def unseenRun : List Act :=
  iteration 7 ++ [.phy .drop, .phy (.negotiate ⟨false, false⟩), .phy .comeUp, .tick 50] ++
    iteration 5

theorem poll_leaves_stale_mode :
    ¬ Throughout (step false) ModeAgrees (init 0 ⟨true, ⟨true, true⟩, false⟩) unseenRun := fun h =>
  absurd h.last (by decide +kernel)

def seenRun : List Act :=
  iteration 7 ++ [.phy .drop, .tick 50] ++ iteration 6 ++
    [.phy (.negotiate ⟨false, false⟩), .phy .comeUp, .tick 50] ++ iteration 6

theorem poll_leaves_new_mode :
    (run (step false) (init 0 ⟨true, ⟨true, true⟩, false⟩) seenRun).polled = true ∧
      Throughout (step false) ModeAgrees (init 0 ⟨true, ⟨true, true⟩, false⟩) seenRun :=
  ⟨by decide +kernel, (poll_leaves_mode false 0 _ seenRun (by decide +kernel)).1⟩

end EthDriver.RmiiMode

import EthDriver.Clocks
import EthDriver.LiveLink

namespace EthDriver.PolarityTurn

open Bits MacRegs Runs Clocks Negotiation NegotiationInvariant

/-- The interrupt finds the link up. -/
def linked (r : LinkRegs) : Bool := test r.bsr phyLinkedStatus

/-- The link came up by parallel detection: the negotiation is enabled and complete, and
the partner has sent nothing. -/
def parallel (r : LinkRegs) : Bool :=
  linked r && test r.bcr phyAutoNegotiation && decide (r.anlpar = 0) &&
    test r.bsr phyAutoNegoComplete

/-- The interrupt changes `TURN_PN_POLARITY`. -/
def turns (s : Negotiation.State) (r : LinkRegs) : Bool :=
  test (ethPhyLink s r).phyNegoStat turnPnPolarity != test s.phyNegoStat turnPnPolarity

/-- The driver with the elapsed milliseconds and what has happened: the last link-up
with its time and whether it was a parallel detection, whether a link-down has come since
then, the time of the last parallel detection, and whether a link-down has turned the
polarity since that one. -/
structure State where
  now : ℕ
  driver : Negotiation.State
  lastUp : Option (ℕ × Bool)
  down : Bool
  lastParallel : Option ℕ
  turned : Bool

def init (now : ℕ) (chipId extenCtr : BitVec 32) (mac3 mac4 mac5 : BitVec 8) : State :=
  { now := now
    driver := Negotiation.init (reading 32 now) chipId extenCtr mac3 mac4 mac5
    lastUp := none
    down := false
    lastParallel := none
    turned := false }

def step (s : State) : Act → State
  | .tick timperiod =>
    { s with now := s.now + timperiod.toNat, driver := Negotiation.step s.driver (.tick timperiod) }
  | .phyLink r =>
    if linked r then
      { s with
        driver := Negotiation.step s.driver (.phyLink r)
        lastUp := some (s.now, parallel r)
        down := false
        lastParallel := if parallel r then some s.now else s.lastParallel
        turned := if parallel r then false else s.turned }
    else
      { s with
        driver := Negotiation.step s.driver (.phyLink r)
        down := true
        turned := s.turned || turns s.driver r }
  | a => { s with driver := Negotiation.step s.driver a }

/-- A link-down turns the polarity only if the last link-up was a parallel detection less
than 100 ms ago, and no link-down has turned it since. -/
def Justified (s : State) : Act → Prop
  | .phyLink r => linked r = false → turns s.driver r = true →
      ∃ t, s.lastUp = some (t, true) ∧ s.now < t + 100 ∧ s.turned = false
  | _ => True

/-- A link-down that comes while `LAST_NEGO_STAT` is set is the first one since the latest
link-up, a parallel detection in the present period of the clock, or it comes when the
clock is 100 or more past the stamp. -/
def Timely (s : State) : Act → Prop
  | .phyLink r => linked r = false → test s.driver.phyNegoStat lastNegoStat = true →
      (s.down = false ∧ ∃ t, s.lastUp = some (t, true) ∧ s.now < t + 2 ^ 32) ∨
        100#32 ≤ s.driver.localTime - s.driver.phyNegoLinkTime
  | _ => True

/-- What only `ETH_PHYLink` and the timer write. -/
def markVars (s : Negotiation.State) : BitVec 32 × BitVec 32 × BitVec 8 × BitVec 32 :=
  (s.localTime, s.chipId, s.phyNegoStat, s.phyNegoLinkTime)

theorem markVars_partner (s : Negotiation.State) (r : Regs) :
    markVars (linkProcessPartner s r) = markVars s := by
  have hd : markVars (endDetect s) = markVars s := by
    simp only [endDetect]
    split <;> rfl
  simp only [linkProcessPartner]
  split
  · rfl
  · rw [← hd]
    change markVars (polarity (endDetect s) r) = _
    simp only [polarity, awaitSuccess]
    repeat' split
    all_goals rfl

theorem markVars_silent (s : Negotiation.State) (r : Regs) :
    markVars (linkProcessSilent s r) = markVars s := by
  simp only [linkProcessSilent, nextDetect, countTo]
  repeat' split
  all_goals rfl

theorem markVars_linkTask (s : Negotiation.State) (r : Regs) :
    markVars (linkTask s r) = markVars s := by
  have hu : markVars (updateLinkTaskPeriod s) = markVars s := by
    simp only [updateLinkTaskPeriod]
    split <;> simp only [markVars]
  simp only [linkTask, wchnetLinkProcess]
  split
  · rw [← hu]
    split
    · rw [markVars_partner]
      rfl
    · rw [markVars_silent]
      rfl
  · rfl

theorem markVars_handle (s : Negotiation.State) (r : Regs) :
    markVars (wchnetHandlePhyNegotiation s r) = markVars s := by
  simp only [wchnetHandlePhyNegotiation]
  split
  · split <;> rfl
  · split
    · change markVars (linkTask (accelerateLinkProcess s r) r) = _
      rw [markVars_linkTask]
      simp only [accelerateLinkProcess]
      split <;> rfl
    · have hr : markVars (reInitCheck s r) = markVars s := by
        simp only [reInitCheck]
        repeat' split
        all_goals rfl
      rw [← hr]
      obtain ⟨succ, mdix, he | ⟨-, he⟩⟩ := polarityCheck_cases (reInitCheck s r) r
      · rw [he]
        rfl
      · rw [he]
        rfl

/-- The mark that a parallel detection leaves: it is its time, or 0 once a link-down has
turned the polarity. While it is the latest link-up, no link-down is behind it, or one has
turned the polarity, or came too late to do so. -/
structure Marked (s : State) : Prop where
  time : s.driver.localTime = reading 32 s.now
  flag : test s.driver.phyNegoStat lastNegoStat = true →
    s.driver.chipId &&& 0xf0#32 = 0x20#32 ∧ ∃ t, s.lastParallel = some t ∧ t ≤ s.now ∧
      s.driver.phyNegoLinkTime = if s.turned then 0 else reading 32 t
  last : ∀ t, s.lastUp = some (t, true) → s.lastParallel = some t
  first : ∀ t, s.lastUp = some (t, true) → s.down = false → s.turned = false
  late : ∀ t, s.lastUp = some (t, true) → s.down = true →
    test s.driver.phyNegoStat lastNegoStat = true → s.turned = true ∨ t + 100 ≤ s.now

theorem test_turn (x : BitVec 8) :
    test (x ^^^ turnPnPolarity) turnPnPolarity = !test x turnPnPolarity ∧
      test (x ^^^ turnPnPolarity) lastNegoStat = test x lastNegoStat := by
  revert x
  decide

/-- When a link-down turns the polarity. -/
def Turning (s : Negotiation.State) : Prop :=
  s.chipId &&& 0xf0#32 = 0x20#32 ∧ test s.phyNegoStat lastNegoStat = true ∧
    s.localTime - s.phyNegoLinkTime < 100

theorem linkDown_turning {s : Negotiation.State} (h : Turning s) :
    linkDown s = { holdOff s with
      phyNegoLinkTime := 0
      phyNegoStat := s.phyNegoStat ^^^ turnPnPolarity } := if_pos h

theorem linkDown_keep {s : Negotiation.State} (h : ¬ Turning s) : linkDown s = holdOff s :=
  if_neg h

theorem phyLink_down {r : LinkRegs} (h : linked r = false) (s : Negotiation.State) :
    ethPhyLink s r = linkDown s := by
  rw [linked] at h
  rw [ethPhyLink, if_neg (by rw [h]; exact Bool.false_ne_true)]

theorem turns_iff {r : LinkRegs} (h : linked r = false) (s : Negotiation.State) :
    turns s r = true ↔ Turning s := by
  rw [turns, phyLink_down h]
  by_cases ht : Turning s
  · refine iff_of_true ?_ ht
    rw [linkDown_turning ht, (test_turn s.phyNegoStat).1]
    cases test s.phyNegoStat turnPnPolarity <;> rfl
  · refine iff_of_false ?_ ht
    rw [linkDown_keep ht]
    simp [holdOff]

/-- The clock shows less than 100 past the mark exactly if the time since the mark is less
than 100 ms modulo the period. -/
theorem Marked.turning_iff {s : State} (h : Marked s) {t : ℕ} (ht : s.lastParallel = some t)
    (hl : test s.driver.phyNegoStat lastNegoStat = true) :
    Turning s.driver ↔ (if s.turned then s.now else s.now - t) % 2 ^ 32 < 100 := by
  obtain ⟨hchip, u, hu, hle, hmark⟩ := h.flag hl
  obtain rfl : u = t := Option.some.inj (hu.symm.trans ht)
  have hlt : s.driver.localTime - s.driver.phyNegoLinkTime < 100 ↔
      (if s.turned then s.now else s.now - u) % 2 ^ 32 < 100 := by
    rw [h.time, hmark, BitVec.lt_def]
    cases s.turned with
    | true =>
      rw [if_pos rfl, if_pos rfl, BitVec.ofNat_eq_ofNat, BitVec.sub_zero, toNat_reading]
      rfl
    | false =>
      rw [if_neg Bool.false_ne_true, if_neg Bool.false_ne_true,
        toNat_reading_sub (Int.ofNat_le.mpr hle), ← Int.ofNat_sub hle, Int.toNat_natCast]
      rfl
  exact ⟨fun h => hlt.mp h.2.2, fun h => ⟨hchip, hl, hlt.mpr h⟩⟩

/-- What the stamp shows less than 100 past is what turns the polarity. -/
theorem Marked.turning {s : State} (h : Marked s)
    (hl : test s.driver.phyNegoStat lastNegoStat = true) :
    Turning s.driver ↔ ¬100#32 ≤ s.driver.localTime - s.driver.phyNegoLinkTime := by
  rw [BitVec.not_le]
  exact ⟨fun ht => ht.2.2, fun hlt => ⟨(h.flag hl).1, hl, hlt⟩⟩

theorem Marked.justified_iff {s : State} (h : Marked s) (a : Act) :
    Justified s a ↔ Timely s a := by
  cases a with
  | tick | handle | mdix => exact Iff.rfl
  | phyLink r =>
    apply forall_congr'
    intro hd
    rw [turns_iff hd]
    constructor
    · intro hj hl
      by_cases hclock : 100#32 ≤ s.driver.localTime - s.driver.phyNegoLinkTime
      · exact .inr hclock
      · -- the polarity turns, for the first time and in time, so no link-down came before
        obtain ⟨t, hup, hnow, hturned⟩ := hj ((h.turning hl).mpr hclock)
        refine .inl ⟨?_, t, hup, by omega⟩
        rw [← Bool.not_eq_true]
        intro hdown
        obtain hyes | hlate := h.late t hup hdown hl
        · rw [hturned] at hyes
          cases hyes
        · omega
    · intro hc hturn
      obtain ⟨hfirst, t, hup, hperiod⟩ | hclock := hc hturn.2.1
      · have hturned := h.first t hup hfirst
        have hlt := (h.turning_iff (h.last t hup) hturn.2.1).mp hturn
        rw [hturned, if_neg Bool.false_ne_true, Nat.mod_eq_of_lt (by omega)] at hlt
        exact ⟨t, hup, by omega, hturned⟩
      · exact absurd hclock ((h.turning hturn.2.1).mp hturn)

theorem phyLink_parallel {r : LinkRegs} (h : parallel r = true) (s : Negotiation.State) :
    ethPhyLink s r = parallelDetection s := by
  simp only [parallel, linked, Bool.and_eq_true, decide_eq_true_eq] at h
  obtain ⟨⟨⟨hl, ha⟩, hz⟩, hc⟩ := h
  rw [ethPhyLink, if_pos hl, if_pos ha, if_pos hz, if_pos hc]

/-- Any other link-up leaves the mark alone or clears the flag. -/
theorem phyLink_other {r : LinkRegs} (hl : linked r = true) (hp : parallel r = false)
    (s : Negotiation.State) :
    (ethPhyLink s r).localTime = s.localTime ∧
      (markVars (ethPhyLink s r) = markVars s ∨ (ethPhyLink s r).phyNegoStat = 0) := by
  have hbit : test r.bsr phyLinkedStatus = true := hl
  rw [ethPhyLink, if_pos hbit]
  split
  · rename_i ha
    split
    · rename_i hz
      have hc : ¬ test r.bsr phyAutoNegoComplete = true := fun hc => by
        rw [parallel, hl, ha, decide_eq_true hz, hc] at hp
        exact Bool.false_ne_true hp.symm
      rw [if_neg hc]
      exact ⟨rfl, .inl rfl⟩
    · simp only [negotiated]
      split
      · exact ⟨rfl, .inr rfl⟩
      · exact ⟨rfl, .inr rfl⟩
  · exact ⟨rfl, .inl rfl⟩

theorem selectPolarity_mark (s : Negotiation.State) :
    (selectPolarity s).localTime = s.localTime ∧ (selectPolarity s).chipId = s.chipId ∧
      (selectPolarity s).phyNegoLinkTime = s.localTime := by
  simp only [selectPolarity]
  split
  · exact ⟨rfl, rfl, rfl⟩
  · exact ⟨rfl, rfl, rfl⟩

theorem parallelDetection_mark (s : Negotiation.State) :
    (parallelDetection s).localTime = s.localTime ∧
      (s.chipId &&& 0xf0#32 = 0x20#32 ∧ (parallelDetection s).chipId = s.chipId ∧
          (parallelDetection s).phyNegoLinkTime = s.localTime ∨
        s.chipId &&& 0xf0#32 ≠ 0x20#32 ∧ (parallelDetection s).phyNegoStat = s.phyNegoStat) := by
  obtain ⟨htime, hid, hmark⟩ := selectPolarity_mark
    (ethLinkUpCfg { s with mac := s.mac.setMaccr ethModeFullDuplex false })
  simp only [parallelDetection]
  split
  · rename_i hchip
    exact ⟨htime, .inl ⟨hchip, hid, hmark⟩⟩
  · rename_i hchip
    exact ⟨rfl, .inr ⟨hchip, rfl⟩⟩

theorem Marked.congr {s t : State} (h : Marked s) (hv : markVars t.driver = markVars s.driver)
    (hnow : t.now = s.now) (hpar : t.lastParallel = s.lastParallel) (hturned : t.turned = s.turned)
    (hlast : ∀ u, t.lastUp = some (u, true) → s.lastUp = some (u, true) ∧ t.down = s.down) :
    Marked t := by
  simp only [markVars, Prod.mk.injEq] at hv
  obtain ⟨htime, hchip, hstat, hmark⟩ := hv
  refine ⟨?_, ?_, ?_, ?_, ?_⟩
  · rw [htime, hnow]
    exact h.time
  · rw [hstat, hchip, hpar, hnow, hmark, hturned]
    exact h.flag
  · intro u hu
    rw [hpar]
    exact h.last u (hlast u hu).1
  · intro u hu hdown
    obtain ⟨hu', hd⟩ := hlast u hu
    rw [hturned]
    exact h.first u hu' (hd ▸ hdown)
  · intro u hu hdown
    obtain ⟨hu', hd⟩ := hlast u hu
    rw [hturned, hstat, hnow]
    exact h.late u hu' (hd ▸ hdown)

theorem Marked.parallel {s : State} (h : Marked s) {r : LinkRegs} (hp : parallel r = true) :
    Marked (step s (.phyLink r)) := by
  have hl : linked r = true := by
    simp only [PolarityTurn.parallel, Bool.and_eq_true] at hp
    exact hp.1.1.1
  simp only [step, hl, hp, if_true, Negotiation.step, phyLink_parallel hp]
  have hlast : ∀ t, some (s.now, true) = some (t, true) → some s.now = some t := by
    rintro t ⟨⟩
    rfl
  have hdown : ∀ t, some (s.now, true) = some (t, true) → false = true →
      test (parallelDetection s.driver).phyNegoStat lastNegoStat = true →
      false = true ∨ t + 100 ≤ s.now := fun _ _ hd => absurd hd Bool.false_ne_true
  obtain ⟨htime, ⟨hchip, hid, hmark⟩ | ⟨hchip, hstat⟩⟩ := parallelDetection_mark s.driver
  · refine ⟨htime.trans h.time, fun _ => ⟨?_, s.now, rfl, Nat.le_refl _, hmark.trans h.time⟩,
      hlast, fun _ _ _ => rfl, hdown⟩
    rw [hid]
    exact hchip
  · refine ⟨htime.trans h.time, fun hf => ?_, hlast, fun _ _ _ => rfl, hdown⟩
    rw [hstat] at hf
    exact absurd (h.flag hf).1 hchip

theorem Marked.other {s : State} (h : Marked s) {r : LinkRegs} (hl : linked r = true)
    (hp : PolarityTurn.parallel r = false) : Marked (step s (.phyLink r)) := by
  obtain ⟨htime, hv | hzero⟩ := phyLink_other hl hp s.driver
  · apply h.congr
    · simpa only [step, hl, if_true, Negotiation.step] using hv
    · simp only [step, hl, if_true]
    · simp [step, hl, hp]
    · simp [step, hl, hp]
    · intro u hu
      simp [step, hl, hp] at hu
  · simp only [step, hl, hp, if_true]
    refine ⟨htime.trans h.time, fun hf => ?_, fun t ht => ?_, fun t ht => ?_, fun t ht => ?_⟩
    · rw [Negotiation.step, hzero] at hf
      exact absurd hf (by decide)
    · simp at ht
    · simp at ht
    · simp at ht

theorem Marked.down {s : State} (h : Marked s) {r : LinkRegs} (hd : linked r = false) :
    Marked (step s (.phyLink r)) := by
  have hiff := turns_iff hd s.driver
  simp only [step, hd, Bool.false_eq_true, if_false, Negotiation.step, phyLink_down hd]
  by_cases ht : Turning s.driver
  · rw [hiff.mpr ht, linkDown_turning ht, Bool.or_true]
    refine ⟨h.time, fun hf => ?_, h.last, fun _ _ hno => absurd hno Bool.true_eq_false.mp,
      fun _ _ _ _ => .inl rfl⟩
    obtain ⟨hchip, t, hpar, hle, -⟩ := h.flag ht.2.1
    exact ⟨hchip, t, hpar, hle, rfl⟩
  · have hno : turns s.driver r = false := by
      rw [← Bool.not_eq_true, hiff]
      exact ht
    rw [hno, linkDown_keep ht, Bool.or_false]
    refine ⟨h.time, h.flag, h.last, fun _ _ hno => absurd hno Bool.true_eq_false.mp, ?_⟩
    intro t hup _ hl
    have hfar := mt (h.turning_iff (h.last t hup) hl).mpr ht
    cases hturned : s.turned with
    | true => exact .inl rfl
    | false =>
      rw [hturned, if_neg Bool.false_ne_true] at hfar
      exact .inr (by dsimp only; omega)

theorem Marked.step {s : State} (h : Marked s) (a : Act) : Marked (step s a) := by
  cases a with
  | tick timperiod =>
    refine ⟨?_, fun hf => ?_, h.last, h.first, fun t hup hdown hl => ?_⟩
    · change s.driver.localTime + timperiod.setWidth 32 = reading 32 ↑(s.now + timperiod.toNat)
      rw [h.time, reading_add, Nat.cast_add]
    · obtain ⟨hchip, t, hpar, hle, hmark⟩ := h.flag hf
      exact ⟨hchip, t, hpar, Nat.le_add_right_of_le hle, hmark⟩
    · exact (h.late t hup hdown hl).imp_right (Nat.le_add_right_of_le ·)
  | handle r => exact h.congr (markVars_handle s.driver r) rfl rfl rfl fun _ hu => ⟨hu, rfl⟩
  | mdix v => exact h.congr rfl rfl rfl rfl fun _ hu => ⟨hu, rfl⟩
  | phyLink r =>
    cases hl : linked r with
    | false => exact h.down hl
    | true =>
      cases hp : PolarityTurn.parallel r with
      | true => exact h.parallel hp
      | false => exact h.other hl hp

/-- In a run every turn of the polarity is justified exactly if every link-down is
timely. -/
theorem polarity_turn_justified (now : ℕ) (chipId extenCtr : BitVec 32)
    (mac3 mac4 mac5 : BitVec 8) (acts : List Act) :
    Meets step Justified (init now chipId extenCtr mac3 mac4 mac5) acts ↔
      Meets step Timely (init now chipId extenCtr mac3 mac4 mac5) acts := by
  have h0 : Marked (init now chipId extenCtr mac3 mac4 mac5) :=
    ⟨rfl, fun hf => absurd hf (by simp [init, Negotiation.init]),
      fun t ht => absurd ht (by simp [init]), fun _ _ _ => rfl,
      fun t ht => absurd ht (by simp [init])⟩
  exact meets_congr (fun _ a h => h.step a) (fun _ a h => h.justified_iff a) h0 acts

/-- Shortly after power-up a link comes up by parallel detection, and two link-downs
follow: the second one takes the 0 that marks the first for a time. -/
def turnedTwice : List Act :=
  [.tick 10, .phyLink ⟨0x0024, 0x1000, 0, 0⟩, .tick 10, .phyLink ⟨0, 0x1000, 0, 0⟩, .tick 10,
    .phyLink ⟨0, 0x1000, 0, 0⟩]

theorem polarity_turned_twice :
    ¬ Meets step Justified (init 0 0x20 0 0 0 0) turnedTwice := by
  rintro ⟨-, -, -, -, -, hlast, -⟩
  obtain ⟨t, -, -, hturned⟩ := hlast (by decide +kernel) (by decide +kernel)
  exact absurd hturned (by decide +kernel)

end EthDriver.PolarityTurn

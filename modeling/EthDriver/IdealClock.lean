import EthDriver.Clocks
import EthDriver.RmiiInvariant

namespace EthDriver.IdealClock

open MacRegs Runs Clocks RmiiLink RmiiInvariant

/-- The netif task with time kept as an integer. The two clock variables of `driver`
are not used. `lastCall` is the time of the previous call's first read of the clock, or
of `ETH_Init`; no step reads it. -/
structure Ideal where
  now : ℤ
  lastPoll : ℤ
  lastCall : ℤ
  driver : State

namespace Ideal

def init (now : ℤ) : Ideal :=
  { now := now
    lastPoll := now - 50
    lastCall := now
    driver := RmiiLink.init 0 }

def goto (i : Ideal) (pc : Pc) : Ideal := { i with driver := i.driver.goto pc }

/-- The two reads of the clock use integers; every other step is the driver's own. -/
def step (useDhcp : Bool) (i : Ideal) : Act → Ideal
  | .tick timperiod => { i with now := i.now + timperiod.toNat }
  | .cpu v bound =>
    match i.driver.pc with
    | .throttle =>
      { i.goto (if i.now - i.lastPoll < 50 then .observe false else .stamp) with lastCall := i.now }
    | .stamp => { i.goto .bsrLatched with lastPoll := i.now }
    | _ => { i with driver := cpuStep useDhcp i.driver v bound }

end Ideal

/-- A call reads the clock less than `2 ^ 31` ms after the previous one, or after
`ETH_Init`. -/
def Prompt (i : Ideal) : Act → Prop
  | .tick _ => True
  | .cpu _ _ => i.driver.pc = .throttle → i.now - i.lastCall < 2 ^ 31

instance (i : Ideal) : ∀ a, Decidable (Prompt i a)
  | .tick _ => inferInstanceAs (Decidable True)
  | .cpu _ _ => inferInstanceAs (Decidable (_ → _))

/-- Each call reports whether it polls. -/
def polled (useDhcp : Bool) (s : State) (a : Act) : Option Bool :=
  match a, s.pc with
  | .cpu _ _, .throttle => some (decide ((RmiiLink.step useDhcp s a).pc = .stamp))
  | _, _ => none

def Ideal.polled (useDhcp : Bool) (i : Ideal) (a : Act) : Option Bool :=
  match a, i.driver.pc with
  | .cpu _ _, .throttle => some (decide ((i.step useDhcp a).driver.pc = .stamp))
  | _, _ => none

/-- Each poll reports the time it records. -/
def Ideal.pollTime (i : Ideal) (a : Act) : Option ℤ :=
  match a, i.driver.pc with
  | .cpu _ _, .stamp => some i.now
  | _, _ => none

/-- The driver's state, with its wrapping clock, where the ideal machine is in `i`. -/
def wrapped (i : Ideal) : State :=
  { i.driver with localTime := reading 32 i.now, linkPollTime := reading 32 i.lastPoll }

/-- The last poll and the last call are past; no call but the one about to record a poll
was more than 50 ms after the last poll; that one was. -/
structure Bounded (i : Ideal) : Prop where
  poll : i.lastPoll ≤ i.now
  past : i.lastCall ≤ i.now
  call : i.driver.pc ≠ .stamp → i.lastCall ≤ i.lastPoll + 50
  spaced : i.driver.pc = .stamp → i.lastPoll + 50 ≤ i.now

theorem cpuStep_setClock (useDhcp : Bool) (s : State) (localTime linkPollTime : BitVec 32)
    (v : BitVec 16) (bound : Bool) (ht : s.pc ≠ .throttle) (hs : s.pc ≠ .stamp) :
    cpuStep useDhcp { s with localTime := localTime, linkPollTime := linkPollTime } v bound =
      { cpuStep useDhcp s v bound with
        localTime := localTime
        linkPollTime := linkPollTime } := by
  cases hpc : s.pc with
  | throttle => exact absurd hpc ht
  | stamp => exact absurd hpc hs
  | input | bsrLatched | pscr =>
    simp only [cpuStep, hpc]
    rfl
  | bsr =>
    simp only [cpuStep, hpc, State.log]
    cases Bits.test v phyLinkedStatus with
    | true => cases s.phyLinkState <;> rfl
    | false => cases s.phyLinkState <;> rfl
  | observe =>
    simp only [cpuStep, hpc, foldl_exec]
    rfl

/-- While the driver has not polled for less than `2 ^ 32` ms, the wrapping difference is
the elapsed time. -/
theorem elapsed_lt_iff {i : Ideal} (hpoll : i.lastPoll ≤ i.now)
    (hlt : i.now - i.lastPoll < 2 ^ 32) :
    reading 32 i.now - reading 32 i.lastPoll < phyLinkTaskPeriod ↔ i.now - i.lastPoll < 50 := by
  have hd := toNat_reading_sub (w := 32) hpoll
  rw [BitVec.lt_def, hd, Nat.mod_eq_of_lt (by omega)]
  change _ < 50 ↔ _
  omega

theorem wrapped_throttle {useDhcp : Bool} {i : Ideal} (h : Bounded i) {v : BitVec 16}
    {bound : Bool} (hpc : i.driver.pc = .throttle) (hp : i.now - i.lastCall < 2 ^ 31) :
    RmiiLink.step useDhcp (wrapped i) (.cpu v bound) =
      wrapped (i.step useDhcp (.cpu v bound)) := by
  have hcall := h.call (by rw [hpc]; decide)
  have hiff := elapsed_lt_iff h.poll (by omega)
  have hpc' : (wrapped i).pc = .throttle := hpc
  simp only [RmiiLink.step, cpuStep, hpc', Ideal.step, hpc]
  simp only [wrapped, Ideal.goto, State.goto, hiff]

theorem wrapped_step {useDhcp : Bool} (i : Ideal) (a : Act) (h : Bounded i) (hp : Prompt i a) :
    RmiiLink.step useDhcp (wrapped i) a = wrapped (i.step useDhcp a) := by
  cases a with
  | tick timperiod =>
    simp only [RmiiLink.step, Ideal.step, wrapped, reading_add]
  | cpu v bound =>
    by_cases ht : i.driver.pc = .throttle
    · exact wrapped_throttle h ht (hp ht)
    · by_cases hs : i.driver.pc = .stamp
      · have hs' : (wrapped i).pc = .stamp := hs
        simp only [RmiiLink.step, cpuStep, hs', Ideal.step, hs]
        rfl
      · have he : i.step useDhcp (.cpu v bound) =
            { i with driver := cpuStep useDhcp i.driver v bound } := by
          simp only [Ideal.step]
        rw [he, RmiiLink.step, wrapped, cpuStep_setClock useDhcp i.driver _ _ v bound ht hs]
        rfl

theorem cpuStep_ne_stamp (useDhcp : Bool) (s : State) (v : BitVec 16) (bound : Bool)
    (ht : s.pc ≠ .throttle) : (cpuStep useDhcp s v bound).pc ≠ .stamp := by
  cases hpc : s.pc with
  | throttle => exact absurd hpc ht
  | input | bsrLatched | stamp | pscr | observe => simp [cpuStep, hpc, State.goto]
  | bsr =>
    simp only [cpuStep, hpc, State.log]
    cases Bits.test v phyLinkedStatus with
    | true => cases s.phyLinkState <;> simp [State.goto]
    | false => cases s.phyLinkState <;> simp

theorem Bounded.step {i : Ideal} (h : Bounded i) (useDhcp : Bool) (a : Act) :
    Bounded (i.step useDhcp a) := by
  obtain ⟨hpoll, hpast, hcall, hspaced⟩ := h
  cases a with
  | tick timperiod =>
    have hlater : i.now ≤ i.now + timperiod.toNat := by omega
    exact ⟨hpoll.trans hlater, hpast.trans hlater, hcall, fun hs => (hspaced hs).trans hlater⟩
  | cpu v bound =>
    cases hpc : i.driver.pc with
    | throttle =>
      simp only [Ideal.step, hpc, Ideal.goto, State.goto]
      refine ⟨hpoll, le_refl _, ?_, ?_⟩
      · split
        · intro _
          change i.now ≤ i.lastPoll + 50
          omega
        · exact fun hne => absurd rfl hne
      · split
        · exact fun he => by cases he
        · intro _
          change i.lastPoll + 50 ≤ i.now
          omega
    | stamp =>
      simp only [Ideal.step, hpc, Ideal.goto, State.goto]
      refine ⟨le_refl _, hpast, fun _ => ?_, fun he => by cases he⟩
      change i.lastCall ≤ i.now + 50
      omega
    | input | bsrLatched | bsr | pscr | observe =>
      have hne := cpuStep_ne_stamp useDhcp i.driver v bound (by rw [hpc]; simp)
      simp only [Ideal.step, hpc]
      exact ⟨hpoll, hpast, fun _ => hcall (by rw [hpc]; simp), fun he => absurd he hne⟩

/-- The recorded poll times are at least 50 ms apart. -/
theorem pollTimes_pairwise (useDhcp : Bool) {i : Ideal} (h : Bounded i) (acts : List Act) :
    (i.lastPoll :: outputs (Ideal.step useDhcp) Ideal.pollTime i acts).Pairwise
      (fun t u => t + 50 ≤ u) := by
  induction acts generalizing i with
  | nil => exact List.pairwise_singleton _ _
  | cons a acts ih =>
    have hnext := ih (h.step useDhcp a)
    rw [outputs]
    cases a with
    | tick timperiod => exact hnext
    | cpu v bound =>
      cases hpc : i.driver.pc with
      | stamp =>
        have hlast : (i.step useDhcp (.cpu v bound)).lastPoll = i.now := by
          simp only [Ideal.step, hpc]
        rw [hlast] at hnext
        have hout : i.pollTime (.cpu v bound) = some i.now := by
          simp only [Ideal.pollTime, hpc]
        have hspaced := h.spaced hpc
        rw [hout]
        refine List.pairwise_cons.mpr ⟨fun u hu => ?_, hnext⟩
        obtain rfl | hu := List.mem_cons.mp hu
        · exact hspaced
        · have hlater := (List.pairwise_cons.mp hnext).1 u hu
          omega
      | throttle | input | bsrLatched | bsr | pscr | observe =>
        have hlast : (i.step useDhcp (.cpu v bound)).lastPoll = i.lastPoll := by
          simp only [Ideal.step, hpc, Ideal.goto]
        have hout : i.pollTime (.cpu v bound) = none := by
          simp only [Ideal.pollTime, hpc]
        rw [hlast] at hnext
        rw [hout]
        exact hnext

/-- The first call polls if the last poll is 50 ms past. -/
theorem first_polls (useDhcp : Bool) {i : Ideal}
    (hpc : i.driver.pc = .input ∨ i.driver.pc = .throttle) (h : i.lastPoll + 50 ≤ i.now)
    (acts : List Act) :
    ∀ b ∈ (outputs (Ideal.step useDhcp) (Ideal.polled useDhcp) i acts).head?, b = true := by
  induction acts generalizing i with
  | nil => simp [outputs]
  | cons a acts ih =>
    rw [outputs]
    cases a with
    | tick timperiod =>
      apply ih
      · exact hpc
      · change i.lastPoll + 50 ≤ i.now + timperiod.toNat
        omega
    | cpu v bound =>
      obtain hpc | hpc := hpc
      · have hout : i.polled useDhcp (.cpu v bound) = none := by
          simp only [Ideal.polled, hpc]
        rw [hout]
        apply ih
        · simp [Ideal.step, hpc, cpuStep, State.goto]
        · simpa only [Ideal.step, hpc] using h
      · have hlate : ¬ i.now - i.lastPoll < 50 := by omega
        have hout : i.polled useDhcp (.cpu v bound) = some true := by
          simp [Ideal.polled, hpc, Ideal.step, Ideal.goto, State.goto, hlate]
        rw [hout]
        simp

theorem polled_wrapped (useDhcp : Bool) (i : Ideal) (a : Act) (h : Bounded i) (hp : Prompt i a) :
    polled useDhcp (wrapped i) a = i.polled useDhcp a := by
  have hpc : (wrapped i).pc = i.driver.pc := rfl
  simp only [polled, Ideal.polled, hpc, wrapped_step i a h hp]
  rfl

theorem init_bounded (now : ℤ) : Bounded (Ideal.init now) := by
  refine ⟨?_, le_refl _, fun _ => ?_, fun he => by cases he⟩
  · change now - 50 ≤ now
    omega
  · change now ≤ now - 50 + 50
    omega

theorem init_wrapped (now : ℤ) : RmiiLink.init (reading 32 now) = wrapped (Ideal.init now) := by
  have h : reading 32 now - phyLinkTaskPeriod = reading 32 (now - 50) := reading_sub now 50
  rw [RmiiLink.init, h]
  rfl

/-- In every run whose calls are less than `2 ^ 31` ms apart the driver polls on the same
calls as the machine with the integer clock and does the same; the first call polls, and
the polls are at least 50 ms apart. -/
theorem wrapping_clock_refines (useDhcp : Bool) (now : ℤ) (acts : List Act)
    (hp : Meets (Ideal.step useDhcp) Prompt (Ideal.init now) acts) :
    let s := run (RmiiLink.step useDhcp) (RmiiLink.init (reading 32 now)) acts
    let i := run (Ideal.step useDhcp) (Ideal.init now) acts
    let calls := outputs (RmiiLink.step useDhcp) (polled useDhcp)
      (RmiiLink.init (reading 32 now)) acts
    (calls = outputs (Ideal.step useDhcp) (Ideal.polled useDhcp) (Ideal.init now) acts ∧
      s.pc = i.driver.pc ∧ s.trace = i.driver.trace ∧ s.linkSta = i.driver.linkSta ∧
      s.phyLinkState = i.driver.phyLinkState ∧ s.mac = i.driver.mac ∧ s.task = i.driver.task) ∧
    (∀ b ∈ calls.head?, b = true) ∧
    (outputs (Ideal.step useDhcp) Ideal.pollTime (Ideal.init now) acts).Pairwise
      (fun t u => t + 50 ≤ u) := by
  intro s i calls
  have hb := init_bounded now
  have hrun : s = wrapped i := by
    rw [← run_refines (fun _ a h _ => h.step useDhcp a) wrapped_step hb hp, ← init_wrapped]
  have hcalls : calls =
      outputs (Ideal.step useDhcp) (Ideal.polled useDhcp) (Ideal.init now) acts := by
    rw [← outputs_refines (fun _ a h _ => h.step useDhcp a) wrapped_step (polled_wrapped useDhcp) hb
      hp, ← init_wrapped]
  refine ⟨⟨hcalls, ?_⟩, ?_, (List.pairwise_cons.mp (pollTimes_pairwise useDhcp hb acts)).2⟩
  · rw [hrun]
    exact ⟨rfl, rfl, rfl, rfl, rfl, rfl⟩
  · rw [hcalls]
    apply first_polls
    · exact .inl rfl
    · change now - 50 + 50 ≤ now
      omega

/-- The 32-bit clock wraps between the two reads of the first call. -/
def acrossWrap : List Act :=
  [.cpu 0 false, .cpu 0 false, .tick 20, .cpu 0 false, .cpu 0 false, .cpu 0 false, .cpu 0 false,
    .cpu 0 false, .cpu 0 false]

theorem wrapping_clock_refines_wrap :
    Meets (Ideal.step false) Prompt (Ideal.init 4294967290) acrossWrap ∧
    outputs (RmiiLink.step false) (polled false) (RmiiLink.init (reading 32 4294967290))
        acrossWrap =
      outputs (Ideal.step false) (Ideal.polled false) (Ideal.init 4294967290) acrossWrap := by
  have hp : Meets (Ideal.step false) Prompt (Ideal.init 4294967290) acrossWrap := by
    decide +kernel
  exact ⟨hp, (wrapping_clock_refines false 4294967290 acrossWrap hp).1.1⟩

end EthDriver.IdealClock

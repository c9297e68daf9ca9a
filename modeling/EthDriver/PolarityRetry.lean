import EthDriver.LiveLink

namespace EthDriver.PolarityRetry

open Bits MacRegs Runs Negotiation NegotiationInvariant LiveLink

/-- The call reaches `WCHNET_LinkProcess`. -/
def invokes (s : State) : Act → Bool
  | .handle r => !s.phyLinkReset && decide (s.phyStatus = 0) &&
      decide ((accelerateLinkProcess s r).linkTaskPeriod.setWidth 32 ≤ s.localTime - s.phyLinkTime)
  | _ => false

/-- The partner's selector field is set, and the negotiation is not complete. -/
def answered : Act → Bool
  | .handle r => test r.anlpar phyAnlparSelectorField && !test r.bmsr (1#16 <<< 5)
  | _ => false

/-- `PHY_LINK_RESET` runs: it writes `PHY_Reset` to `BCR`. -/
def Resets (s : State) (a : Act) : Prop :=
  (step s a).bcrWrites = s.bcrWrites ++ [phyReset]

instance (s : State) (a : Act) : Decidable (Resets s a) := inferInstanceAs (Decidable (_ = _))

/-- Nothing is reset, and an invocation of `WCHNET_LinkProcess` sees an answer. -/
def Calm (s : State) (a : Act) : Prop :=
  ¬ Resets s a ∧ (invokes s a = true → answered a = true)

instance (s : State) (a : Act) : Decidable (Calm s a) := inferInstanceAs (Decidable (_ ∧ _))

def Switches (s : State) (a : Act) : Prop :=
  s.phyPN = phyPnSwitchP ∧ (step s a).phyPN = phyPnSwitchN ∨
    s.phyPN = phyPnSwitchN ∧ (step s a).phyPN = phyPnSwitchP

instance (s : State) (a : Act) : Decidable (Switches s a) := inferInstanceAs (Decidable (_ ∨ _))

/-- While the driver waits for success, any six answered invocations in a row include
one that switches the polarity. -/
def Retried (s : State) : Prop :=
  s.phyLinkStatus = phyLinkWaitSuc → ∀ more, Meets step Calm s more →
    stepCount step invokes s more = 6 → Somewhere step Switches s more

/-- The invocation that finds the count at five does not see the negotiation complete. -/
def Unconfirmed (s : State) : Act → Prop
  | .handle r => invokes s (.handle r) = true → test r.anlpar phyAnlparSelectorField = true →
      s.phyLinkStatus = phyLinkWaitSuc → s.phySucCnt = 5 → test r.bmsr (1#16 <<< 5) = false
  | _ => True

structure Waiting (s : State) : Prop where
  status : s.phyLinkStatus = phyLinkWaitSuc
  detect : s.trDetectStep = 2
  pn : s.phyPN = phyPnSwitchP ∨ s.phyPN = phyPnSwitchN

theorem waiting_of_phase {s : State} (h : Phase s) (hs : s.phyLinkStatus = phyLinkWaitSuc) :
    Waiting s := by
  cases h with
  | search pn status step cnt suc | first pn status step cnt suc | second pn status step cnt suc =>
    exact absurd (status.symm.trans hs) (by decide)
  | waiting pn status step cnt => exact ⟨status, step, pn⟩

theorem Waiting.congr {s t : State} (h : Waiting s) (he : negoVars t = negoVars s) :
    Waiting t := by
  simp only [negoVars, Prod.mk.injEq] at he
  obtain ⟨hpn, hst, hdet, -⟩ := he
  exact ⟨hst.trans h.status, hdet.trans h.detect, by rw [hpn]; exact h.pn⟩

/-- The negotiation does not run: the hold-off or a link is on. -/
def Idle (s : State) : Prop := s.phyLinkReset = true ∨ s.phyStatus ≠ 0

instance (s : State) : Decidable (Idle s) := inferInstanceAs (Decidable (_ ∨ _))

theorem Idle.not_invokes {s : State} (h : Idle s) (a : Act) : invokes s a = false := by
  cases a with
  | handle r =>
    obtain h | h := h
    · rw [invokes, h]
      rfl
    · rw [invokes, decide_eq_false h, Bool.and_false]
      rfl
  | tick | phyLink | mdix => rfl

theorem accelerate_eq (s : State) (r : Regs) :
    ∃ period, accelerateLinkProcess s r = { s with linkTaskPeriod := period } := by
  simp only [accelerateLinkProcess]
  split
  · exact ⟨0, rfl⟩
  · exact ⟨s.linkTaskPeriod, rfl⟩

theorem updateLinkTaskPeriod_eq (s : State) :
    ∃ period rand, updateLinkTaskPeriod s =
      { s with linkTaskPeriod := period, randVal := rand } := by
  simp only [updateLinkTaskPeriod]
  split
  · exact ⟨_, _, rfl⟩
  · exact ⟨50, s.randVal, rfl⟩

/-- What `WCHNET_HandlePhyNegotiation` has done when it reaches `WCHNET_LinkProcess`. -/
theorem handle_invokes {s : State} {r : Regs} (hi : invokes s (.handle r) = true) :
    ∃ period rand, wchnetHandlePhyNegotiation s r =
      { wchnetLinkProcess { s with
          linkTaskPeriod := period
          randVal := rand
          phyLinkTime := s.localTime } r with reInitMacFlag := false } := by
  simp only [invokes, Bool.and_eq_true, Bool.not_eq_true', decide_eq_true_eq] at hi
  obtain ⟨⟨hr, hs⟩, hp⟩ := hi
  obtain ⟨fast, hfast⟩ := accelerate_eq s r
  obtain ⟨period, rand, hupd⟩ := updateLinkTaskPeriod_eq { s with linkTaskPeriod := fast }
  have hneg : ¬ s.phyLinkReset = true := by
    rw [hr]
    exact Bool.false_ne_true
  refine ⟨period, rand, ?_⟩
  rw [hfast] at hp
  rw [wchnetHandlePhyNegotiation, if_neg hneg, if_pos hs, hfast, linkTask, if_pos hp, hupd]

theorem Waiting.partner {s : State} (h : Waiting s) {r : Regs}
    (ha : test r.anlpar phyAnlparSelectorField = true) :
    wchnetLinkProcess s r = { awaitSuccess s r with phyLinkCnt := 0 } := by
  have hne0 : s.trDetectStep ≠ 0 := by
    rw [h.detect]
    decide
  have hne1 : s.trDetectStep ≠ 1 := by
    rw [h.detect]
    decide
  have hbit : test s.phyLinkStatus phyLinkWaitSuc = true := by
    rw [h.status]
    decide
  rw [wchnetLinkProcess, if_pos ha, linkProcessPartner, if_neg hne0, endDetect, if_neg hne1,
    polarity, if_pos hbit]

theorem Waiting.invoked {s : State} (h : Waiting s) {r : Regs}
    (hi : invokes s (.handle r) = true) (ha : test r.anlpar phyAnlparSelectorField = true) :
    ∃ period rand, step s (.handle r) =
      { awaitSuccess { s with
          linkTaskPeriod := period
          randVal := rand
          phyLinkTime := s.localTime } r with phyLinkCnt := 0, reInitMacFlag := false } := by
  obtain ⟨period, rand, he⟩ := handle_invokes hi
  have hw : Waiting { s with
      linkTaskPeriod := period
      randVal := rand
      phyLinkTime := s.localTime } := ⟨h.status, h.detect, h.pn⟩
  refine ⟨period, rand, ?_⟩
  rw [step, he, hw.partner ha]

/-- At five the polarity is switched. -/
theorem Waiting.switches {s : State} (h : Waiting s) {r : Regs}
    (hi : invokes s (.handle r) = true) (ha : answered (.handle r) = true)
    (hc : s.phySucCnt = 5) :
    Switches s (.handle r) := by
  simp only [answered, Bool.and_eq_true, Bool.not_eq_true'] at ha
  obtain ⟨period, rand, he⟩ := h.invoked hi ha.1
  rw [Switches, he, awaitSuccess, if_pos ⟨hc, ha.2⟩]
  obtain hp | hp := h.pn
  · exact .inl ⟨hp, if_neg (by rw [hp]; decide)⟩
  · exact .inr ⟨hp, if_pos hp⟩

/-- Otherwise the invocation is only counted. -/
theorem Waiting.counts {s : State} (h : Waiting s) {r : Regs} (hi : invokes s (.handle r) = true)
    (ha : test r.anlpar phyAnlparSelectorField = true)
    (hc : ¬ (s.phySucCnt = 5 ∧ test r.bmsr (1#16 <<< 5) = false)) :
    ∃ period rand, step s (.handle r) = { s with
      linkTaskPeriod := period
      randVal := rand
      phyLinkTime := s.localTime
      phySucCnt := s.phySucCnt + 1
      phyLinkCnt := 0
      reInitMacFlag := false } := by
  obtain ⟨period, rand, he⟩ := h.invoked hi ha
  refine ⟨period, rand, ?_⟩
  rw [he, awaitSuccess, if_neg hc]

/-- A step that does not reach `WCHNET_LinkProcess` resets, or leaves the variables of
the negotiation alone and does not start it. -/
def Quiet (s : State) (a : Act) : Prop :=
  Resets s a ∧ (step s a).phySucCnt = 0 ∨
    negoVars (step s a) = negoVars s ∧ (Idle s → Idle (step s a))

theorem handle_quiet {s : State} (hj : NoReInit s) {r : Regs}
    (hi : invokes s (.handle r) = false) : Quiet s (.handle r) := by
  simp only [Quiet, step, Resets, wchnetHandlePhyNegotiation]
  cases hr : s.phyLinkReset with
  | true =>
    rw [if_pos rfl]
    split
    · exact .inl ⟨rfl, rfl⟩
    · exact .inr ⟨rfl, id⟩
  | false =>
    rw [if_neg Bool.false_ne_true]
    right
    by_cases hs : s.phyStatus = 0
    · have hidle : ¬ Idle s := by simp [Idle, hr, hs]
      refine ⟨?_, fun h => absurd h hidle⟩
      obtain ⟨fast, hfast⟩ := accelerate_eq s r
      have hnot : ¬ fast.setWidth 32 ≤ s.localTime - s.phyLinkTime := by
        simpa [invokes, hr, hs, hfast] using hi
      rw [if_pos hs, hfast, linkTask, if_neg hnot]
      rfl
    · rw [if_neg hs, reInitCheck_eq hj]
      obtain ⟨succ, mdix, he | ⟨-, he⟩⟩ := polarityCheck_cases s r
      · rw [he]
        exact ⟨rfl, id⟩
      · rw [he]
        exact ⟨rfl, id⟩

theorem phyLink_quiet (s : State) (r : LinkRegs) : Quiet s (.phyLink r) := by
  simp only [Quiet, step, Resets]
  cases phyLink_outcome s r with
  | up hr hn full mdix stat time eq =>
    rw [eq]
    exact .inr ⟨rfl, fun _ => .inr (by decide : phyLinkedStatus.setWidth 8 ≠ (0 : BitVec 8))⟩
  | reset hr hn eq =>
    rw [eq]
    exact .inl ⟨rfl, rfl⟩
  | down hr hn stat time eq =>
    rw [eq]
    exact .inr ⟨rfl, fun _ => .inl rfl⟩

theorem step_quiet {s : State} (hj : NoReInit s) {a : Act} (hi : invokes s a = false) :
    Quiet s a := by
  cases a with
  | tick | mdix => exact .inr ⟨rfl, id⟩
  | handle r => exact handle_quiet hj hi
  | phyLink r => exact phyLink_quiet s r

theorem Quiet.calm {s : State} {a : Act} (h : Quiet s a) (hc : Calm s a) :
    negoVars (step s a) = negoVars s ∧ (Idle s → Idle (step s a)) :=
  h.resolve_left fun hr => hc.1 hr.1

theorem Idle.stepCount_eq {s : State} (h : Idle s) (hj : NoReInit s) {more : List Act}
    (hm : Meets step Calm s more) : stepCount step invokes s more = 0 := by
  induction more generalizing s with
  | nil => rfl
  | cons a more ih =>
    obtain ⟨hc, hm⟩ := hm
    have hi := h.not_invokes a
    rw [stepCount, hi, ih (((step_quiet hj hi).calm hc).2 h) (step_noReInit s a hj) hm]
    rfl

/-- From a count of at most five the switch comes after the missing invocations. -/
theorem Waiting.retry {s : State} (h : Waiting s) (hj : NoReInit s) (h5 : s.phySucCnt ≤ 5)
    {more : List Act} (hm : Meets step Calm s more)
    (hn : 6 ≤ s.phySucCnt.toNat + stepCount step invokes s more) :
    Somewhere step Switches s more := by
  induction more generalizing s with
  | nil =>
    simp only [stepCount, Nat.add_zero] at hn
    bv_omega
  | cons a more ih =>
    obtain ⟨hc, hm⟩ := hm
    have hj' := step_noReInit s a hj
    cases hi : invokes s a with
    | false =>
      have hq := ((step_quiet hj hi).calm hc).1
      have hsuc : (step s a).phySucCnt = s.phySucCnt := by
        simp only [negoVars, Prod.mk.injEq] at hq
        exact hq.2.2.2.2.2
      rw [stepCount, hi, Bool.toNat_false, Nat.zero_add, ← hsuc] at hn
      exact .inr (ih (h.congr hq) hj' (by rwa [hsuc]) hm hn)
    | true =>
      cases a with
      | handle r =>
        have ha := hc.2 hi
        by_cases hfive : s.phySucCnt = 5
        · exact .inl (h.switches hi ha hfive)
        · have hsel : test r.anlpar phyAnlparSelectorField = true := by
            simp only [answered, Bool.and_eq_true] at ha
            exact ha.1
          obtain ⟨period, rand, he⟩ := h.counts hi hsel fun hc => hfive hc.1
          have hsuc : (step s (.handle r)).phySucCnt = s.phySucCnt + 1 := by rw [he]
          have hw : Waiting (step s (.handle r)) := by
            rw [he]
            exact ⟨h.status, h.detect, h.pn⟩
          rw [stepCount, hi, Bool.toNat_true] at hn
          refine .inr (ih hw hj' ?_ hm ?_)
          · rw [hsuc]
            exact succ_le_of_ne h5 hfive
          · rw [hsuc]
            bv_omega
      | tick | mdix | phyLink => cases hi

/-- An answer with the negotiation not complete. -/
def partnerRegs : Regs := ⟨0, phyAnlparSelectorValue, 0, 0, 0, 0, 0, 0⟩

/-- Time passes until the next call of the handler reaches `WCHNET_LinkProcess`. -/
def due (s : State) : Act := .tick (if 255 ≤ s.localTime - s.phyLinkTime then 0 else 255)

def probe : ℕ → State → List Act
  | 0, _ => []
  | n + 1, s =>
    due s :: .handle partnerRegs :: probe n (step (step s (due s)) (.handle partnerRegs))

theorem due_invokes {s : State} (h : ¬ Idle s) (r : Regs) :
    invokes (step s (due s)) (.handle r) = true := by
  obtain ⟨hr, hs⟩ : s.phyLinkReset = false ∧ s.phyStatus = 0 := by
    simpa [Idle, not_or] using h
  simp only [invokes, due, step, hr, hs, Bool.not_false, Bool.true_and, Bool.and_true,
    decide_true, decide_eq_true_eq]
  split
  · bv_omega
  · bv_omega

theorem not_resets {s : State} {a : Act} (h : (step s a).bcrWrites = s.bcrWrites) :
    ¬ Resets s a := by
  rw [Resets, h]
  exact fun he => absurd (congrArg List.length he) (by simp)

theorem not_switches {s : State} {a : Act} (h : (step s a).phyPN = s.phyPN) :
    ¬ Switches s a := by
  have hne : phyPnSwitchP ≠ phyPnSwitchN := by decide
  rw [Switches, h]
  rintro (⟨hp, hn⟩ | ⟨hn, hp⟩)
  · exact hne (hp.symm.trans hn)
  · exact hne (hp.symm.trans hn)

/-- As long as the count does not meet five, answered invocations are only counted. -/
theorem probe_calm (n : ℕ) {s : State} (hw : Waiting s) (hi : ¬ Idle s)
    (h : ∀ k < n, s.phySucCnt + BitVec.ofNat 8 k ≠ 5) :
    Meets step Calm s (probe n s) ∧ stepCount step invokes s (probe n s) = n ∧
      ¬ Somewhere step Switches s (probe n s) := by
  induction n generalizing s with
  | zero => exact ⟨trivial, rfl, id⟩
  | succ n ih =>
    have hw' : Waiting (step s (due s)) := ⟨hw.status, hw.detect, hw.pn⟩
    have hinv := due_invokes hi partnerRegs
    have h0 : ¬ ((step s (due s)).phySucCnt = 5 ∧ test partnerRegs.bmsr (1#16 <<< 5) = false) :=
      fun hc => h 0 (Nat.succ_pos n) ((BitVec.add_zero _).trans hc.1)
    obtain ⟨period, rand, he⟩ := hw'.counts hinv (by decide) h0
    have hnext := ih (s := step (step s (due s)) (.handle partnerRegs))
      (by rw [he]; exact ⟨hw.status, hw.detect, hw.pn⟩) (by rw [he]; exact hi) ?_
    · obtain ⟨hm, hn, hno⟩ := hnext
      have hcalm : Calm s (due s) := ⟨not_resets rfl, fun h => by cases h⟩
      have hcalm' : Calm (step s (due s)) (.handle partnerRegs) :=
        ⟨not_resets (by rw [he]), fun _ => by decide⟩
      refine ⟨⟨hcalm, hcalm', hm⟩, ?_, ?_⟩
      · simp only [probe, stepCount, hinv, hn]
        simp only [due, invokes, Bool.toNat_false, Bool.toNat_true]
        omega
      · rintro (hs | hs | hs)
        · exact not_switches rfl hs
        · exact not_switches (by rw [he]) hs
        · exact hno hs
    · intro k hk
      rw [he]
      have hk' := h (k + 1) (Nat.succ_lt_succ hk)
      intro hc
      apply hk'
      rw [← hc, BitVec.ofNat_add]
      change _ = s.phySucCnt + 1#8 + _
      rw [BitVec.add_assoc, BitVec.add_comm (1#8)]

/-- The retry is sure exactly while the count has not passed five. -/
theorem retried_iff {s : State} (hp : Phase s) (hj : NoReInit s) :
    Retried s ↔ (s.phyLinkStatus = phyLinkWaitSuc → Idle s ∨ s.phySucCnt ≤ 5) := by
  constructor
  · intro h hs
    by_contra hno
    rw [not_or] at hno
    obtain ⟨hm, hn, hnone⟩ := probe_calm 6 (waiting_of_phase hp hs) hno.1 fun k hk => by
      have hle := hno.2
      bv_omega
    exact hnone (h hs _ hm hn)
  · intro h hs more hm hn
    obtain hi | h5 := h hs
    · rw [hi.stepCount_eq hj hm] at hn
      exact absurd hn (by decide)
    · exact (waiting_of_phase hp hs).retry hj h5 hm (by omega)

theorem silent_suc (s : State) (r : Regs) :
    (linkProcessSilent s r).phySucCnt = s.phySucCnt ∨ (linkProcessSilent s r).phySucCnt = 0 := by
  simp only [linkProcessSilent, nextDetect, countTo]
  repeat' split
  all_goals first | exact .inl rfl | exact .inr rfl

theorem partner_suc {s : State} (h : test s.phyLinkStatus phyLinkWaitSuc = false) (r : Regs) :
    (linkProcessPartner s r).phySucCnt = s.phySucCnt := by
  have hd : (endDetect s).phySucCnt = s.phySucCnt ∧
      (endDetect s).phyLinkStatus = s.phyLinkStatus := by
    simp only [endDetect]
    split
    · exact ⟨rfl, rfl⟩
    · exact ⟨rfl, rfl⟩
  simp only [linkProcessPartner]
  split
  · rfl
  · rw [polarity, if_neg (by rw [hd.2, h]; exact Bool.false_ne_true)]
    split
    · exact hd.1
    · exact hd.1

/-- The count changes only where the driver waits for success. -/
theorem linkProcess_suc {s : State} (r : Regs)
    (h : test r.anlpar phyAnlparSelectorField = true →
      test s.phyLinkStatus phyLinkWaitSuc = false) :
    (wchnetLinkProcess s r).phySucCnt = s.phySucCnt ∨ (wchnetLinkProcess s r).phySucCnt = 0 := by
  simp only [wchnetLinkProcess]
  split
  · rename_i ha
    exact .inl (partner_suc (h ha) r)
  · exact silent_suc s r

def Counted (s : State) : Prop := s.phyLinkStatus = phyLinkWaitSuc → Idle s ∨ s.phySucCnt ≤ 5

theorem handle_counted {s : State} (hp : Phase s) (h : Counted s) {r : Regs}
    (hi : invokes s (.handle r) = true) :
    Counted (step s (.handle r)) ↔ Unconfirmed s (.handle r) := by
  have hbusy : ¬ Idle s := fun hidle => by
    rw [hidle.not_invokes] at hi
    exact Bool.false_ne_true hi
  have hsuc : s.phySucCnt ≤ 5 := by
    by_cases hs : s.phyLinkStatus = phyLinkWaitSuc
    · exact (h hs).resolve_left hbusy
    · rw [hp.status.2.2 hs]
      decide
  simp only [Unconfirmed, hi, true_implies]
  by_cases hcase : test r.anlpar phyAnlparSelectorField = true ∧ s.phyLinkStatus = phyLinkWaitSuc
  · obtain ⟨ha, hs⟩ := hcase
    simp only [ha, hs, true_implies]
    have hw := waiting_of_phase hp hs
    by_cases hc : s.phySucCnt = 5 ∧ test r.bmsr (1#16 <<< 5) = false
    · obtain ⟨period, rand, he⟩ := hw.invoked hi ha
      refine iff_of_true (fun _ => .inr ?_) fun _ => hc.2
      rw [he, awaitSuccess, if_pos hc]
      exact zero_le 5
    · obtain ⟨period, rand, he⟩ := hw.counts hi ha hc
      rw [he]
      by_cases h5 : s.phySucCnt = 5
      · refine iff_of_false (fun hcnt => ?_) fun hno => hc ⟨h5, hno h5⟩
        obtain hidle | hle := hcnt hs
        · exact hbusy hidle
        · change s.phySucCnt + 1 ≤ 5 at hle
          rw [h5] at hle
          exact absurd hle (by decide)
      · exact iff_of_true (fun _ => .inr (succ_le_of_ne hsuc h5)) fun hc5 => absurd hc5 h5
  · refine iff_of_true (fun _ => .inr ?_) fun ha hs => absurd ⟨ha, hs⟩ hcase
    obtain ⟨period, rand, he⟩ := handle_invokes hi
    have hst : test r.anlpar phyAnlparSelectorField = true →
        test s.phyLinkStatus phyLinkWaitSuc = false := by
      intro ha
      rw [hp.status.1.resolve_right fun hs => hcase ⟨ha, hs⟩]
      decide
    rw [step, he]
    obtain hs | hs := linkProcess_suc (s := { s with
      linkTaskPeriod := period
      randVal := rand
      phyLinkTime := s.localTime }) r hst
    · rw [hs]
      exact hsuc
    · rw [hs]
      exact zero_le 5

theorem step_counted {s : State} (hp : Phase s) (hj : NoReInit s) (h : Counted s) (a : Act) :
    Counted (step s a) ↔ Unconfirmed s a := by
  cases hi : invokes s a with
  | true =>
    cases a with
    | handle r => exact handle_counted hp h hi
    | tick | mdix | phyLink => cases hi
  | false =>
    have hu : Unconfirmed s a := by
      cases a with
      | handle r => exact fun ht => absurd (hi.symm.trans ht) Bool.false_ne_true
      | tick | mdix | phyLink => trivial
    refine iff_of_true ?_ hu
    obtain ⟨-, hzero⟩ | ⟨hvars, hidle⟩ := step_quiet hj hi
    · rw [Counted, hzero]
      exact fun _ => .inr (zero_le 5)
    · simp only [negoVars, Prod.mk.injEq] at hvars
      obtain ⟨-, hst, -, -, -, hsuc⟩ := hvars
      rw [Counted, hst, hsuc]
      exact fun hs => (h hs).imp_left hidle

/-- In a run the retry is sure in every state exactly if no invocation that finds the
count at five sees the negotiation complete. -/
theorem polarity_retry (localTime chipId extenCtr : BitVec 32) (mac3 mac4 mac5 : BitVec 8)
    (acts : List Act) :
    Throughout step Retried (init localTime chipId extenCtr mac3 mac4 mac5) acts ↔
      Meets step Unconfirmed (init localTime chipId extenCtr mac3 mac4 mac5) acts := by
  have hinv := init_inv localTime chipId extenCtr mac3 mac4 mac5
  have hj : NoReInit (init localTime chipId extenCtr mac3 mac4 mac5) := rfl
  refine throughout_iff_meets (J := fun s => Inv s ∧ NoReInit s)
    (fun s a h => ⟨h.1.step a, step_noReInit s a h.2⟩) (fun s a h hr => ?_) ⟨hinv, hj⟩ ?_ acts
  · rw [retried_iff (h.1.step a).phase (step_noReInit s a h.2)]
    exact step_counted h.1.phase h.2 ((retried_iff h.1.phase h.2).mp hr) a
  · rw [retried_iff hinv.phase hj]
    exact fun _ => .inr (zero_le 5)

/-- The partner answers in every call; the call that finds the count at five sees the
negotiation complete. -/
def confirmedAtFive : List Act :=
  (List.replicate 8 [Act.tick 200, .handle partnerRegs]).flatten ++
    [.tick 200, .handle { partnerRegs with bmsr := 1#16 <<< 5 }]

theorem polarity_retry_lost :
    ¬ Throughout step Retried (init 0 0 0 0 0 0) confirmedAtFive := fun h =>
  absurd (h.last (by decide +kernel) (List.replicate 6 [Act.tick 200, .handle partnerRegs]).flatten
    (by decide +kernel) (by decide +kernel)) (by decide +kernel)

end EthDriver.PolarityRetry

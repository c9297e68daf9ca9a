import EthDriver.Negotiation

namespace EthDriver.NegotiationInvariant

open Bits MacRegs Runs Negotiation

/-- What the polarity check can do. -/
theorem polarityCheck_cases (s : State) (r : Regs) :
    ∃ succ mdix, polarityCheck s r = { s with linkSuccTime := succ, mdix := mdix } ∨
      r.mmcrgufcrAgain ≠ 0 ∧ polarityCheck s r = { s with
        linkSuccTime := succ
        mdix := mdix
        phyPolarityDetect := false
        mac := s.mac.ethEnableMacFilter } := by
  have hflip : ∃ mdix, flipPolarity { s with linkSuccTime := s.localTime } r =
      { s with linkSuccTime := s.localTime, mdix := mdix } := by
    simp only [flipPolarity]
    split
    · exact ⟨_, rfl⟩
    · exact ⟨_, rfl⟩
  obtain ⟨mdix, hmdix⟩ := hflip
  simp only [polarityCheck]
  split
  · refine ⟨s.localTime, mdix, ?_⟩
    simp only [wchnetPhyPnProcess, hmdix]
    split
    · exact .inr ⟨‹_›, rfl⟩
    · exact .inl rfl
  · exact ⟨s.linkSuccTime, s.mdix, .inl rfl⟩

theorem parallelDetection_eq (s : State) : ∃ mdix stat time, parallelDetection s =
    { ethLinkUpCfg { s with mac := s.mac.setMaccr ethModeFullDuplex false } with
      mdix := mdix
      phyNegoStat := stat
      phyNegoLinkTime := time } := by
  simp only [parallelDetection, selectPolarity]
  split
  · split
    · exact ⟨_, _, _, rfl⟩
    · exact ⟨_, _, _, rfl⟩
  · exact ⟨_, _, _, rfl⟩

theorem linkDown_eq (s : State) : ∃ stat time, linkDown s =
    { holdOff s with phyNegoStat := stat, phyNegoLinkTime := time } := by
  simp only [linkDown]
  split
  · exact ⟨_, _, rfl⟩
  · exact ⟨_, _, rfl⟩

/-- What a `PHYLINK` interrupt comes to, by the values it has read: a link-up, a reset
of the PHY, or the hold-off. -/
inductive Outcome (s t : State) (r : LinkRegs) : Prop
  | up (hr : linksUp r = true) (hn : resetsLink r = false) (full : Bool) (mdix : BitVec 16)
      (stat : BitVec 8) (time : BitVec 32)
      (eq : t = { ethLinkUpCfg { s with mac := s.mac.setMaccr ethModeFullDuplex full } with
        mdix := mdix
        phyNegoStat := stat
        phyNegoLinkTime := time })
  | reset (hr : resetsLink r = true) (hn : linksUp r = false) (eq : t = phyLinkReset s)
  | down (hr : linksUp r = false) (hn : resetsLink r = false) (stat : BitVec 8)
      (time : BitVec 32) (eq : t = { holdOff s with phyNegoStat := stat, phyNegoLinkTime := time })

theorem phyLink_outcome (s : State) (r : LinkRegs) : Outcome s (ethPhyLink s r) r := by
  simp only [ethPhyLink]
  cases hl : test r.bsr phyLinkedStatus with
  | false =>
    rw [if_neg Bool.false_ne_true]
    have hn : linksUp r = false ∧ resetsLink r = false := by simp [linksUp, resetsLink, hl]
    obtain ⟨stat, time, he⟩ := linkDown_eq s
    exact .down hn.1 hn.2 stat time he
  | true =>
    rw [if_pos rfl]
    cases ha : test r.bcr phyAutoNegotiation with
    | false =>
      rw [if_neg Bool.false_ne_true]
      exact .up (by simp [linksUp, hl, ha]) (by simp [resetsLink, ha]) false _ _ _ rfl
    | true =>
      rw [if_pos rfl]
      cases hc : test r.bsr phyAutoNegoComplete with
      | true =>
        have hu : linksUp r = true ∧ resetsLink r = false := by simp [linksUp, resetsLink, hl, hc]
        split
        · rw [if_pos rfl]
          obtain ⟨mdix, stat, time, he⟩ := parallelDetection_eq s
          exact .up hu.1 hu.2 false mdix stat time he
        · simp only [negotiated, hc, if_true]
          exact .up hu.1 hu.2 _ _ _ _ rfl
      | false =>
        have hu : linksUp r = false := by simp [linksUp, hl, ha, hc]
        split
        · rename_i hz
          rw [if_neg Bool.false_ne_true]
          exact .reset (by simp [resetsLink, hl, ha, hc, hz]) hu rfl
        · rename_i hz
          have hn : resetsLink r = false := by
            rw [resetsLink, decide_eq_false hz, Bool.and_false, Bool.false_and]
          simp only [negotiated, hc, Bool.false_eq_true, if_false]
          exact .down hu hn _ _ rfl

/-- The phases of the negotiation. While it searches for a partner the polarity is
automatic; then it tries the two polarities in turn; once the partner answers
under one of them it waits for success. -/
inductive Phase (s : State) : Prop
  | search (pn : s.phyPN = phyPnSwitchAuto) (status : s.phyLinkStatus = phyLinkInit)
      (step : s.trDetectStep = 0 ∨ s.trDetectStep = 1 ∧ 1 ≤ s.trDetectCnt ∧ s.trDetectCnt ≤ 7)
      (cnt : s.phyLinkCnt ≤ 100) (suc : s.phySucCnt = 0)
  | first (pn : s.phyPN = phyPnSwitchP) (status : s.phyLinkStatus = phyLinkInit)
      (step : s.trDetectStep = 2) (cnt : s.phyLinkCnt ≤ 4) (suc : s.phySucCnt = 0)
  | second (pn : s.phyPN = phyPnSwitchN) (status : s.phyLinkStatus = phyLinkInit)
      (step : s.trDetectStep = 2) (cnt : s.phyLinkCnt ≤ 15) (suc : s.phySucCnt = 0)
  | waiting (pn : s.phyPN = phyPnSwitchP ∨ s.phyPN = phyPnSwitchN)
      (status : s.phyLinkStatus = phyLinkWaitSuc) (step : s.trDetectStep = 2)
      (cnt : s.phyLinkCnt ≤ 15)

def negoVars (s : State) : BitVec 8 × BitVec 8 × BitVec 8 × BitVec 8 × BitVec 8 × BitVec 8 :=
  (s.phyPN, s.phyLinkStatus, s.trDetectStep, s.trDetectCnt, s.phyLinkCnt, s.phySucCnt)

theorem Phase.congr {s t : State} (h : Phase s) (he : negoVars t = negoVars s) : Phase t := by
  simp only [negoVars, Prod.mk.injEq] at he
  obtain ⟨hpn, hst, hstep, hcnt, hl, hsuc⟩ := he
  cases h with
  | search pn status step cnt suc =>
    exact .search (hpn.trans pn) (hst.trans status) (by rw [hstep, hcnt]; exact step)
      (by rw [hl]; exact cnt) (hsuc.trans suc)
  | first pn status step cnt suc =>
    exact .first (hpn.trans pn) (hst.trans status) (hstep.trans step) (by rw [hl]; exact cnt)
      (hsuc.trans suc)
  | second pn status step cnt suc =>
    exact .second (hpn.trans pn) (hst.trans status) (hstep.trans step) (by rw [hl]; exact cnt)
      (hsuc.trans suc)
  | waiting pn status step cnt =>
    exact .waiting (by rw [hpn]; exact pn) (hst.trans status) (hstep.trans step)
      (by rw [hl]; exact cnt)

theorem zero_le (k : BitVec 8) : (0 : BitVec 8) ≤ k := by bv_omega

theorem succ_le_of_ne {x k : BitVec 8} (h : x ≤ k) (hne : x ≠ k) : x + 1 ≤ k := by bv_omega

theorem phyLinkReset_phase (s : State) : Phase (phyLinkReset s) :=
  .search rfl rfl (.inl rfl) (zero_le _) rfl

theorem backToAuto_phase (s : State) (r : Regs) : Phase (backToAuto s r) :=
  .search rfl rfl (.inl rfl) (zero_le _) rfl

theorem countTo_phase {s met : State} {bound : BitVec 8} (hmet : Phase met)
    (h : s.phyLinkCnt + 1 ≤ bound → Phase { s with phyLinkCnt := s.phyLinkCnt + 1 })
    (hle : s.phyLinkCnt ≤ bound) : Phase (countTo s bound met) := by
  simp only [countTo]
  split
  · exact hmet
  · rename_i hne
    exact h (succ_le_of_ne hle hne)

theorem Phase.partner {s : State} (h : Phase s) (r : Regs) : Phase (linkProcessPartner s r) := by
  have hinit : ¬ test phyLinkInit phyLinkWaitSuc = true := by decide
  have hwait : test phyLinkWaitSuc phyLinkWaitSuc = true := by decide
  simp only [linkProcessPartner]
  cases h with
  | search pn status step cnt suc =>
    obtain step | ⟨step, -, -⟩ := step
    · rw [if_pos step]
      have hcnt : (1 : BitVec 8) ≤ 1 ∧ (1 : BitVec 8) ≤ 7 := by decide
      exact .search pn status (.inr ⟨rfl, hcnt⟩) cnt suc
    · rw [if_neg (by rw [step]; decide), endDetect, if_pos step, polarity, if_neg, if_pos pn]
      · exact .first rfl status rfl (zero_le _) suc
      · rwa [status]
  | first pn status step cnt suc =>
    rw [if_neg (by rw [step]; decide), endDetect, if_neg (by rw [step]; decide), polarity,
      if_neg (by rwa [status]), if_neg (by rw [pn]; decide)]
    exact .waiting (.inl pn) rfl step (zero_le _)
  | second pn status step cnt suc =>
    rw [if_neg (by rw [step]; decide), endDetect, if_neg (by rw [step]; decide), polarity,
      if_neg (by rwa [status]), if_neg (by rw [pn]; decide)]
    exact .waiting (.inr pn) rfl step (zero_le _)
  | waiting pn status step cnt =>
    rw [if_neg (by rw [step]; decide), endDetect, if_neg (by rw [step]; decide), polarity,
      if_pos (by rwa [status]), awaitSuccess]
    split
    · split
      · exact .waiting (.inl rfl) status step (zero_le _)
      · exact .waiting (.inr rfl) status step (zero_le _)
    · exact .waiting pn status step (zero_le _)

theorem Phase.silent {s : State} (h : Phase s) (r : Regs) : Phase (linkProcessSilent s r) := by
  simp only [linkProcessSilent]
  cases h with
  | search pn status step cnt suc =>
    obtain step | ⟨step, hlo, hhi⟩ := step
    · rw [if_neg (by rw [step]; decide), if_neg (by rw [status]; decide),
        if_neg (by rw [pn]; decide), if_neg (by rw [pn]; decide)]
      exact countTo_phase (phyLinkReset_phase s)
        (fun hc => .search pn status (.inl step) hc suc) cnt
    · rw [if_pos step, nextDetect]
      split
      · exact .search pn status (.inl rfl) cnt suc
      · rename_i hne
        have hcnt : 1 ≤ s.trDetectCnt + 1 ∧ s.trDetectCnt + 1 ≤ 7 := by
          refine ⟨?_, succ_le_of_ne hhi fun he => hne ?_⟩
          · bv_omega
          · rw [he]; decide
        exact .search pn status (.inr ⟨step, hcnt⟩) cnt suc
  | first pn status step cnt suc =>
    rw [if_neg (by rw [step]; decide), if_neg (by rw [status]; decide), if_pos pn]
    exact countTo_phase (.second rfl status step (zero_le _) suc)
      (fun hc => .first pn status step hc suc) cnt
  | second pn status step cnt suc =>
    rw [if_neg (by rw [step]; decide), if_neg (by rw [status]; decide),
      if_neg (by rw [pn]; decide), if_pos pn]
    exact countTo_phase (backToAuto_phase s r) (fun hc => .second pn status step hc suc) cnt
  | waiting pn status step cnt =>
    rw [if_neg (by rw [step]; decide), if_pos status]
    exact countTo_phase (backToAuto_phase s r) (fun hc => .waiting pn status step hc) cnt

theorem Phase.linkProcess {s : State} (h : Phase s) (r : Regs) :
    Phase (wchnetLinkProcess s r) := by
  simp only [wchnetLinkProcess]
  split
  · exact h.partner r
  · exact h.silent r

theorem negoVars_accelerate (s : State) (r : Regs) :
    negoVars (accelerateLinkProcess s r) = negoVars s := by
  simp only [accelerateLinkProcess]
  split <;> rfl

theorem negoVars_update (s : State) : negoVars (updateLinkTaskPeriod s) = negoVars s := by
  simp only [updateLinkTaskPeriod]
  split <;> simp only [negoVars]

theorem negoVars_polarityCheck (s : State) (r : Regs) :
    negoVars (polarityCheck s r) = negoVars s := by
  obtain ⟨succ, mdix, he | ⟨-, he⟩⟩ := polarityCheck_cases s r
  · rw [he]
    rfl
  · rw [he]
    rfl

theorem Phase.handle {s : State} (h : Phase s) (r : Regs) :
    Phase (wchnetHandlePhyNegotiation s r) := by
  simp only [wchnetHandlePhyNegotiation]
  split
  · split
    · exact phyLinkReset_phase _
    · exact h
  · split
    · have ha : Phase (accelerateLinkProcess s r) := h.congr (negoVars_accelerate s r)
      refine Phase.congr (s := linkTask (accelerateLinkProcess s r) r) ?_ rfl
      simp only [linkTask]
      split
      · refine Phase.linkProcess ?_ r
        exact ha.congr (negoVars_update (accelerateLinkProcess s r))
      · exact ha
    · refine Phase.congr (s := reInitCheck s r) ?_ (negoVars_polarityCheck _ r)
      simp only [reInitCheck]
      split
      · split
        · exact h.congr rfl
        · exact phyLinkReset_phase _
      · exact h

theorem Phase.phyLink {s : State} (h : Phase s) (r : LinkRegs) : Phase (ethPhyLink s r) := by
  cases phyLink_outcome s r with
  | up hr hn full mdix stat time eq => exact h.congr (by rw [eq]; rfl)
  | reset hr hn eq =>
    rw [eq]
    exact phyLinkReset_phase s
  | down hr hn stat time eq => exact h.congr (by rw [eq]; rfl)

/-- What `WCHNET_LinkProcess` does not write. -/
def linkVars (s : State) : Bool × Bool × BitVec 32 × Bool × Mac :=
  (s.linkSta, s.phyLinkReset, s.extenCtr, s.reInitMacFlag, s.mac)

theorem linkVars_partner (s : State) (r : Regs) :
    linkVars (linkProcessPartner s r) = linkVars s := by
  have hd : linkVars (endDetect s) = linkVars s := by
    simp only [endDetect]
    split <;> rfl
  simp only [linkProcessPartner]
  split
  · rfl
  · rw [← hd]
    change linkVars (polarity (endDetect s) r) = _
    simp only [polarity, awaitSuccess]
    repeat' split
    all_goals rfl

theorem linkVars_silent (s : State) (r : Regs) :
    linkVars (linkProcessSilent s r) = linkVars s := by
  simp only [linkProcessSilent, nextDetect, countTo]
  repeat' split
  all_goals rfl

theorem linkVars_linkProcess (s : State) (r : Regs) :
    linkVars (wchnetLinkProcess s r) = linkVars s := by
  simp only [wchnetLinkProcess]
  split
  · exact linkVars_partner s r
  · exact linkVars_silent s r

theorem linkVars_linkTask (s : State) (r : Regs) : linkVars (linkTask s r) = linkVars s := by
  simp only [linkTask]
  split
  · rw [linkVars_linkProcess]
    simp only [updateLinkTaskPeriod]
    split <;> simp only [linkVars]
  · rfl

/-- Nor does the rest of the task while there is no link. -/
theorem linkVars_task (s : State) (r : Regs) :
    linkVars (linkTask (accelerateLinkProcess s r) r) = linkVars s := by
  rw [linkVars_linkTask]
  simp only [accelerateLinkProcess]
  split <;> rfl

/-- What a call of the handler does to these variables. -/
structure Frame (s t : State) (r : Regs) : Prop where
  link : t.linkSta = s.linkSta
  reInit : s.reInitMacFlag = false → t.reInitMacFlag = false
  mac : t.mac = s.mac ∨ r.mmcrgufcrAgain ≠ 0 ∧ t.mac = s.mac.ethEnableMacFilter
  clock : t.phyLinkReset = s.phyLinkReset ∧ t.extenCtr = s.extenCtr ∨
    t.phyLinkReset = false ∧ t.extenCtr = s.extenCtr ||| extenEth10MEn

theorem polarityCheck_frame (s : State) (r : Regs) : Frame s (polarityCheck s r) r := by
  obtain ⟨succ, mdix, he | ⟨hne, he⟩⟩ := polarityCheck_cases s r
  · rw [he]
    exact ⟨rfl, id, .inl rfl, .inl ⟨rfl, rfl⟩⟩
  · rw [he]
    exact ⟨rfl, id, .inr ⟨hne, rfl⟩, .inl ⟨rfl, rfl⟩⟩

theorem handle_frame (s : State) (r : Regs) : Frame s (wchnetHandlePhyNegotiation s r) r := by
  simp only [wchnetHandlePhyNegotiation]
  split
  · split
    · exact ⟨rfl, id, .inl rfl, .inr ⟨rfl, rfl⟩⟩
    · exact ⟨rfl, id, .inl rfl, .inl ⟨rfl, rfl⟩⟩
  · split
    · have hv := linkVars_task s r
      simp only [linkVars, Prod.mk.injEq] at hv
      exact ⟨hv.1, fun _ => rfl, .inl hv.2.2.2.2, .inl ⟨hv.2.1, hv.2.2.1⟩⟩
    · have hp := polarityCheck_frame (reInitCheck s r) r
      have hr : (reInitCheck s r).linkSta = s.linkSta ∧ (reInitCheck s r).mac = s.mac ∧
          (reInitCheck s r).phyLinkReset = s.phyLinkReset ∧
          (reInitCheck s r).extenCtr = s.extenCtr ∧
          (s.reInitMacFlag = false → (reInitCheck s r).reInitMacFlag = false) := by
        simp only [reInitCheck]
        split
        · split
          · exact ⟨rfl, rfl, rfl, rfl, fun _ => rfl⟩
          · exact ⟨rfl, rfl, rfl, rfl, fun _ => rfl⟩
        · exact ⟨rfl, rfl, rfl, rfl, id⟩
      obtain ⟨hlink, hmac, hreset, hext, hflag⟩ := hr
      refine ⟨hp.link.trans hlink, fun h => hp.reInit (hflag h), ?_, ?_⟩
      · rw [← hmac]
        exact hp.mac
      · rw [← hreset, ← hext]
        exact hp.clock

/-- The clock of the PHY is off exactly during the hold-off. -/
def Clocked (s : State) : Prop := test s.extenCtr extenEth10MEn = !s.phyLinkReset

theorem Clocked.on {s : State} (hr : s.phyLinkReset = false) (x : BitVec 32)
    (he : s.extenCtr = x ||| extenEth10MEn) : Clocked s := by
  have hself : test extenEth10MEn extenEth10MEn = true := by decide
  rw [Clocked, he, hr, test_or, hself, Bool.or_true]
  rfl

theorem holdOff_clocked (s : State) : Clocked (holdOff s) :=
  test_clear_of_le s.extenCtr (by decide)

theorem Clocked.handle {s : State} (h : Clocked s) (r : Regs) :
    Clocked (wchnetHandlePhyNegotiation s r) := by
  obtain ⟨hreset, hext⟩ | ⟨hreset, hext⟩ := (handle_frame s r).clock
  · rw [Clocked, hreset, hext]
    exact h
  · exact .on hreset s.extenCtr hext

theorem Clocked.phyLink {s : State} (h : Clocked s) (r : LinkRegs) : Clocked (ethPhyLink s r) := by
  cases phyLink_outcome s r with
  | up hr hn full mdix stat time eq | reset hr hn eq =>
    rw [eq]
    exact h
  | down hr hn stat time eq =>
    rw [eq]
    exact holdOff_clocked s

structure Inv (s : State) : Prop where
  phase : Phase s
  clocked : Clocked s

theorem init_inv (localTime chipId extenCtr : BitVec 32) (mac3 mac4 mac5 : BitVec 8) :
    Inv (init localTime chipId extenCtr mac3 mac4 mac5) :=
  ⟨.search rfl rfl (.inl rfl) (zero_le _) rfl, .on rfl extenCtr rfl⟩

theorem Inv.step {s : State} (h : Inv s) (a : Act) : Inv (step s a) := by
  cases a with
  | tick timperiod => exact ⟨h.phase.congr rfl, h.clocked⟩
  | handle r => exact ⟨h.phase.handle r, h.clocked.handle r⟩
  | phyLink r => exact ⟨h.phase.phyLink r, h.clocked.phyLink r⟩
  | mdix v => exact ⟨h.phase.congr rfl, h.clocked⟩

def linkCntBound (s : State) : BitVec 8 :=
  if s.phyPN = phyPnSwitchAuto then 100
  else if s.phyPN = phyPnSwitchP ∧ s.phyLinkStatus = phyLinkInit then 4
  else 15

theorem ne_auto {pn : BitVec 8} (h : pn = phyPnSwitchP ∨ pn = phyPnSwitchN) :
    pn ≠ phyPnSwitchAuto := by
  obtain h | h := h
  · rw [h]
    decide
  · rw [h]
    decide

theorem Phase.pn {s : State} (h : Phase s) :
    (s.phyPN = phyPnSwitchP ∨ s.phyPN = phyPnSwitchN ∨ s.phyPN = phyPnSwitchAuto) ∧
      (s.phyPN ≠ phyPnSwitchAuto ↔ s.trDetectStep = 2) := by
  cases h with
  | search pn status step cnt suc =>
    refine ⟨.inr (.inr pn), fun hne => absurd pn hne, fun h2 => ?_⟩
    obtain step | ⟨step, -⟩ := step
    · exact absurd (step.symm.trans h2) (by decide)
    · exact absurd (step.symm.trans h2) (by decide)
  | first pn status step cnt suc => exact ⟨.inl pn, fun _ => step, fun _ => ne_auto (.inl pn)⟩
  | second pn status step cnt suc =>
    exact ⟨.inr (.inl pn), fun _ => step, fun _ => ne_auto (.inr pn)⟩
  | waiting pn status step cnt => exact ⟨pn.imp_right .inl, fun _ => step, fun _ => ne_auto pn⟩

theorem Phase.status {s : State} (h : Phase s) :
    (s.phyLinkStatus = phyLinkInit ∨ s.phyLinkStatus = phyLinkWaitSuc) ∧
      (s.phyLinkStatus = phyLinkWaitSuc → s.phyPN ≠ phyPnSwitchAuto) ∧
      (s.phyLinkStatus ≠ phyLinkWaitSuc → s.phySucCnt = 0) := by
  cases h with
  | search pn status step cnt suc | first pn status step cnt suc | second pn status step cnt suc =>
    refine ⟨.inl status, fun hw => ?_, fun _ => suc⟩
    rw [status] at hw
    exact absurd hw (by decide)
  | waiting pn status step cnt =>
    exact ⟨.inr status, fun _ => ne_auto pn, fun hw => absurd status hw⟩

theorem Phase.counts {s : State} (h : Phase s) :
    (s.trDetectStep = 1 → 1 ≤ s.trDetectCnt ∧ s.trDetectCnt ≤ 7) ∧
      s.phyLinkCnt ≤ linkCntBound s := by
  simp only [linkCntBound]
  cases h with
  | search pn status step cnt suc =>
    rw [if_pos pn]
    refine ⟨fun h1 => ?_, cnt⟩
    obtain step | ⟨-, hcnt⟩ := step
    · rw [step] at h1
      exact absurd h1 (by decide)
    · exact hcnt
  | first pn status step cnt suc =>
    rw [if_neg (by rw [pn]; decide), if_pos ⟨pn, status⟩]
    exact ⟨fun h1 => absurd (step.symm.trans h1) (by decide), cnt⟩
  | second pn status step cnt suc =>
    rw [if_neg (by rw [pn]; decide), if_neg (by rw [pn]; exact fun h => absurd h.1 (by decide))]
    exact ⟨fun h1 => absurd (step.symm.trans h1) (by decide), cnt⟩
  | waiting pn status step cnt =>
    rw [if_neg (ne_auto pn), if_neg (by rw [status]; exact fun h => absurd h.2 (by decide))]
    exact ⟨fun h1 => absurd (step.symm.trans h1) (by decide), cnt⟩

/-- In every reachable state the polarity, the status and the counters of the
negotiation belong together, no counter is past the value it is compared with, and
the clock of the PHY is off exactly during the hold-off. -/
theorem negotiation_invariant (localTime chipId extenCtr : BitVec 32) (mac3 mac4 mac5 : BitVec 8)
    (acts : List Act) :
    let s := run step (init localTime chipId extenCtr mac3 mac4 mac5) acts
    (s.phyPN = phyPnSwitchP ∨ s.phyPN = phyPnSwitchN ∨ s.phyPN = phyPnSwitchAuto) ∧
    (s.phyPN ≠ phyPnSwitchAuto ↔ s.trDetectStep = 2) ∧
    (s.phyLinkStatus = phyLinkInit ∨ s.phyLinkStatus = phyLinkWaitSuc) ∧
    (s.phyLinkStatus = phyLinkWaitSuc → s.phyPN ≠ phyPnSwitchAuto) ∧
    (s.trDetectStep = 1 → 1 ≤ s.trDetectCnt ∧ s.trDetectCnt ≤ 7) ∧
    s.phyLinkCnt ≤ linkCntBound s ∧
    (s.phyLinkStatus ≠ phyLinkWaitSuc → s.phySucCnt = 0) ∧
    (test s.extenCtr extenEth10MEn = false ↔ s.phyLinkReset = true) := by
  intro s
  have h : Inv s := run_invariant (fun _ a h => h.step a)
    (init_inv localTime chipId extenCtr mac3 mac4 mac5) acts
  refine ⟨h.phase.pn.1, h.phase.pn.2, h.phase.status.1, h.phase.status.2.1, h.phase.counts.1,
    h.phase.counts.2, h.phase.status.2.2, ?_⟩
  rw [h.clocked, Bool.not_eq_false']

end EthDriver.NegotiationInvariant

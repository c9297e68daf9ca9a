import EthDriver.NegotiationInvariant

namespace EthDriver.LiveLink

open Bits MacRegs Runs Negotiation NegotiationInvariant

def Live (s : State) : Prop :=
  s.linkSta = true → s.phyStatus = phyLinkedStatus.setWidth 8 ∧ s.phyLinkReset = false

instance (s : State) : Decidable (Live s) := inferInstanceAs (Decidable (_ → _ ∧ _))

/-- A link-up does not arrive during the hold-off, and a reset does not arrive while
the link is reported up. -/
def Timely (s : State) : Act → Prop
  | .phyLink r =>
    (linksUp r = true → s.phyLinkReset = false) ∧ (resetsLink r = true → s.linkSta = false)
  | _ => True

instance (s : State) : ∀ a, Decidable (Timely s a)
  | .phyLink _ => inferInstanceAs (Decidable (_ ∧ _))
  | .tick _ | .handle _ | .mdix _ => inferInstanceAs (Decidable True)

/-- `ReInitMACFlag` is never set, so the check that follows a reinitialisation never
runs. -/
def NoReInit (s : State) : Prop := s.reInitMacFlag = false

theorem phyLink_noReInit {s : State} (h : NoReInit s) (r : LinkRegs) :
    NoReInit (ethPhyLink s r) := by
  cases phyLink_outcome s r with
  | up hr hn full mdix stat time eq | down hr hn stat time eq | reset hr hn eq => rwa [eq]

theorem step_noReInit (s : State) (a : Act) (h : NoReInit s) : NoReInit (step s a) := by
  cases a with
  | tick | mdix => exact h
  | handle r => exact (handle_frame s r).reInit h
  | phyLink r => exact phyLink_noReInit h r

theorem reInitCheck_eq {s : State} (h : NoReInit s) (r : Regs) : reInitCheck s r = s := by
  rw [reInitCheck, if_neg]
  rw [h]
  exact fun hc => absurd hc.1 Bool.false_ne_true

/-- Without a live link the report is down already, so the task's resets do no
harm. -/
theorem handle_live {s : State} (hj : NoReInit s) (h : Live s) (r : Regs) :
    Live (wchnetHandlePhyNegotiation s r) := by
  simp only [wchnetHandlePhyNegotiation]
  cases hr : s.phyLinkReset with
  | true =>
    rw [if_pos rfl]
    split
    · intro hl
      exact absurd (h hl).2 (by rw [hr]; decide)
    · exact h
  | false =>
    rw [if_neg Bool.false_ne_true]
    split
    · rename_i hs
      intro hl
      have hl' : s.linkSta = true := (congrArg Prod.fst (linkVars_task s r)).symm.trans hl
      exact absurd (hs.symm.trans (h hl').1) (by decide)
    · rw [reInitCheck_eq hj]
      obtain ⟨succ, mdix, he | ⟨-, he⟩⟩ := polarityCheck_cases s r
      · rwa [he]
      · rwa [he]

theorem phyLink_live (s : State) (r : LinkRegs) :
    Live (ethPhyLink s r) ↔ Timely s (.phyLink r) := by
  cases phyLink_outcome s r with
  | up hr hn full mdix stat time eq =>
    simp only [Live, Timely, hr, hn, eq, ethLinkUpCfg, forall_const, Bool.false_eq_true,
      false_implies, and_true, true_and]
  | reset hr hn eq =>
    have hne : (0 : BitVec 8) ≠ phyLinkedStatus.setWidth 8 := by decide
    simp only [Live, Timely, hr, hn, eq, phyLinkReset, phyNegotiationParamInit, hne, forall_const,
      Bool.false_eq_true, false_implies, false_and, true_and, imp_false, Bool.not_eq_true]
  | down hr hn stat time eq =>
    simp only [Live, Timely, hr, hn, eq, holdOff, Bool.false_eq_true, false_implies, and_self]

/-- In a run a reported link is live throughout exactly if no link-up interrupt comes
during the hold-off and no interrupt resets the PHY under a reported link. -/
theorem reported_link_live (localTime chipId extenCtr : BitVec 32) (mac3 mac4 mac5 : BitVec 8)
    (acts : List Act) :
    Throughout step Live (init localTime chipId extenCtr mac3 mac4 mac5) acts ↔
      Meets step Timely (init localTime chipId extenCtr mac3 mac4 mac5) acts := by
  have hj : NoReInit (init localTime chipId extenCtr mac3 mac4 mac5) := rfl
  have h0 : Live (init localTime chipId extenCtr mac3 mac4 mac5) := fun hl => nomatch hl
  apply throughout_iff_meets step_noReInit _ hj h0
  intro s a hj h
  cases a with
  | tick | mdix => exact iff_of_true h trivial
  | handle r => exact iff_of_true (handle_live hj h r) trivial
  | phyLink r => exact phyLink_live s r

/-- A link comes up, and the next interrupt finds it up with nothing received from the
partner and the negotiation not complete. -/
def resetUnderLink : List Act :=
  [.phyLink ⟨0x0024, 0x1000, 0x0021, 0⟩, .phyLink ⟨0x0004, 0x1000, 0, 0⟩]

theorem reported_link_dead :
    ¬ Throughout step Live (init 0 0 0 0 0 0) resetUnderLink := fun h =>
  absurd h.last (by decide +kernel)

end EthDriver.LiveLink

import EthDriver.LiveLink

namespace EthDriver.MdixFields

open Bits MacRegs Runs Negotiation NegotiationInvariant LiveLink

/-- The driver's own events. Here the PHY keeps in `MDIX` what was last written to it. -/
inductive Act
  | tick (timperiod : BitVec 16)
  | handle (r : Regs)
  | phyLink (r : LinkRegs)

def Act.event : Act → Negotiation.Act
  | .tick timperiod => .tick timperiod
  | .handle r => .handle r
  | .phyLink r => .phyLink r

def step (s : State) (a : Act) : State := Negotiation.step s a.event

/-- Bits 3 and 2 of `MDIX`. -/
def pnField (mdix : BitVec 16) : BitVec 2 := mdix.extractLsb 3 2

/-- Bits 1 and 0 of `MDIX`. -/
def trField (mdix : BitVec 16) : BitVec 2 := mdix.extractLsb 1 0

def Valid (mdix : BitVec 16) : Prop :=
  (pnField mdix = 0 ∨ pnField mdix = 1 ∨ pnField mdix = 2) ∧ trField mdix ≠ 3

instance (mdix : BitVec 16) : Decidable (Valid mdix) := inferInstanceAs (Decidable (_ ∧ _))

def FieldsValid (s : State) : Prop := Valid s.mdix

instance (s : State) : Decidable (FieldsValid s) := inferInstanceAs (Decidable (Valid _))

/-- The call reaches the write to `MDIX` in `WCHNET_PhyPNProcess`. -/
def Flips (s : State) (r : Regs) : Prop :=
  s.phyLinkReset = false ∧ s.phyStatus ≠ 0 ∧
    (s.phyPolarityDetect = true ∧ 2 * phyLinkTaskPeriod ≤ s.localTime - s.linkSuccTime) ∧
    r.mmcrgufcr = 0 ∧ 3 ≤ r.mmcrfcecr

/-- The polarity is not flipped while it is automatic. -/
def Steady (s : State) : Act → Prop
  | .handle r => Flips s r → pnField s.mdix ≠ pnField (phyPnSwitchAuto.setWidth 16)
  | _ => True

theorem pnField_and (x y : BitVec 16) : pnField (x &&& y) = pnField x &&& pnField y :=
  BitVec.extractLsb_and

theorem pnField_or (x y : BitVec 16) : pnField (x ||| y) = pnField x ||| pnField y :=
  BitVec.extractLsb_or

theorem trField_and (x y : BitVec 16) : trField (x &&& y) = trField x &&& trField y :=
  BitVec.extractLsb_and

theorem trField_or (x y : BitVec 16) : trField (x ||| y) = trField x ||| trField y :=
  BitVec.extractLsb_or

theorem pnField_byte (x : BitVec 16) : pnField ((x.setWidth 8).setWidth 16) = pnField x := by
  simp only [pnField]
  ext i hi
  simp

theorem trField_byte (x : BitVec 16) : trField ((x.setWidth 8).setWidth 16) = trField x := by
  simp only [trField]
  ext i hi
  simp

theorem test_polarity (x : BitVec 16) : test (x >>> 2) 1#16 = test (pnField x) 1#2 := by
  have hbit : (x >>> 2).getLsbD 0 = (pnField x).getLsbD 0 := by simp [pnField]
  simp only [test, BitVec.and_one_eq_setWidth_ofBool_getLsbD, hbit]
  cases (pnField x).getLsbD 0 with
  | false => decide
  | true => decide

theorem auto_valid : Valid (phyPnSwitchAuto.setWidth 16) := by decide

theorem Valid.setTr {m : BitVec 16} (h : Valid m) {v : BitVec 16} (hv : v = 1#16 <<< 1 ∨ v = 1#16) :
    Valid ((m &&& ~~~3#16) ||| v) := by
  have hpn : pnField ((m &&& ~~~3#16) ||| v) = pnField m := by
    rw [pnField_or, pnField_and]
    obtain rfl | rfl := hv
    · exact (by decide : ∀ x : BitVec 2, x &&& pnField (~~~3#16) ||| pnField (1#16 <<< 1) = x) _
    · exact (by decide : ∀ x : BitVec 2, x &&& pnField (~~~3#16) ||| pnField 1#16 = x) _
  refine ⟨by rw [hpn]; exact h.1, ?_⟩
  rw [trField_or, trField_and]
  obtain rfl | rfl := hv
  · exact (by decide : ∀ x : BitVec 2, x &&& trField (~~~3#16) ||| trField (1#16 <<< 1) ≠ 3) _
  · exact (by decide : ∀ x : BitVec 2, x &&& trField (~~~3#16) ||| trField 1#16 ≠ 3) _

theorem Valid.setPn {m : BitVec 16} (h : Valid m) {pn : BitVec 8}
    (hpn : pn = phyPnSwitchP ∨ pn = phyPnSwitchN) :
    Valid ((m &&& ~~~(3#16 <<< 2)) ||| pn.setWidth 16) := by
  have htr : trField ((m &&& ~~~(3#16 <<< 2)) ||| pn.setWidth 16) = trField m := by
    rw [trField_or, trField_and]
    obtain rfl | rfl := hpn
    · exact (by decide : ∀ x : BitVec 2, x &&& trField (~~~(3#16 <<< 2)) |||
        trField (phyPnSwitchP.setWidth 16) = x) _
    · exact (by decide : ∀ x : BitVec 2, x &&& trField (~~~(3#16 <<< 2)) |||
        trField (phyPnSwitchN.setWidth 16) = x) _
  refine ⟨?_, by rw [htr]; exact h.2⟩
  rw [pnField_or, pnField_and]
  obtain rfl | rfl := hpn
  · exact .inl ((by decide : ∀ x : BitVec 2, x &&& pnField (~~~(3#16 <<< 2)) |||
      pnField (phyPnSwitchP.setWidth 16) = 0) _)
  · exact .inr (.inl ((by decide : ∀ x : BitVec 2, x &&& pnField (~~~(3#16 <<< 2)) |||
      pnField (phyPnSwitchN.setWidth 16) = 1) _))

theorem Valid.byte {m : BitVec 16} (h : Valid m) : Valid ((m.setWidth 8).setWidth 16) := by
  rwa [Valid, pnField_byte, trField_byte]

theorem phyTrSwitch_valid {s : State} (h : Valid s.mdix) (r : Regs) :
    Valid (phyTrSwitch s r).mdix := by
  simp only [phyTrSwitch, phyRestartAutonegotiation]
  split
  · exact h.setTr (.inl rfl)
  · exact h.setTr (.inr rfl)

theorem phyPnSwitch_valid {s : State} (h : Valid s.mdix) (r : Regs) {pn : BitVec 8}
    (hpn : pn = phyPnSwitchP ∨ pn = phyPnSwitchN) : Valid (phyPnSwitch s r pn).mdix := by
  simp only [phyPnSwitch, phyRestartAutonegotiation, if_neg (ne_auto hpn)]
  exact (h.setPn hpn).byte

theorem awaitSuccess_valid {s : State} (h : Valid s.mdix) (r : Regs) :
    Valid (awaitSuccess s r).mdix := by
  simp only [awaitSuccess]
  split
  · apply phyPnSwitch_valid
    · exact h
    · split
      · exact .inl rfl
      · exact .inr rfl
  · exact h

theorem polarity_valid {s : State} (h : Valid s.mdix) (r : Regs) :
    Valid (polarity s r).mdix := by
  simp only [polarity]
  split
  · exact awaitSuccess_valid h r
  · split
    · exact phyPnSwitch_valid h r (.inl rfl)
    · exact h

theorem partner_valid {s : State} (h : Valid s.mdix) (r : Regs) :
    Valid (linkProcessPartner s r).mdix := by
  simp only [linkProcessPartner]
  split
  · apply phyTrSwitch_valid
    exact h
  · apply polarity_valid
    simp only [endDetect]
    split
    · exact h
    · exact h

theorem nextDetect_valid {s : State} (h : Valid s.mdix) (r : Regs) :
    Valid (nextDetect s r).mdix := by
  simp only [nextDetect]
  split
  · exact auto_valid
  · apply phyTrSwitch_valid
    exact h

theorem countTo_valid {s met : State} (h : Valid s.mdix) (hmet : Valid met.mdix)
    (bound : BitVec 8) : Valid (countTo s bound met).mdix := by
  simp only [countTo]
  split
  · exact hmet
  · exact h

theorem backToAuto_valid (s : State) (r : Regs) : Valid (backToAuto s r).mdix := auto_valid

theorem silent_valid {s : State} (h : Valid s.mdix) (r : Regs) :
    Valid (linkProcessSilent s r).mdix := by
  have hback := backToAuto_valid s r
  simp only [linkProcessSilent]
  split
  · exact nextDetect_valid h r
  · split
    · exact countTo_valid h hback 15
    · split
      · exact countTo_valid h (phyPnSwitch_valid (s := { s with phyLinkCnt := 0 }) h r (.inr rfl)) 4
      · split
        · exact countTo_valid h hback 15
        · exact countTo_valid h auto_valid 100

theorem linkTask_valid {s : State} (h : Valid s.mdix) (r : Regs) :
    Valid (linkTask s r).mdix := by
  simp only [linkTask, wchnetLinkProcess]
  have hu : Valid (updateLinkTaskPeriod s).mdix := by
    simp only [updateLinkTaskPeriod]
    split
    · exact h
    · exact h
  split
  · split
    · apply partner_valid
      exact hu
    · apply silent_valid
      exact hu
  · exact h

/-- `MDIX` after `WCHNET_PhyPNProcess` has flipped the polarity. -/
def flipped (m : BitVec 16) : BitVec 16 :=
  if test (m >>> 2) 1#16 then m &&& ~~~(3#16 <<< 2) else m ||| 1#16 <<< 2

/-- The flip turns the automatic polarity into the undefined encoding. -/
theorem flipped_valid {m : BitVec 16} (h : Valid m) :
    Valid (flipped m) ↔ pnField m ≠ pnField (phyPnSwitchAuto.setWidth 16) := by
  simp only [Valid, flipped, test_polarity] at h ⊢
  generalize hx : pnField m = x at h
  generalize hy : trField m = y at h
  split
  · rename_i ht
    rw [pnField_and, trField_and, hx, hy]
    clear hx hy
    revert x y
    decide
  · rename_i ht
    rw [pnField_or, trField_or, hx, hy]
    clear hx hy
    revert x y
    decide

theorem flipPolarity_mdix (s : State) (r : Regs) :
    (flipPolarity s r).mdix =
      if r.mmcrgufcr = 0 ∧ 3 ≤ r.mmcrfcecr then flipped s.mdix else s.mdix := by
  simp only [flipPolarity]
  split
  · rfl
  · rfl

theorem wchnetPhyPnProcess_mdix (s : State) (r : Regs) :
    (wchnetPhyPnProcess s r).mdix =
      if r.mmcrgufcr = 0 ∧ 3 ≤ r.mmcrfcecr then flipped s.mdix else s.mdix := by
  rw [← flipPolarity_mdix { s with linkSuccTime := s.localTime } r]
  simp only [wchnetPhyPnProcess]
  split
  · rfl
  · rfl

theorem polarityCheck_mdix (s : State) (r : Regs) :
    (polarityCheck s r).mdix =
      if (s.phyPolarityDetect = true ∧ 2 * phyLinkTaskPeriod ≤ s.localTime - s.linkSuccTime) ∧
        r.mmcrgufcr = 0 ∧ 3 ≤ r.mmcrfcecr then flipped s.mdix else s.mdix := by
  rw [ite_and, ← wchnetPhyPnProcess_mdix]
  simp only [polarityCheck]
  split
  · rfl
  · rfl

theorem handle_valid {s : State} (hj : NoReInit s) (h : Valid s.mdix) (r : Regs) :
    Valid (wchnetHandlePhyNegotiation s r).mdix ↔ Steady s (.handle r) := by
  simp only [wchnetHandlePhyNegotiation, Steady, Flips]
  cases hr : s.phyLinkReset with
  | true =>
    rw [if_pos rfl]
    refine iff_of_true ?_ fun hf => absurd hf.1 (by decide)
    split
    · exact auto_valid
    · exact h
  | false =>
    rw [if_neg Bool.false_ne_true]
    by_cases hs : s.phyStatus = 0
    · rw [if_pos hs]
      refine iff_of_true ?_ fun hf => absurd hs hf.2.1
      apply linkTask_valid
      simp only [accelerateLinkProcess]
      split
      · exact h
      · exact h
    · rw [if_neg hs, reInitCheck_eq hj, polarityCheck_mdix]
      split
      · rename_i hf
        rw [flipped_valid h]
        exact ⟨fun hne _ => hne, fun himp => himp ⟨rfl, hs, hf⟩⟩
      · rename_i hf
        exact iff_of_true h fun hc => absurd hc.2.2 hf

theorem phyLink_valid {s : State} (h : Valid s.mdix) (r : LinkRegs) :
    Valid (ethPhyLink s r).mdix := by
  have hpar : Valid (parallelDetection s).mdix := by
    simp only [parallelDetection, selectPolarity]
    split
    · split
      · exact (by decide : Valid (phyPnSwitchN.setWidth 16))
      · exact (by decide : Valid (phyPnSwitchP.setWidth 16))
    · exact h
  have hneg : Valid (negotiated s r).mdix := by
    simp only [negotiated]
    split
    · exact h
    · exact h
  have hdown : Valid (linkDown s).mdix := by
    obtain ⟨stat, time, he⟩ := linkDown_eq s
    rw [he]
    exact h
  simp only [ethPhyLink]
  split
  · split
    · split
      · split
        · exact hpar
        · exact auto_valid
      · exact hneg
    · exact h
  · exact hdown

/-- In a run both fields of `MDIX` stay valid throughout exactly if the polarity is never
flipped while it is automatic. -/
theorem mdix_fields_valid (localTime chipId extenCtr : BitVec 32) (mac3 mac4 mac5 : BitVec 8)
    (acts : List Act) :
    Throughout step FieldsValid (init localTime chipId extenCtr mac3 mac4 mac5) acts ↔
      Meets step Steady (init localTime chipId extenCtr mac3 mac4 mac5) acts := by
  have hj : NoReInit (init localTime chipId extenCtr mac3 mac4 mac5) := rfl
  have h0 : FieldsValid (init localTime chipId extenCtr mac3 mac4 mac5) := auto_valid
  apply throughout_iff_meets (J := NoReInit) _ _ hj h0
  · intro s a
    exact step_noReInit s a.event
  · intro s a hj h
    cases a with
    | tick timperiod => exact iff_of_true h trivial
    | handle r => exact handle_valid hj h r
    | phyLink r => exact iff_of_true (phyLink_valid h r) trivial

/-- A link comes up while the polarity is automatic, and 100 ms later three frames have
failed their CRC and none was good. -/
def flipOnAuto : List Act :=
  [.phyLink ⟨0x0024, 0x1000, 0x0021, 0⟩, .tick 100, .handle ⟨0, 0, 0, 0, 0, 0, 3, 0⟩]

theorem mdix_undefined_polarity :
    ¬ Throughout step FieldsValid (init 0 0 0 0 0 0) flipOnAuto := fun h =>
  absurd h.last (by decide +kernel)

end EthDriver.MdixFields

import EthDriver.PbufPool
import EthDriver.RxLoops

namespace EthDriver.RxLength

open Bits Descriptors Pbufs Runs RxRing RxInvariant PbufPool

variable {n : ℕ}

/-- The frame length field of a status word, the CRC included. -/
def fl (status : BitVec 32) : ℕ :=
  ((status &&& ethDmaRxDescFl) >>> ethDmaRxDescFrameLengthShift).toNat

theorem fl_lt (status : BitVec 32) : fl status < 16384 := by
  have hle : (status &&& ethDmaRxDescFl).toNat ≤ ethDmaRxDescFl.toNat := by
    rw [BitVec.toNat_and]
    exact Nat.and_le_right
  have hmask : ethDmaRxDescFl.toNat = 16383 * 65536 := by decide
  rw [fl, BitVec.toNat_ushiftRight, Nat.shiftRight_eq_div_pow, ethDmaRxDescFrameLengthShift]
  omega

theorem frameLen_toNat (status : BitVec 32) :
    (frameLen status).toNat = (65532 + fl status) % 65536 := by
  have hlt := fl_lt status
  have hmod : fl status % 2 ^ 16 = fl status := Nat.mod_eq_of_lt (by omega)
  rw [frameLen, BitVec.toNat_sub, BitVec.toNat_setWidth, ← fl, hmod]
  rfl

/-- From four bytes on the subtraction is exact. -/
theorem frameLen_of_le {status : BitVec 32} (h : 4 ≤ fl status) :
    (frameLen status).toNat = fl status - 4 := by
  have hlt := fl_lt status
  rw [frameLen_toNat]
  omega

/-- The source and the length that `low_level_input` passes on to `pbuf_alloc` and
`pbuf_take`. -/
def asked : RxRing.Pc → Option (ℕ × BitVec 16)
  | .alloc src len | .take src len _ => some (src, len)
  | _ => none

/-- What `low_level_input` knows about the descriptor it works on. -/
structure Vetted (s : State n) : Prop where
  tested : Tested s
  length : ∀ src len, asked s.pc = some (src, len) → len = frameLen s.status

theorem Vetted.of_asked {s : State n} (h : Vetted s) {src : ℕ} {len : BitVec 16}
    (ha : asked s.pc = some (src, len)) :
    CpuOwned s s.pDmaRxSet ∧ good s.status = true ∧ src = (s.desc s.pDmaRxSet).buffer1Addr ∧
      len = frameLen s.status := by
  have hlen := h.length src len ha
  have ht := h.tested
  cases hpc : s.pc with
  | alloc | take =>
    simp only [hpc, asked, Option.some.injEq, Prod.mk.injEq] at ha
    simp only [Tested, hpc] at ht
    obtain ⟨rfl, rfl⟩ := ha
    exact ⟨ht.1, ht.2.1, ht.2.2, hlen⟩
  | idle | own | es | fs | ls | len | addr | discard | discardNext | free | freeNext | resume
  | retNull | ret =>
    rw [hpc] at ha
    cases ha

theorem vetted_of_rest {s : State n} (ht : Tested s) (ha : asked s.pc = none) : Vetted s := by
  refine ⟨ht, fun src len h => ?_⟩
  rw [ha] at h
  cases h

theorem Vetted.cpuStep {s : State n} (h : Vetted s) (q : Option Pbuf) : Vetted (cpuStep s q) := by
  have ht := h.tested
  have hnext := h.tested.cpuStep q
  cases hpc : s.pc with
  | addr len =>
    simp only [Tested, hpc] at ht
    simp only [RxRing.cpuStep, hpc] at hnext ⊢
    obtain ⟨-, -, rfl⟩ := ht
    exact ⟨hnext, fun src len ha => (Prod.mk.inj (Option.some.inj ha)).2.symm⟩
  | alloc src len =>
    have hlen := h.length src len (by rw [hpc]; rfl)
    cases q with
    | none =>
      simp only [RxRing.cpuStep, hpc] at hnext ⊢
      exact vetted_of_rest hnext rfl
    | some p =>
      simp only [RxRing.cpuStep, hpc] at hnext ⊢
      refine ⟨hnext, fun src' len' ha => ?_⟩
      rw [← (Prod.mk.inj (Option.some.inj ha)).2]
      exact hlen
  | own | es | fs | ls =>
    apply vetted_of_rest hnext
    simp only [RxRing.cpuStep, hpc, State.goto]
    split <;> rfl
  | idle | len | discard | discardNext | take | free | freeNext | resume | retNull | ret =>
    apply vetted_of_rest hnext
    simp [RxRing.cpuStep, hpc, State.goto, asked]

/-- The descriptor under examination stays as it is while the task does not move. -/
theorem Vetted.congr {s t : State n} (h : Vetted s) (hpc : t.pc = s.pc)
    (hset : t.pDmaRxSet = s.pDmaRxSet)
    (hdesc : CpuOwned s s.pDmaRxSet → t.desc s.pDmaRxSet = s.desc s.pDmaRxSet) : Vetted t := by
  refine ⟨h.tested.congr hpc hset hdesc, fun src len ha => ?_⟩
  rw [hpc] at ha
  obtain ⟨ho, -, -, hlen⟩ := h.of_asked ha
  rw [State.status, hset, hdesc ho]
  exact hlen

theorem Vetted.dmaStep {s : State n} (h : Vetted s) (a : DmaAct) : Vetted (dmaStep s a) := by
  obtain ⟨hset, hpc⟩ := RxLoops.dmaStep_task s a
  exact h.congr hpc hset fun ho => RxLoops.dmaStep_desc ho a

theorem Vetted.pollDemand {s : State n} (h : Vetted s) : Vetted s.pollDemand := by
  obtain ⟨suspended, he⟩ := RxLoops.pollDemand_eq s
  rw [he]
  exact h.congr rfl rfl fun _ => rfl

theorem Vetted.call {s : State n} (h : Vetted s) : Vetted (call s) := by
  cases hpc : s.pc with
  | idle | retNull | ret =>
    simp only [RxRing.call, hpc]
    exact vetted_of_rest trivial rfl
  | own | es | fs | ls | len | addr | discard | discardNext | alloc | take | free | freeNext
  | resume =>
    simp only [RxRing.call, hpc]
    exact h

theorem Vetted.step {s : State n} (h : Vetted s) (a : Act) : Vetted (step s a) := by
  cases a with
  | call => exact h.call
  | cpu q => exact h.cpuStep q
  | dma a => exact h.dmaStep a
  | poll => exact h.pollDemand

/-- What a frame may ask for: its length without the CRC, no more than one buffer holds,
and three pool buffers. -/
structure FrameFits (d : Desc (n + 1)) (src : ℕ) (len : BitVec 16) : Prop where
  length : (len.toNat : ℤ) = fl d.status - 4
  small : len.toNat ≤ 1520
  taken : ∀ free, poolTaken free len ≤ 3
  pool : ∀ free, 3 ≤ free → (pbufAlloc free len).1.isSome
  inside : d.buffer1Addr ≤ src ∧ src + len.toNat ≤ d.buffer1Addr + ethMaxPacketSize

/-- Whether a frame fits is decided by its length field alone. -/
theorem frameFits_iff {d : Desc (n + 1)} (h : fl d.status ≤ ethMaxPacketSize) :
    FrameFits d d.buffer1Addr (frameLen d.status) ↔ 4 ≤ fl d.status := by
  constructor
  · intro hf
    have hlen := hf.length
    omega
  · intro hge
    have hlen := frameLen_of_le hge
    simp only [ethMaxPacketSize] at h
    have hneed : needed (frameLen d.status).toNat ≤ 3 :=
      needed_le_iff.mpr ⟨by decide, by rw [hlen, pbufPoolBufsize]; omega⟩
    refine ⟨by omega, by omega, fun free => ?_, fun free hfree => ?_, ?_⟩
    · rw [poolTaken_eq]
      omega
    · rw [pbufAlloc_isSome, decide_eq_true_eq]
      omega
    · rw [hlen, ethMaxPacketSize]
      omega

/-- Every frame that is asked for and not longer than a buffer fits. -/
def Fits (s : State n) : Prop :=
  ∀ src len, asked s.pc = some (src, len) → fl s.status ≤ ethMaxPacketSize →
    FrameFits (s.desc s.pDmaRxSet) src len

/-- `ETH_RecPeek` returns a frame. -/
def reports (s : State n) : Act → Bool
  | .cpu _ => match s.pc with
    | .addr _ => true
    | _ => false
  | _ => false

/-- A frame that is returned has at least the four bytes of the CRC. -/
def NoRunt (s : State n) (a : Act) : Prop := reports s a = true → 4 ≤ fl s.status

instance (s : State n) (a : Act) : Decidable (NoRunt s a) :=
  inferInstanceAs (Decidable (_ → _))

theorem fits_of_rest {s : State n} (h : asked s.pc = none) : Fits s := by
  intro src len ha
  rw [h] at ha
  cases ha

theorem Fits.congr {s t : State n} (h : Fits s)
    (hasked : ∀ x, asked t.pc = some x → asked s.pc = some x ∧
      t.desc t.pDmaRxSet = s.desc s.pDmaRxSet) : Fits t := by
  intro src len ha hle
  obtain ⟨hs, hdesc⟩ := hasked _ ha
  rw [State.status, hdesc] at hle
  rw [hdesc]
  exact h src len hs hle

/-- An access other than the return of `ETH_RecPeek` asks for what was asked for before,
or for nothing. -/
theorem cpuStep_asked {s : State n} (q : Option Pbuf) (h : reports s (.cpu q) = false)
    {x : ℕ × BitVec 16} (hx : asked (cpuStep s q).pc = some x) :
    asked s.pc = some x ∧ (cpuStep s q).desc (cpuStep s q).pDmaRxSet = s.desc s.pDmaRxSet := by
  cases hpc : s.pc with
  | addr => simp [reports, hpc] at h
  | alloc src len =>
    cases q with
    | none =>
      simp only [cpuStep, hpc] at hx
      cases hx
    | some p =>
      simp only [cpuStep, hpc] at hx ⊢
      exact ⟨hx, rfl⟩
  | own | es | fs | ls =>
    simp only [cpuStep, hpc, State.goto] at hx
    split at hx <;> cases hx
  | idle | retNull | ret | len | discard | discardNext | take | free | freeNext | resume =>
    simp only [cpuStep, hpc, State.goto] at hx
    cases hx

/-- The return of `ETH_RecPeek` passes on a frame that fits exactly if it is no runt. -/
theorem peek_fits_iff {s : State n} (h : Vetted s) {len : BitVec 16} (hpc : s.pc = .addr len)
    (q : Option Pbuf) : Fits (cpuStep s q) ↔ 4 ≤ fl s.status := by
  have ht := h.tested
  simp only [Tested, hpc] at ht
  obtain ⟨-, -, rfl⟩ := ht
  simp only [cpuStep, hpc, Fits, asked, Option.some.injEq, Prod.mk.injEq]
  constructor
  · intro hf
    by_cases hle : fl s.status ≤ ethMaxPacketSize
    · exact (frameFits_iff hle).mp (hf _ _ ⟨rfl, rfl⟩ hle)
    · have hmax : 4 ≤ ethMaxPacketSize := by decide
      omega
  · rintro hge src len ⟨rfl, rfl⟩ hle
    exact (frameFits_iff hle).mpr hge

theorem step_fits_iff (s : State n) (a : Act) (h : Vetted s) (hf : Fits s) :
    Fits (step s a) ↔ NoRunt s a := by
  cases hr : reports s a with
  | true =>
    cases a with
    | cpu q =>
      cases hpc : s.pc with
      | addr len =>
        exact (peek_fits_iff h hpc q).trans ⟨fun hge _ => hge, fun hge => hge hr⟩
      | idle | own | es | fs | ls | len | discard | discardNext | alloc | take | free | freeNext
      | resume | retNull | ret => simp [reports, hpc] at hr
    | call | dma | poll => cases hr
  | false =>
    have hrunt : NoRunt s a := by simp [NoRunt, hr]
    refine iff_of_true ?_ hrunt
    cases a with
    | cpu q => exact hf.congr fun x hx => cpuStep_asked q hr hx
    | dma a =>
      obtain ⟨hset, hpc⟩ := RxLoops.dmaStep_task s a
      apply hf.congr
      rintro ⟨src, len⟩ hx
      rw [step, hpc] at hx
      rw [step, hset, RxLoops.dmaStep_desc (h.of_asked hx).1 a]
      exact ⟨hx, rfl⟩
    | call =>
      cases hpc : s.pc with
      | idle | retNull | ret =>
        simp only [step, call, hpc]
        exact fits_of_rest rfl
      | own | es | fs | ls | len | addr | discard | discardNext | alloc | take | free | freeNext
      | resume =>
        simp only [step, call, hpc]
        exact hf
    | poll =>
      obtain ⟨suspended, he⟩ := RxLoops.pollDemand_eq s
      rw [step, he]
      exact hf.congr fun x hx => ⟨hx, rfl⟩

/-- From any ring content, under any order of accesses of the task and the DMA: what is
asked of lwIP for a frame of at most a buffer fits exactly if no frame returned by
`ETH_RecPeek` is shorter than its CRC. -/
theorem rx_length_fits (n : ℕ) (s : State n) (acts : List Act) :
    Throughout step Fits (s.goto .idle) acts ↔ Meets step NoRunt (s.goto .idle) acts := by
  have hv : Vetted (s.goto .idle) := vetted_of_rest trivial rfl
  exact throughout_iff_meets (fun _ a h => Vetted.step h a) step_fits_iff hv (fits_of_rest rfl) acts

/-- A frame of two bytes, accepted as good. -/
theorem rx_length_wraps :
    let s := run step (init (ethRxBufNb - 1) fun _ => 0)
      (.dma (.close 0x00020000 true) :: .call :: List.replicate 6 (.cpu none))
    s.pc = .alloc 0 0xFFFE ∧ fl s.status = 2 ∧ ¬ Fits s ∧
      poolTaken pbufPoolSize 0xFFFE = pbufPoolSize ∧
      pbufAlloc pbufPoolSize 0xFFFE = (none, pbufPoolSize) := by
  intro s
  have hpc : s.pc = .alloc 0 0xFFFE := by decide +kernel
  have hfl : fl s.status = 2 := by decide +kernel
  refine ⟨hpc, hfl, fun hf => ?_, by decide +kernel, by decide +kernel⟩
  have hfit := hf 0 0xFFFE (by rw [hpc]; rfl) (by rw [hfl]; decide)
  have hsmall := hfit.small
  revert hsmall
  decide

end EthDriver.RxLength

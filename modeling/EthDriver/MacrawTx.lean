import EthDriver.TxOutput

namespace EthDriver.MacrawTx

open Bits Bytes Descriptors Pbufs Runs TxRing TxInvariant TxOutput

variable {n : ℕ}

def ethError : BitVec 32 := 0
def ethSuccess : BitVec 32 := 1

/-- `MACRAW_Tx`, with no DMA activity in between. Its writes to `DMASR` and `DMATPDR` leave
the ring as it is. -/
def macrawTx (r : RingState n) (buff : List UInt8) (len : BitVec 16) : RingState n × BitVec 32 :=
  if test r.target.status ethDmaTxDescOwn then (r, ethError)
  else
    let r := r.setTarget
      { r.target with controlBufferSize := len.setWidth 32 &&& ethDmaTxDescTbs1 }
    let r := r.fill (buff.take len.toNat)
    let r := r.setTarget
      { r.target with status := r.target.status ||| (ethDmaTxDescLs ||| ethDmaTxDescFs) }
    let r := r.setTarget { r.target with status := r.target.status ||| ethDmaTxDescOwn }
    (r.moveTo r.target.buffer2NextDescAddr, ethSuccess)

/-- `MACRAW_Tx` of a byte string whose length is a 16-bit number. -/
def macrawTxAll (r : RingState n) (buff : List UInt8) : RingState n × BitVec 32 :=
  macrawTx r buff (BitVec.ofNat 16 buff.length)

theorem macrawTx_of_owned {r : RingState n} (h : ¬ r.Free) (buff : List UInt8) (len : BitVec 16) :
    macrawTx r buff len = (r, ethError) := by
  rw [macrawTx, if_pos (Bool.eq_true_of_not_eq_false h)]

theorem macrawTx_of_free {r : RingState n} (h : r.Free) (buff : List UInt8) (len : BitVec 16) :
    (macrawTx r buff len).2 = ethSuccess := by
  rw [macrawTx, h, if_neg Bool.false_ne_true]

/-- The length as `MACRAW_Tx` stores it is the one `ETH_SendFrame` stores. -/
theorem setWidth_totLen (p : Pbuf) :
    (BitVec.ofNat 16 p.totLen).setWidth 32 = BitVec.ofNat 32 p.totLen := by
  have hlt := p.totLen_lt
  apply BitVec.eq_of_toNat_eq
  rw [BitVec.toNat_setWidth, BitVec.toNat_ofNat, BitVec.toNat_ofNat]
  omega

/-- Up to the buffer size `MACRAW_Tx` sends what `low_level_output` sends. -/
theorem macrawTx_commit {r : RingState n} {p : Pbuf} (h : r.Free)
    (hlen : p.totLen ≤ ethMaxPacketSize) : macrawTxAll r p.bytes = (r.commit p, ethSuccess) := by
  have hlt := p.totLen_lt
  have htake : p.bytes.take (BitVec.ofNat 16 p.totLen).toNat = p.bytes := by
    rw [BitVec.toNat_ofNat, Nat.mod_eq_of_lt hlt]
    exact List.take_of_length_le (by rw [p.bytes_length])
  have hbits : ethDmaTxDescLs ||| (ethDmaTxDescFs ||| ethDmaTxDescOwn) =
      ethDmaTxDescOwn ||| (ethDmaTxDescLs ||| ethDmaTxDescFs) := by decide
  rw [macrawTxAll, p.bytes_length, macrawTx, h, if_neg Bool.false_ne_true, htake, setWidth_totLen,
    size_eq hlen]
  simp only [RingState.setTarget, RingState.fill, RingState.target, RingState.moveTo,
    RingState.commit, Function.update_self, Function.update_idem, BitVec.or_assoc, hbits]

def lowLevelOutput (s : State n) (p : Pbuf) : State n :=
  run turn (call (s.goto .idle) p) (List.replicate (p.segs.length + 11) (.cpu false))

/-- The call waits and fails only where the descriptor is the DMA's. -/
def Blocked (t : State n) : Prop :=
  match t.pc with
  | .wait _ | .ret _ (.errIf _) => ¬ (ring t).Free
  | .retry _ => False
  | _ => True

theorem Blocked.cpu {t : State n} (h : Blocked t) : Blocked (cpuStep t false) := by
  have h0 := h
  cases hpc : t.pc with
  | checkLen p =>
    simp only [cpuStep, hpc]
    split <;> exact trivial
  | getTxBuf p =>
    simp only [cpuStep, hpc]
    cases ho : test (t.desc t.dmaTxDescToSet).status ethDmaTxDescOwn with
    | true =>
      simp only [ethGetTxBuf, ho, if_true]
      exact fun hfree : (ring t).Free => Bool.false_ne_true (hfree.symm.trans ho)
    | false =>
      simp only [ethGetTxBuf, ho, Bool.false_eq_true, if_false]
      exact trivial
  | wait p =>
    simp only [Blocked, hpc] at h
    simp only [cpuStep, hpc]
    exact h
  | retry p => simp only [Blocked, hpc] at h
  | copy p dst rest off =>
    cases rest <;> simp only [cpuStep, hpc] <;> exact trivial
  | idle | ret =>
    simp only [cpuStep, hpc]
    exact h0
  | setSize | setSegment | setOwn | clearTbus | demand | advance =>
    simp only [cpuStep, hpc]
    exact trivial

theorem run_blocked {t : State n} (h : Blocked t) (k : ℕ) :
    Blocked (run turn t (List.replicate k (.cpu false))) := by
  induction k generalizing t with
  | zero => exact h
  | succ k ih =>
    rw [List.replicate_succ, run_cons]
    exact ih h.cpu

theorem completions_replicate (k : ℕ) : completions (List.replicate k (.cpu false)) = [] := by
  rw [completions, List.filterMap_eq_nil_iff]
  intro a ha
  rw [List.eq_of_mem_replicate ha]
  rfl

theorem lowLevelOutput_cases (s : State n) (p : Pbuf) :
    ∃ res, (lowLevelOutput s p).pc = .ret p res ∧
      (res = .errMem ↔ ethMaxPacketSize < p.totLen) ∧
      (res ≠ .ok → ring (lowLevelOutput s p) = ring s) ∧
      (res = .ok → (ring s).Free ∧ ring (lowLevelOutput s p) = (ring s).commit p) ∧
      (∀ b, res = .errIf b → ¬ (ring s).Free) := by
  have hmany : p.segs.length + 11 ≤
      (List.replicate (p.segs.length + 11) (Turn.cpu false)).countP isCpu := by
    rw [List.countP_replicate, if_pos (show isCpu (.cpu false) = true from rfl)]
  obtain ⟨res, hpc⟩ := call_returns s p hmany
  have hprog := progress_call s p (List.replicate (p.segs.length + 11) (.cpu false))
  rw [completions_replicate] at hprog
  obtain ⟨-, hmem, herr, hok⟩ := hprog.returned hpc
  refine ⟨res, hpc, hmem, herr, fun he => ?_, ?_⟩
  · obtain ⟨before, after, hcs, hfree, hring⟩ := hok he
    obtain ⟨rfl, rfl⟩ := List.append_eq_nil_iff.mp hcs.symm
    exact ⟨hfree, hring⟩
  · rintro b rfl hfree
    have hb : Blocked (lowLevelOutput s p) := run_blocked (t := call (s.goto .idle) p) trivial _
    have hring : ring (lowLevelOutput s p) = ring s := herr (fun he => by cases he)
    have hpc' : (lowLevelOutput s p).pc = .ret p (.errIf b) := hpc
    simp only [Blocked, hpc', hring] at hb
    exact hb hfree

/-- Both leave the same ring, and one succeeds exactly if the other does. -/
def Agree (s : State n) (p : Pbuf) : Prop :=
  let m := macrawTxAll (ring s) p.bytes
  let t := lowLevelOutput s p
  m.1 = ring t ∧ (m.2 = ethSuccess ↔ t.pc = .ret p .ok)

theorem agree_of_owned {s : State n} (h : ¬ (ring s).Free) (p : Pbuf) : Agree s p := by
  obtain ⟨res, hpc, -, herr, hok, -⟩ := lowLevelOutput_cases s p
  have hres : res ≠ .ok := fun he => h (hok he).1
  have hm : macrawTxAll (ring s) p.bytes = (ring s, ethError) := macrawTx_of_owned h _ _
  simp only [Agree, hm, hpc]
  refine ⟨(herr hres).symm, iff_of_false (by decide) fun he => ?_⟩
  exact hres (Pc.ret.inj he).2

theorem agree_of_fits {s : State n} (h : (ring s).Free) {p : Pbuf}
    (hlen : p.totLen ≤ ethMaxPacketSize) : Agree s p := by
  obtain ⟨res, hpc, hmem, -, hok, hif⟩ := lowLevelOutput_cases s p
  have hres : res = .ok := by
    cases res with
    | ok => rfl
    | errMem => exact absurd (hmem.mp rfl) (Nat.not_lt_of_ge hlen)
    | errIf b => exact absurd h (hif b rfl)
  subst hres
  simp only [Agree, macrawTx_commit h hlen, hpc]
  exact ⟨(hok rfl).2.symm, trivial⟩

/-- A frame that is too long is refused on one path only. -/
theorem not_agree_of_long {s : State n} (h : (ring s).Free) {p : Pbuf}
    (hlen : ethMaxPacketSize < p.totLen) : ¬ Agree s p := by
  obtain ⟨res, hpc, hmem, -⟩ := lowLevelOutput_cases s p
  obtain rfl := hmem.mpr hlen
  rintro ⟨-, hiff⟩
  have hret := hiff.mp (macrawTx_of_free h _ _)
  rw [hpc] at hret
  cases hret

/-- The two transmit paths agree on a frame exactly if it fits into a buffer or the DMA owns
the next descriptor: `MACRAW_Tx` does not check the length. -/
theorem tx_paths_agree (s : State n) (p : Pbuf) :
    (∃ res, (lowLevelOutput s p).pc = .ret p res) ∧
    (Agree s p ↔ p.totLen ≤ ethMaxPacketSize ∨ DmaOwned s s.dmaTxDescToSet) := by
  obtain ⟨res, hpc, -⟩ := lowLevelOutput_cases s p
  refine ⟨⟨res, hpc⟩, ?_⟩
  by_cases hfree : (ring s).Free
  · by_cases hlen : p.totLen ≤ ethMaxPacketSize
    · exact iff_of_true (agree_of_fits hfree hlen) (.inl hlen)
    · refine iff_of_false (not_agree_of_long hfree (Nat.lt_of_not_le hlen)) ?_
      rintro (hle | hown)
      · exact hlen hle
      · exact Bool.false_ne_true (hfree.symm.trans hown)
  · exact iff_of_true (agree_of_owned hfree p) (.inr (Bool.eq_true_of_not_eq_false hfree))

def longFrame : Pbuf where
  segs := [List.replicate (ethMaxPacketSize + 1) 0xFF]
  totLen := ethMaxPacketSize + 1
  totLen_eq := by simp
  totLen_lt := by decide

/-- `MACRAW_Tx` accepts it and writes into the buffer behind. -/
theorem macraw_tx_overruns :
    let s : State (ethTxBufNb - 1) := init (fun i => ⟨0, 0, 0, i⟩) fun _ => 0
    let m := macrawTxAll (ring s) longFrame.bytes
    m.2 = ethSuccess ∧ (lowLevelOutput s longFrame).pc = .ret longFrame .errMem ∧
      m.1.mem ethMaxPacketSize = 0xFF ∧
      (ring (lowLevelOutput s longFrame)).mem ethMaxPacketSize = 0 ∧ ¬ Agree s longFrame := by
  intro s m
  have hfree : (ring s).Free := by decide
  have hlong : ethMaxPacketSize < longFrame.totLen := by decide
  refine ⟨macrawTx_of_free hfree _ _, rfl, ?_, rfl, not_agree_of_long hfree hlong⟩
  decide +kernel

end EthDriver.MacrawTx

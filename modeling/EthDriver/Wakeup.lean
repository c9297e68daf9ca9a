import EthDriver.Board

namespace EthDriver.Wakeup

open Bits Bytes Descriptors Pbufs Runs Board

variable {nr nt : ℕ}

inductive Chan
  | rx
  | tx

def bit : Chan → BitVec 32
  | .rx => ethDmaItR
  | .tx => ethDmaItT

def signal : Chan → IsrOp
  | .rx => .rxSignal
  | .tx => .txSignal

def token (s : State nr nt) : Chan → Bool
  | .rx => s.ethRxSemaphore
  | .tx => s.ethTxSemaphore

/-- A wake-up is on its way: the token is there, the event is pending in `DMASR`,
or the handler in progress is still to give the token. -/
def Promised (c : Chan) (s : State nr nt) : Prop :=
  token s c = true ∨ test s.dmasr (bit c) = true ∨ ∃ ops, s.isr = some ops ∧ signal c ∈ ops

/-- In the accesses the handler still has to make, no clear of the event's bit
comes before the token is given. -/
def Ordered (c : Chan) : Bool → List IsrOp → Prop
  | _, [] => True
  | given, op :: ops =>
    (∀ bits, op = .clear bits → test bits (bit c) = true → given = true) ∧
      Ordered c (given || decide (op = signal c)) ops

theorem Ordered.mono {c : Chan} {ops : List IsrOp} {given : Bool} (h : Ordered c given ops) :
    Ordered c true ops := by
  induction ops generalizing given with
  | nil => trivial
  | cons op ops ih => exact ⟨fun _ _ _ => rfl, by simpa using ih h.2⟩

/-- `WCHNET_ETHIsr` gives each token before it clears the event. -/
theorem wchnetEthIsr_ordered (c : Chan) (intSta : BitVec 32) :
    Ordered c false (wchnetEthIsr intSta) := by
  simp only [wchnetEthIsr]
  cases c <;> cases test intSta ethDmaItAis <;> cases test intSta ethDmaItRbu <;>
    cases test intSta ethDmaItNis <;> cases test intSta ethDmaItR <;>
    cases test intSta ethDmaItT <;>
    simp [Ordered, signal, bit] <;> decide

theorem signal_mem (c : Chan) (intSta : BitVec 32) :
    signal c ∈ wchnetEthIsr intSta → test intSta (bit c) = true := by
  simp only [wchnetEthIsr]
  cases c <;> simp only [signal, bit] <;> cases test intSta ethDmaItAis <;>
    cases test intSta ethDmaItRbu <;> cases test intSta ethDmaItNis <;>
    cases test intSta ethDmaItR <;> cases test intSta ethDmaItT <;> simp

theorem readDmasr_bit (c : Chan) (pending : BitVec 32) :
    test (readDmasr pending) (bit c) = test pending (bit c) := by
  rw [readDmasr, test_or, test_or, test_ite, test_ite]
  have hn : test ethDmaItNis (bit c) = false := by cases c <;> decide
  have ha : test ethDmaItAis (bit c) = false := by cases c <;> decide
  simp [hn, ha]

/-- The handler in progress is at an ordered rest of its accesses. -/
def IsrInv (s : State nr nt) : Prop := ∀ c ops, s.isr = some ops → Ordered c (token s c) ops

theorem isrInv_of_none {s : State nr nt} (hi : s.isr = none) : IsrInv s := fun c ops hops => by
  cases hi.symm.trans hops

theorem isrStep_isrInv {s : State nr nt} (h : IsrInv s) : IsrInv (isrStep s) := by
  intro c ops hops
  cases hi : s.isr with
  | none =>
    simp only [isrStep, hi] at hops ⊢
    split at hops
    · rename_i hp
      rw [if_pos hp]
      simp only [Option.some.injEq] at hops
      subst hops
      have ho := wchnetEthIsr_ordered c (readDmasr s.dmasr)
      change Ordered c (token s c) _
      cases token s c
      · exact ho
      · exact ho.mono
    · rw [hi] at hops
      cases hops
  | some l =>
    have ho := h c l hi
    cases l with
    | nil => simp [isrStep, hi] at hops
    | cons op l =>
      simp only [isrStep, hi, Option.some.injEq] at hops ⊢
      subst hops
      have htok : token { isrOp s op with isr := some l } c =
          (token s c || decide (op = signal c)) := by
        cases op <;> cases c <;> simp [isrOp, token, signal]
      rw [htok]
      exact ho.2

/-- The handler neither loses a wake-up nor makes one up. -/
theorem isrStep_promised {s : State nr nt} (h : IsrInv s) (c : Chan) :
    Promised c (isrStep s) ↔ Promised c s := by
  cases hi : s.isr with
  | none =>
    simp only [isrStep, hi]
    split
    · have hm := signal_mem c (readDmasr s.dmasr)
      rw [readDmasr_bit] at hm
      simp only [Promised, hi, Option.some.injEq, reduceCtorEq, false_and, exists_false, or_false,
        exists_eq_left']
      exact ⟨fun hp => hp.imp_right fun hp => hp.elim id hm, fun hp => hp.imp_right .inl⟩
    · exact Iff.rfl
  | some l =>
    cases l with
    | nil => simp [isrStep, hi, Promised, token]
    | cons op l =>
      have ho := (h c _ hi).1
      simp only [isrStep, hi, Promised, Option.some.injEq, exists_eq_left', List.mem_cons]
      cases op with
      | pollDemand => cases c <;> simp [isrOp, token, signal]
      | rxSignal => cases c <;> simp [isrOp, token, signal]
      | txSignal => cases c <;> simp [isrOp, token, signal]
      | clear bits =>
        have hne : signal c ≠ .clear bits := by cases c <;> simp [signal]
        have htok : token { isrOp s (.clear bits) with isr := some l } c = token s c := by
          cases c <;> rfl
        rw [htok]
        simp only [isrOp, hne, false_or]
        cases hb : test bits (bit c) with
        | true => simp [ho bits rfl hb]
        | false => rw [test_clear_of_not _ hb]

/-- What a stretch of DMA accesses does to the receive side: the task's position
stays, and if a descriptor changes hands a piece has arrived. -/
structure Grown {n : ℕ} (s t : RxRing.State n) : Prop where
  pc : t.pc = s.pc
  set : t.pDmaRxSet = s.pDmaRxSet
  frames : s.frames <+: t.frames
  desc : t.desc = s.desc ∧ RxRing.arrived t = RxRing.arrived s ∨
    (RxRing.arrived s).length < (RxRing.arrived t).length

theorem dmaStep_grown {n : ℕ} (s : RxRing.State n) (a : RxRing.DmaAct) :
    Grown s (RxRing.dmaStep s a) := by
  have hrefl : Grown s s := ⟨rfl, rfl, List.prefix_rfl, .inl ⟨rfl, rfl⟩⟩
  cases a with
  | fill off data =>
    simp only [RxRing.dmaStep]
    split
    · exact ⟨rfl, rfl, List.prefix_rfl, .inl ⟨rfl, rfl⟩⟩
    · exact hrefl
  | close status last =>
    simp only [RxRing.dmaStep]
    split
    · refine ⟨rfl, rfl, ?_, .inr ?_⟩
      · cases last
        · exact List.prefix_rfl
        · exact List.prefix_append _ _
      · rw [RxInvariant.Inv.arrived_close]
        simp
    · exact hrefl
  | suspend =>
    simp only [RxRing.dmaStep]
    split
    · exact hrefl
    · exact ⟨rfl, rfl, List.prefix_rfl, .inl ⟨rfl, rfl⟩⟩

theorem Grown.trans {n : ℕ} {s t u : RxRing.State n} (h : Grown s t) (h' : Grown t u) :
    Grown s u := by
  refine ⟨h'.pc.trans h.pc, h'.set.trans h.set, h.frames.trans h'.frames, ?_⟩
  obtain ⟨hd, ha⟩ | hlt := h.desc
  · obtain ⟨hd', ha'⟩ | hlt' := h'.desc
    · exact .inl ⟨hd'.trans hd, ha'.trans ha⟩
    · exact .inr (ha ▸ hlt')
  · obtain ⟨-, ha'⟩ | hlt' := h'.desc
    · exact .inr (ha' ▸ hlt)
    · exact .inr (hlt.trans hlt')

theorem run_grown {n : ℕ} (s : RxRing.State n) (as : List RxRing.DmaAct) :
    Grown s (run RxRing.dmaStep s as) := by
  induction as generalizing s with
  | nil => exact ⟨rfl, rfl, List.prefix_rfl, .inl ⟨rfl, rfl⟩⟩
  | cons a as ih => exact (dmaStep_grown s a).trans (ih _)

theorem Grown.completes {n : ℕ} {s t : RxRing.State n} (h : Grown s t) (hs : s.openFrame = [])
    (ht : t.openFrame = []) (hlen : ¬ s.frames.length < t.frames.length) : t.desc = s.desc := by
  have hf : s.frames = t.frames := h.frames.eq_of_length_le (Nat.le_of_not_lt hlen)
  obtain ⟨hd, -⟩ | hlt := h.desc
  · exact hd
  · simp only [RxRing.arrived, hs, ht, hf] at hlt
    omega

/-- Every DMA access to the receive ring writes back whole frames, and
`pbuf_alloc` succeeds. -/
def WholeFrames (s : State nr nt) : Act → Prop
  | .rxDma as => (run RxRing.dmaStep s.rx as).openFrame = []
  | .netif allocated => allocated.isSome
  | _ => True

def allocated : RxRing.Pc → Bool
  | .free _ none | .freeNext none | .resume none | .ret none => false
  | _ => true

/-- The netif task will look at the ring again before it blocks. -/
def Looking (s : State nr nt) : Prop := s.netif = .drain ∧ s.rx.pc ≠ .retNull

structure Awake (s : State nr nt) : Prop where
  isr : IsrInv s
  whole : s.rx.openFrame = []
  allocated : allocated s.rx.pc = true
  rx : ¬ Looking s → RxRing.CpuOwned s.rx s.rx.pDmaRxSet → Promised .rx s
  tx : ∀ p, s.tx.pc = .wait p → ¬ TxRing.DmaOwned s.tx s.tx.dmaTxDescToSet → Promised .tx s

theorem init_awake (tab : Table (nt + 1)) (rxMem txMem : Memory) :
    Awake (init nr tab rxMem txMem) where
  isr := fun c ops hops => by simp [init] at hops
  whole := rfl
  allocated := rfl
  rx := fun _ ho => by
    change test ethDmaRxDescOwn ethDmaRxDescOwn = false at ho
    exact absurd ho (by decide)
  tx := fun p hp => by simp [init, TxRing.init] at hp

theorem Promised.mono {c : Chan} {s t : State nr nt} (h : Promised c s)
    (htok : token s c = true → token t c = true)
    (hbit : test s.dmasr (bit c) = true → test t.dmasr (bit c) = true)
    (hisr : t.isr = s.isr) : Promised c t := by
  obtain h | h | h := h
  · exact .inl (htok h)
  · exact .inr (.inl (hbit h))
  · rw [← hisr] at h
    exact .inr (.inr h)

theorem Awake.rxDma {s : State nr nt} (h : Awake s) (as : List RxRing.DmaAct)
    (hw : (run RxRing.dmaStep s.rx as).openFrame = []) : Awake (rxDma s as) := by
  have hg := run_grown s.rx as
  have hbits : ∀ c, test s.dmasr (bit c) = true → test (Board.rxDma s as).dmasr (bit c) = true :=
    fun c hb => by simp only [Board.rxDma, test_or, hb, Bool.true_or]
  refine ⟨fun c ops hops => h.isr c ops hops, hw, ?_, ?_, ?_⟩
  · have ha := h.allocated
    rw [← hg.pc] at ha
    exact ha
  · intro hl ho
    -- either a frame was completed and `R` is raised, or no descriptor changed hands
    by_cases hlen : s.rx.frames.length < (run RxRing.dmaStep s.rx as).frames.length
    · refine .inr (.inl ?_)
      have hr : test ethDmaItR (bit .rx) = true := by decide
      simp only [Board.rxDma, if_pos hlen, test_or, hr, Bool.true_or, Bool.or_true]
    · have hd := hg.completes h.whole hw hlen
      have hl' : ¬ Looking s := fun hls => hl ⟨hls.1, by
        change (run RxRing.dmaStep s.rx as).pc ≠ .retNull
        rw [hg.pc]
        exact hls.2⟩
      have ho' : RxRing.CpuOwned s.rx s.rx.pDmaRxSet := by
        simpa only [RxRing.CpuOwned, Board.rxDma, hd, hg.set] using ho
      exact (h.rx hl' ho').mono id (hbits .rx) rfl
  · intro p hp ho
    exact (h.tx p hp ho).mono id (hbits .tx) rfl

theorem Awake.txDma {s : State nr nt} (h : Awake s) (bits : BitVec 32) : Awake (txDma s bits) := by
  simp only [Board.txDma]
  split
  · refine ⟨fun c ops hops => h.isr c ops hops, h.whole, h.allocated, ?_, ?_⟩
    · intro hl ho
      exact (h.rx hl ho).mono id (fun hb => by simp only [test_or, hb, Bool.true_or]) rfl
    · intro p _ _
      have ht : test ethDmaItT (bit .tx) = true := by decide
      exact .inr (.inl (by simp only [test_or, ht, Bool.or_true]))
  · exact h

theorem pollDemand_frame {n : ℕ} (s : RxRing.State n) :
    s.pollDemand.pc = s.pc ∧ s.pollDemand.desc = s.desc ∧
      s.pollDemand.pDmaRxSet = s.pDmaRxSet ∧ s.pollDemand.openFrame = s.openFrame := by
  simp only [RxRing.State.pollDemand]
  split <;> exact ⟨rfl, rfl, rfl, rfl⟩

theorem Awake.isrStep {s : State nr nt} (h : Awake s) : Awake (isrStep s) := by
  obtain ⟨hn, htx, hrx⟩ := isrStep_frame s
  have hf : (Board.isrStep s).rx.pc = s.rx.pc ∧ (Board.isrStep s).rx.desc = s.rx.desc ∧
      (Board.isrStep s).rx.pDmaRxSet = s.rx.pDmaRxSet ∧
      (Board.isrStep s).rx.openFrame = s.rx.openFrame := by
    obtain hrx | hrx := hrx
    · rw [hrx]
      exact ⟨rfl, rfl, rfl, rfl⟩
    · rw [hrx]
      exact pollDemand_frame s.rx
  refine ⟨isrStep_isrInv h.isr, ?_, ?_, ?_, ?_⟩
  · rw [hf.2.2.2]; exact h.whole
  · rw [hf.1]; exact h.allocated
  · intro hl ho
    rw [isrStep_promised h.isr]
    simp only [Looking, RxRing.CpuOwned, hn, hf.1, hf.2.1, hf.2.2.1] at hl ho
    exact h.rx hl ho
  · rw [htx]
    intro p hp ho
    rw [isrStep_promised h.isr]
    exact h.tx p hp ho

theorem cpuStep_allocated {n : ℕ} {s : RxRing.State n} (h : allocated s.pc = true) (p : Pbuf) :
    allocated (RxRing.cpuStep s (some p)).pc = true := by
  cases hpc : s.pc <;> simp only [RxRing.cpuStep, hpc, RxRing.State.goto] <;> rw [hpc] at h
  case own | es | fs | ls => split <;> rfl
  case idle | retNull => rfl
  case ret q => exact h
  case free src q => cases q <;> exact h
  case freeNext q => cases q <;> exact h
  case resume q => cases q <;> exact h
  all_goals rfl

theorem cpuStep_retNull {n : ℕ} {s : RxRing.State n} {q : Option Pbuf} (hs : s.pc ≠ .retNull)
    (ht : (RxRing.cpuStep s q).pc = .retNull) :
    ¬ RxRing.CpuOwned (RxRing.cpuStep s q) (RxRing.cpuStep s q).pDmaRxSet := by
  cases hpc : s.pc <;> simp only [RxRing.cpuStep, hpc, RxRing.State.goto] at ht ⊢
  case own =>
    split at ht
    · rename_i ho
      intro hc
      exact absurd ho (by simpa [RxRing.CpuOwned, RxRing.State.status] using hc)
    · cases ht
  case es | fs | ls => split at ht <;> cases ht
  case alloc => cases q <;> cases ht
  case retNull => exact absurd hpc hs
  all_goals cases ht

theorem call_pc_ne {n : ℕ} (s : RxRing.State n) : (RxRing.call s).pc ≠ .retNull := by
  cases hpc : s.pc <;> simp [RxRing.call, hpc, RxRing.State.goto]

theorem call_allocated {n : ℕ} {s : RxRing.State n} (h : allocated s.pc = true) :
    allocated (RxRing.call s).pc = true := by
  simp only [RxRing.call]
  split
  · rfl
  · rfl
  · rfl
  · exact h

theorem call_openFrame {n : ℕ} (s : RxRing.State n) : (RxRing.call s).openFrame = s.openFrame := by
  simp only [RxRing.call]
  split <;> rfl

theorem cpuStep_openFrame {n : ℕ} (s : RxRing.State n) (q : Option Pbuf) :
    (RxRing.cpuStep s q).openFrame = s.openFrame := by
  cases hpc : s.pc <;> simp only [RxRing.cpuStep, hpc]
  case alloc => cases q <;> rfl
  case resume => exact (pollDemand_frame s).2.2.2
  all_goals rfl

theorem Awake.ofNetif {s t : State nr nt} (h : Awake s) (hi : t.isr = s.isr) (hnone : s.isr = none)
    (htx : t.tx = s.tx) (htok : token t .tx = token s .tx) (hd : t.dmasr = s.dmasr)
    (hw : t.rx.openFrame = s.rx.openFrame) (ha : Wakeup.allocated t.rx.pc = true)
    (hrx : ¬ Looking t → RxRing.CpuOwned t.rx t.rx.pDmaRxSet → Promised .rx t) : Awake t where
  isr := isrInv_of_none (hi.trans hnone)
  whole := hw.trans h.whole
  allocated := ha
  rx := hrx
  tx p hp ho := by
    rw [htx] at hp ho
    exact (h.tx p hp ho).mono (fun hb => htok.trans hb) (fun hb => by rw [hd]; exact hb) hi

theorem Awake.call {s t : State nr nt} (h : Awake s) (hi : t.isr = s.isr) (hnone : s.isr = none)
    (htx : t.tx = s.tx) (htok : token t .tx = token s .tx) (hd : t.dmasr = s.dmasr)
    (hrx : t.rx = RxRing.call s.rx) (hn : t.netif = .drain) : Awake t := by
  apply h.ofNetif hi hnone htx htok hd
  · rw [hrx, call_openFrame]
  · rw [hrx]
    exact call_allocated h.allocated
  · intro hl
    refine absurd ⟨hn, ?_⟩ hl
    rw [hrx]
    exact call_pc_ne s.rx

/-- The netif task leaves the semaphore only to look at the ring, and stops
looking only when it has found nothing. -/
theorem Awake.netifStep {s : State nr nt} (h : Awake s) (hi : s.isr = none) (p : Pbuf) :
    Awake (netifStep s (some p)) := by
  cases hn : s.netif with
  | wait =>
    simp only [Board.netifStep, hn]
    split
    · exact h.call rfl hi rfl rfl rfl rfl rfl
    · exact h
  | drain =>
    simp only [Board.netifStep, hn]
    split
    · rename_i hpc
      exact h.ofNetif rfl hi rfl rfl rfl rfl h.allocated fun _ ho => h.rx (fun hl => hl.2 hpc) ho
    · rename_i hpc
      have ha := h.allocated
      rw [hpc] at ha
      cases ha
    · exact h.call rfl hi rfl rfl rfl rfl rfl
    · rename_i hnull _ _
      -- the task stops looking only by reading `OWN`, and then there is nothing to wake it for
      refine h.ofNetif rfl hi rfl rfl rfl (cpuStep_openFrame s.rx _)
        (cpuStep_allocated h.allocated p) fun hl ho => ?_
      have hpc : (RxRing.cpuStep s.rx (some p)).pc = .retNull := by
        by_contra hne
        exact hl ⟨rfl, hne⟩
      exact absurd ho (cpuStep_retNull hnull hpc)
  | rest =>
    simp only [Board.netifStep, hn]
    refine h.ofNetif rfl hi rfl rfl rfl rfl h.allocated fun _ ho => ?_
    exact h.rx (fun hl => by rw [hl.1] at hn; cases hn) ho

theorem Awake.netifTimeout {s : State nr nt} (h : Awake s) (hi : s.isr = none) :
    Awake (netifTimeout s) := by
  simp only [Board.netifTimeout]
  split
  · exact h.call rfl hi rfl rfl rfl rfl rfl
  · exact h

/-- The points of `low_level_output` from a full ring on. -/
def backedUp : TxRing.Pc → Bool
  | .wait _ | .retry _ | .ret _ (.errIf _) => true
  | _ => false

/-- How one step of `low_level_output` gets to, through and out of the wait. -/
theorem cpuStep_backedUp {n : ℕ} (s : TxRing.State n) (taken : Bool) :
    backedUp (TxRing.cpuStep s taken).pc = false ∨ TxRing.cpuStep s taken = s ∨
    (∃ p, s.pc = .getTxBuf p ∧ TxRing.DmaOwned s s.dmaTxDescToSet ∧
      TxRing.cpuStep s taken = s.goto (.wait p)) ∨
    (∃ p, s.pc = .wait p ∧
      TxRing.cpuStep s taken = s.goto (if taken then .retry p else .ret p (.errIf true))) ∨
    (∃ p, s.pc = .retry p ∧ TxRing.DmaOwned s s.dmaTxDescToSet ∧
      TxRing.cpuStep s taken = s.goto (.ret p (.errIf false))) := by
  cases hpc : s.pc with
  | getTxBuf p =>
    simp only [TxRing.cpuStep, hpc]
    cases hg : TxRing.ethGetTxBuf s with
    | some dst => exact .inl rfl
    | none =>
      have ho := (TxInvariant.ethGetTxBuf_none_iff s).mp hg
      exact .inr (.inr (.inl ⟨p, rfl, ho, rfl⟩))
  | wait p => exact .inr (.inr (.inr (.inl ⟨p, rfl, by simp only [TxRing.cpuStep, hpc]⟩)))
  | retry p =>
    simp only [TxRing.cpuStep, hpc]
    cases hg : TxRing.ethGetTxBuf s with
    | some dst => exact .inl rfl
    | none =>
      have ho := (TxInvariant.ethGetTxBuf_none_iff s).mp hg
      exact .inr (.inr (.inr (.inr ⟨p, rfl, ho, rfl⟩)))
  | idle | ret => exact .inr (.inl (by simp only [TxRing.cpuStep, hpc]))
  | checkLen p => left; simp only [TxRing.cpuStep, hpc, TxRing.State.goto]; split <;> rfl
  | copy p dst rest off => left; cases rest <;> simp only [TxRing.cpuStep, hpc] <;> rfl
  | setSize | setSegment | setOwn | clearTbus | demand | advance =>
    left; simp only [TxRing.cpuStep, hpc]; rfl

theorem call_wait {n : ℕ} {s : TxRing.State n} {q p : Pbuf} (h : (TxRing.call s q).pc = .wait p) :
    TxRing.call s q = s := by
  unfold TxRing.call at h ⊢
  split at h
  · cases h
  · cases h
  · rfl

theorem Awake.ofSender {s t : State nr nt} (h : Awake s) (hi : s.isr = none)
    (hisr : t.isr = none) (hrx : t.rx = s.rx) (hn : t.netif = s.netif)
    (htok : token t .rx = token s .rx)
    (hbit : test s.dmasr (bit .rx) = true → test t.dmasr (bit .rx) = true)
    (hwait : ∀ p, t.tx.pc = .wait p → ¬ TxRing.DmaOwned t.tx t.tx.dmaTxDescToSet →
      Promised .tx t) : Awake t where
  isr := isrInv_of_none hisr
  whole := hrx ▸ h.whole
  allocated := hrx ▸ h.allocated
  rx hl ho := by
    rw [Looking, hrx, hn] at hl
    rw [hrx] at ho
    exact (h.rx hl ho).mono (fun hb => htok.trans hb) hbit (hisr.trans hi.symm)
  tx := hwait

theorem Awake.send {s : State nr nt} (h : Awake s) (hi : s.isr = none) (q : Pbuf) :
    Awake { s with tx := TxRing.call s.tx q } := by
  refine h.ofSender hi hi rfl rfl rfl id fun p hp ho => ?_
  have hs := call_wait hp
  simp only [hs] at hp ho
  exact (h.tx p hp ho).mono id id rfl

theorem cpuStep_ne_of_wait {n : ℕ} {s : TxRing.State n} {taken : Bool}
    (he : TxRing.cpuStep s taken = s) (p : Pbuf) : s.pc ≠ .wait p := by
  intro hp
  have hpc := congrArg TxRing.State.pc he
  rw [hp] at hpc
  simp only [TxRing.cpuStep, hp, TxRing.State.goto] at hpc
  split at hpc <;> cases hpc

theorem Awake.cpuStep {s t : State nr nt} (h : Awake s) (hi : s.isr = none) (hisr : t.isr = none)
    (hrx : t.rx = s.rx) (hn : t.netif = s.netif) (htok : token t .rx = token s .rx)
    (hbit : test s.dmasr (bit .rx) = true → test t.dmasr (bit .rx) = true) {taken : Bool}
    (htx : t.tx = TxRing.cpuStep s.tx taken) : Awake t := by
  apply h.ofSender hi hisr hrx hn htok hbit
  intro p hp ho
  rw [htx] at hp ho
  obtain hb | he | ⟨q, -, hown, he⟩ | ⟨q, -, he⟩ | ⟨q, -, -, he⟩ := cpuStep_backedUp s.tx taken
  · rw [hp] at hb
    cases hb
  · exact absurd (he ▸ hp) (cpuStep_ne_of_wait he p)
  · rw [he] at ho
    exact absurd hown ho
  · rw [he, TxRing.State.goto] at hp
    cases taken <;> cases hp
  · rw [he] at hp
    cases hp

theorem Awake.senderStep {s : State nr nt} (h : Awake s) (hi : s.isr = none) :
    Awake (senderStep s) := by
  simp only [Board.senderStep]
  split
  · split
    · exact h.cpuStep hi hi rfl rfl rfl id rfl
    · exact h
  · refine h.cpuStep hi hi rfl rfl rfl (fun hb => ?_) rfl
    have hne : test ethDmasrTbus (bit .rx) = false := by decide
    rw [test_clear_of_not _ hne]
    exact hb
  · exact h.cpuStep hi hi rfl rfl rfl id rfl

theorem Awake.senderTimeout {s : State nr nt} (h : Awake s) (hi : s.isr = none) :
    Awake (senderTimeout s) := by
  simp only [Board.senderTimeout]
  split
  · split
    · exact h
    · exact h.cpuStep hi hi rfl rfl rfl id rfl
  · exact h

theorem Awake.step {s : State nr nt} (h : Awake s) (a : Act) (hw : WholeFrames s a) :
    Awake (step s a) := by
  cases a with
  | rxDma as => exact h.rxDma as hw
  | txDma bits => exact h.txDma bits
  | isr => exact h.isrStep
  | netif allocated =>
    obtain ⟨p, rfl⟩ := Option.isSome_iff_exists.mp hw
    exact step_task h fun hi => h.netifStep hi p
  | netifTimeout => exact step_task h fun hi => h.netifTimeout hi
  | send q => exact step_task h fun hi => h.send hi q
  | sender => exact step_task h fun hi => h.senderStep hi
  | senderTimeout => exact step_task h fun hi => h.senderTimeout hi

theorem Promised.of_isr_none {c : Chan} {s : State nr nt} (h : Promised c s) (hi : s.isr = none) :
    test s.dmasr (bit c) = true ∨ token s c = true := by
  obtain h | h | ⟨ops, hops, -⟩ := h
  · exact .inr h
  · exact .inl h
  · cases hi.symm.trans hops

/-- The task that takes the token of the channel, blocked on it. -/
def Blocked (c : Chan) (s : State nr nt) : Prop :=
  match c with
  | .rx => s.netif = .wait
  | .tx => ∃ p, s.tx.pc = .wait p

/-- What the hardware and the other task do. -/
def others : Chan → Act → Bool
  | .rx, .netif _ | .rx, .netifTimeout => false
  | .tx, .sender | .tx, .senderTimeout => false
  | _, _ => true

def isIsr : Act → Bool
  | .isr => true
  | _ => false

def isrSteps (as : List Act) : ℕ := as.countP isIsr

/-- The accesses of one handler, its entry and its return. -/
def isrLength : ℕ := 10

theorem isrSteps_cons (a : Act) (as : List Act) :
    isrSteps (a :: as) = isrSteps as + if isIsr a then 1 else 0 := List.countP_cons

theorem wchnetEthIsr_length (intSta : BitVec 32) :
    (wchnetEthIsr intSta).length + 2 ≤ isrLength := by
  simp only [wchnetEthIsr]
  cases test intSta ethDmaItAis <;> cases test intSta ethDmaItRbu <;>
    cases test intSta ethDmaItNis <;> cases test intSta ethDmaItR <;>
    cases test intSta ethDmaItT <;> decide

/-- The handler entered while the event is pending gives the token. -/
theorem signal_mem_pending {c : Chan} {pending : BitVec 32} (h : test pending (bit c) = true) :
    signal c ∈ wchnetEthIsr (readDmasr pending) := by
  have hc := readDmasr_bit c pending
  rw [h] at hc
  have hsource : test pending (ethDmaItR ||| ethDmaItT) = true := by
    rw [test_mask_or]
    cases c
    · rw [show bit .rx = ethDmaItR from rfl] at h
      rw [h, Bool.true_or]
    · rw [show bit .tx = ethDmaItT from rfl] at h
      rw [h, Bool.or_true]
  have hnis : test (readDmasr pending) ethDmaItNis = true := by
    have hself : test ethDmaItNis ethDmaItNis = true := by decide
    rw [readDmasr, if_pos hsource, test_or, test_or, hself]
    simp
  cases c
  · rw [show bit .rx = ethDmaItR from rfl] at hc
    simp [wchnetEthIsr, hnis, hc, signal]
  · rw [show bit .tx = ethDmaItT from rfl] at hc
    simp [wchnetEthIsr, hnis, hc, signal]

theorem txDma_frame (s : State nr nt) (bits : BitVec 32) (c : Chan) :
    (txDma s bits).isr = s.isr ∧ token (txDma s bits) c = token s c ∧
      (Blocked c s → Blocked c (txDma s bits)) ∧
      (test s.dmasr (bit c) = true → test (txDma s bits).dmasr (bit c) = true) := by
  simp only [txDma]
  split
  · rename_i ho
    refine ⟨rfl, by cases c <;> rfl, fun hb => ?_,
      fun hb => by simp only [test_or, hb, Bool.true_or]⟩
    cases c with
    | rx => exact hb
    | tx =>
      obtain ⟨p, hp⟩ := hb
      refine ⟨p, ?_⟩
      simp only [TxRing.complete, if_pos ho]
      exact hp
  · exact ⟨rfl, rfl, id, id⟩

theorem rxDma_frame (s : State nr nt) (as : List RxRing.DmaAct) (c : Chan) :
    (rxDma s as).isr = s.isr ∧ token (rxDma s as) c = token s c ∧
      (Blocked c s → Blocked c (rxDma s as)) ∧
      (test s.dmasr (bit c) = true → test (rxDma s as).dmasr (bit c) = true) := by
  refine ⟨rfl, by cases c <;> rfl, fun hb => by cases c <;> exact hb, fun hb => ?_⟩
  simp only [rxDma, test_or, hb, Bool.true_or]

/-- The other task neither takes the token nor clears the event. -/
theorem taskStep_frame {s : State nr nt} {c : Chan} {a : Act} (ha : others c a = true)
    (hb : Blocked c s) :
    (taskStep s a).isr = s.isr ∧ token (taskStep s a) c = token s c ∧ Blocked c (taskStep s a) ∧
      (test s.dmasr (bit c) = true → test (taskStep s a).dmasr (bit c) = true) := by
  cases c with
  | rx =>
    have hn : ∀ t : State nr nt, t.netif = s.netif → Blocked .rx t := fun t ht => ht.trans hb
    cases a with
    | netif | netifTimeout => cases ha
    | rxDma | txDma | isr => exact ⟨rfl, rfl, hb, id⟩
    | send p => exact ⟨rfl, rfl, hn _ rfl, id⟩
    | sender =>
      simp only [taskStep, senderStep]
      split
      · split
        · exact ⟨rfl, rfl, hn _ rfl, id⟩
        · exact ⟨rfl, rfl, hb, id⟩
      · refine ⟨rfl, rfl, hn _ rfl, fun hp => ?_⟩
        have hne : test ethDmasrTbus (bit .rx) = false := by decide
        rw [test_clear_of_not _ hne]
        exact hp
      · exact ⟨rfl, rfl, hn _ rfl, id⟩
    | senderTimeout =>
      simp only [taskStep, senderTimeout]
      split
      · split
        · exact ⟨rfl, rfl, hb, id⟩
        · exact ⟨rfl, rfl, hn _ rfl, id⟩
      · exact ⟨rfl, rfl, hb, id⟩
  | tx =>
    obtain ⟨p, hp⟩ := hb
    have hn : ∀ t : State nr nt, t.tx = s.tx → Blocked .tx t := fun t ht => ⟨p, ht ▸ hp⟩
    cases a with
    | sender | senderTimeout => cases ha
    | rxDma | txDma | isr => exact ⟨rfl, rfl, hn _ rfl, id⟩
    | send q => exact ⟨rfl, rfl, ⟨p, by simp only [taskStep, TxRing.call, hp]⟩, id⟩
    | netif allocated =>
      have htx := netifStep_tx s allocated
      simp only [taskStep, netifStep] at htx ⊢
      split
      · split
        · exact ⟨rfl, rfl, hn _ rfl, id⟩
        · exact ⟨rfl, rfl, hn _ rfl, id⟩
      · split
        all_goals exact ⟨rfl, rfl, hn _ rfl, id⟩
      · exact ⟨rfl, rfl, hn _ rfl, id⟩
    | netifTimeout =>
      simp only [taskStep, netifTimeout]
      split
      · exact ⟨rfl, rfl, hn _ rfl, id⟩
      · exact ⟨rfl, rfl, hn _ rfl, id⟩

/-- A step that is not one of the handler's leaves a blocked task blocked, with its token
and its event. -/
theorem step_frame {s : State nr nt} {c : Chan} {a : Act} (ha : others c a = true)
    (hni : isIsr a = false) (hb : Blocked c s) :
    (step s a).isr = s.isr ∧ token (step s a) c = token s c ∧ Blocked c (step s a) ∧
      (test s.dmasr (bit c) = true → test (step s a).dmasr (bit c) = true) := by
  have htask : (if s.isr.isNone then taskStep s a else s).isr = s.isr ∧
      token (if s.isr.isNone then taskStep s a else s) c = token s c ∧
      Blocked c (if s.isr.isNone then taskStep s a else s) ∧ (test s.dmasr (bit c) = true →
        test (if s.isr.isNone then taskStep s a else s).dmasr (bit c) = true) := by
    split
    · exact taskStep_frame ha hb
    · exact ⟨rfl, rfl, hb, id⟩
  cases a with
  | isr => cases hni
  | rxDma as =>
    obtain ⟨hi, ht, hbl, hbit⟩ := rxDma_frame s as c
    exact ⟨hi, ht, hbl hb, hbit⟩
  | txDma bits =>
    obtain ⟨hi, ht, hbl, hbit⟩ := txDma_frame s bits c
    exact ⟨hi, ht, hbl hb, hbit⟩
  | netif | netifTimeout | send | sender | senderTimeout => exact htask

theorem Blocked.isrStep {s : State nr nt} {c : Chan} (h : Blocked c s) : Blocked c (isrStep s) := by
  obtain ⟨hn, htx, -⟩ := isrStep_frame s
  cases c with
  | rx => exact hn.trans h
  | tx =>
    obtain ⟨p, hp⟩ := h
    exact ⟨p, htx ▸ hp⟩

/-- The handler at work comes to its end, and by then it has given the token. -/
theorem handler_gives {c : Chan} {as : List Act} {s : State nr nt} {ops : List IsrOp}
    (hi : s.isr = some ops) (hg : token s c = true ∨ signal c ∈ ops) (hb : Blocked c s)
    (ho : ∀ a ∈ as, others c a = true) (hn : ops.length + 1 ≤ isrSteps as) :
    ∃ bs, bs <+: as ∧ (run step s bs).isr = none ∧ token (run step s bs) c = true ∧
      Blocked c (run step s bs) := by
  induction as generalizing s ops with
  | nil => simp [isrSteps] at hn
  | cons a as ih =>
    have ho' : ∀ a ∈ as, others c a = true := fun b hb => ho b (List.mem_cons_of_mem a hb)
    rw [isrSteps_cons] at hn
    cases hisr : isIsr a with
    | false =>
      obtain ⟨hi', ht, hb', -⟩ := step_frame (ho a List.mem_cons_self) hisr hb
      rw [hisr, if_neg Bool.false_ne_true, Nat.add_zero] at hn
      obtain ⟨bs, hpre, hrun⟩ := ih (hi'.trans hi) (ht ▸ hg) hb' ho' hn
      exact ⟨a :: bs, (List.prefix_cons_inj a).mpr hpre, hrun⟩
    | true =>
      rw [hisr, if_pos rfl] at hn
      cases a with
      | rxDma | txDma | netif | netifTimeout | send | sender | senderTimeout => cases hisr
      | isr =>
        have hb' : Blocked c (step s .isr) := hb.isrStep
        cases ops with
        | nil =>
          have hend : step s .isr = { s with isr := none } := by simp only [step, Board.isrStep, hi]
          have htok : token s c = true := hg.resolve_right (by simp)
          refine ⟨[.isr], ⟨as, rfl⟩, ?_, ?_, hb'⟩
          · rw [run_cons, run_nil, hend]
          · rw [run_cons, run_nil, hend]
            cases c <;> exact htok
        | cons op ops =>
          have hnext : step s .isr = { isrOp s op with isr := some ops } := by
            simp only [step, Board.isrStep, hi]
          have hg' : token (step s .isr) c = true ∨ signal c ∈ ops := by
            rw [hnext]
            obtain htok | hmem := hg
            · refine .inl ?_
              cases op <;> cases c <;> first | exact htok | rfl
            · obtain heq | hmem := List.mem_cons.mp hmem
              · refine .inl ?_
                rw [← heq]
                cases c <;> rfl
              · exact .inr hmem
          obtain ⟨bs, hpre, hrun⟩ := ih (by rw [hnext]) hg' hb' ho'
            (by rw [List.length_cons] at hn; omega)
          exact ⟨.isr :: bs, (List.prefix_cons_inj _).mpr hpre, hrun⟩

/-- An event that is pending while its task is blocked becomes the token. -/
theorem pending_gives {c : Chan} {as : List Act} {s : State nr nt} (hi : s.isr = none)
    (hp : test s.dmasr (bit c) = true) (hb : Blocked c s) (ho : ∀ a ∈ as, others c a = true)
    (hn : isrLength ≤ isrSteps as) :
    ∃ bs, bs <+: as ∧ (run step s bs).isr = none ∧ token (run step s bs) c = true ∧
      Blocked c (run step s bs) := by
  induction as generalizing s with
  | nil => simp [isrSteps, isrLength] at hn
  | cons a as ih =>
    have ho' : ∀ a ∈ as, others c a = true := fun b hb => ho b (List.mem_cons_of_mem a hb)
    rw [isrSteps_cons] at hn
    cases hisr : isIsr a with
    | false =>
      obtain ⟨hi', -, hb', hbit⟩ := step_frame (ho a List.mem_cons_self) hisr hb
      rw [hisr, if_neg Bool.false_ne_true, Nat.add_zero] at hn
      obtain ⟨bs, hpre, hrun⟩ := ih (hi'.trans hi) (hbit hp) hb' ho' hn
      exact ⟨a :: bs, (List.prefix_cons_inj a).mpr hpre, hrun⟩
    | true =>
      rw [hisr, if_pos rfl] at hn
      cases a with
      | rxDma | txDma | netif | netifTimeout | send | sender | senderTimeout => cases hisr
      | isr =>
        have hsource : test s.dmasr (ethDmaItRbu ||| ethDmaItR ||| ethDmaItT) = true := by
          rw [test_mask_or, test_mask_or]
          cases c
          · rw [show bit .rx = ethDmaItR from rfl] at hp
            rw [hp, Bool.or_true, Bool.true_or]
          · rw [show bit .tx = ethDmaItT from rfl] at hp
            rw [hp, Bool.or_true]
        have henter : step s .isr = { s with isr := some (wchnetEthIsr (readDmasr s.dmasr)) } := by
          simp only [step, Board.isrStep, hi, if_pos hsource]
        have hlen := wchnetEthIsr_length (readDmasr s.dmasr)
        obtain ⟨bs, hpre, hrun⟩ := @handler_gives _ _ c as (step s .isr) _ (by rw [henter])
          (.inr (signal_mem_pending hp)) hb.isrStep ho' (by omega)
        exact ⟨.isr :: bs, (List.prefix_cons_inj _).mpr hpre, hrun⟩

/-- What the blocked task does when it has its turn and the token is there. -/
def GoesOn (c : Chan) (s : State nr nt) : Prop :=
  match c with
  | .rx => ∀ allocated, (step s (.netif allocated)).netif = .drain
  | .tx => ∀ p, s.tx.pc = .wait p → (step s .sender).tx.pc = .retry p

theorem goesOn {c : Chan} {s : State nr nt} (hi : s.isr = none) (ht : token s c = true)
    (hb : Blocked c s) : GoesOn c s := by
  cases c with
  | rx =>
    intro allocated
    have hn : s.netif = .wait := hb
    have htok : s.ethRxSemaphore = true := ht
    simp only [step, hi, Option.isNone_none, if_true, taskStep, netifStep, hn, htok]
  | tx =>
    intro p hp
    have htok : s.ethTxSemaphore = true := ht
    simp only [step, hi, Option.isNone_none, if_true, taskStep, senderStep, hp, htok,
      TxRing.cpuStep, TxRing.State.goto]

/-- The blocked task is woken whatever the hardware and the other task do meanwhile: once
the handler has had the accesses of one run, there has been a moment with the token
given and the handler done, from which the task goes on without its timeout. -/
def Woken (c : Chan) (s : State nr nt) : Prop :=
  ∀ as, (∀ a ∈ as, others c a = true) → isrLength ≤ isrSteps as →
    ∃ bs, bs <+: as ∧ (run step s bs).isr = none ∧ token (run step s bs) c = true ∧
      Blocked c (run step s bs) ∧ GoesOn c (run step s bs)

theorem woken {c : Chan} {s : State nr nt} (hi : s.isr = none) (hb : Blocked c s)
    (h : test s.dmasr (bit c) = true ∨ token s c = true) : Woken c s := by
  intro as ho hn
  obtain hp | ht := h
  · obtain ⟨bs, hpre, hi', ht', hb'⟩ := pending_gives hi hp hb ho hn
    exact ⟨bs, hpre, hi', ht', hb', goesOn hi' ht' hb'⟩
  · exact ⟨[], List.nil_prefix, hi, ht, hb, goesOn hi ht hb⟩

/-- No wake-up is lost: while no interrupt is in progress, a task blocked on its
semaphore with work to do has its event pending or its token available, and so it goes on
without its timeout. -/
theorem no_lost_wakeup (tab : Table (nt + 1)) (rxMem txMem : Memory) (acts : List Act)
    (hw : Meets step WholeFrames (init nr tab rxMem txMem) acts) :
    let s := run step (init nr tab rxMem txMem) acts
    s.isr = none →
      (s.netif = .wait → RxRing.CpuOwned s.rx s.rx.pDmaRxSet →
        (test s.dmasr ethDmaItR = true ∨ s.ethRxSemaphore = true) ∧ Woken .rx s) ∧
      (∀ p, s.tx.pc = .wait p → ¬ TxRing.DmaOwned s.tx s.tx.dmaTxDescToSet →
        (test s.dmasr ethDmaItT = true ∨ s.ethTxSemaphore = true) ∧ Woken .tx s) := by
  intro s hi
  have h : Awake s :=
    (throughout_of_meets (fun _ a h hc => h.step a hc) (init_awake tab rxMem txMem) hw).last
  refine ⟨fun hn ho => ?_, fun p hp ho => ?_⟩
  · have hl : ¬ Looking s := fun hl => by cases hn.symm.trans hl.1
    have hrx := (h.rx hl ho).of_isr_none hi
    exact ⟨hrx, woken hi hn hrx⟩
  · have htx := (h.tx p hp ho).of_isr_none hi
    exact ⟨htx, woken hi ⟨p, hp⟩ htx⟩

instance (s : State nr nt) : ∀ a, Decidable (WholeFrames s a)
  | .rxDma as => decidable_of_iff ((run RxRing.dmaStep s.rx as).openFrame.isEmpty = true)
      List.isEmpty_iff
  | .netif allocated => inferInstanceAs (Decidable (allocated.isSome = true))
  | .txDma _ | .isr | .netifTimeout | .send _ | .sender | .senderTimeout =>
    inferInstanceAs (Decidable True)

def waiting : TxRing.Pc → Bool
  | .wait _ => true
  | _ => false

theorem waiting_iff {pc : TxRing.Pc} : waiting pc = true ↔ ∃ p, pc = .wait p := by
  cases pc <;> simp [waiting]

/-- A frame is received and the handler runs to its end, which leaves only the token. Then
a third frame waits for a place in the transmit ring, and one becomes free, which leaves
only the pending event. -/
def bothWaiting : List Act :=
  let send := .send ⟨[[7]], 1, rfl, by decide⟩ :: List.replicate 10 .sender
  .rxDma [.close 0 true] :: List.replicate 5 .isr ++ send ++ send ++ send ++ [.txDma 0]

theorem no_lost_wakeup_pending :
    let s := run step bootState bothWaiting
    (test s.dmasr ethDmaItR = false ∧ s.ethRxSemaphore = true ∧ Woken .rx s) ∧
      (test s.dmasr ethDmaItT = true ∧ s.ethTxSemaphore = false ∧ Woken .tx s) := by
  have hm : Meets step WholeFrames bootState bothWaiting := by decide +kernel
  have h := no_lost_wakeup _ _ _ bothWaiting hm
  rw [← bootState] at h
  obtain ⟨hrx, htx⟩ := h (by decide +kernel)
  have howned : RxRing.CpuOwned (run step bootState bothWaiting).rx
      (run step bootState bothWaiting).rx.pDmaRxSet := by
    unfold RxRing.CpuOwned
    decide +kernel
  have hfree : ¬ TxRing.DmaOwned (run step bootState bothWaiting).tx
      (run step bootState bothWaiting).tx.dmaTxDescToSet := by
    unfold TxRing.DmaOwned
    decide +kernel
  obtain ⟨p, hp⟩ := waiting_iff.mp
    (show waiting (run step bootState bothWaiting).tx.pc = true by decide +kernel)
  refine ⟨⟨by decide +kernel, by decide +kernel, ?_⟩, by decide +kernel, by decide +kernel, ?_⟩
  · exact (hrx (by decide +kernel) howned).2
  · exact (htx p hp hfree).2

end EthDriver.Wakeup

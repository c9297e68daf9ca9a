import EthDriver.Wakeup

namespace EthDriver.TxBackpressure

open Bits Bytes Descriptors Pbufs Runs Board Wakeup

variable {nr nt : ℕ}

def OnlyTimeouts (s : State nr nt) : Prop :=
  ∀ p b, s.tx.pc = .ret p (.errIf b) → b = true

/-- The next access of `low_level_output` is its first `ETH_GetTxBuf`, and it
will find the ring full. -/
def findsFull {n : ℕ} (s : TxRing.State n) : Bool :=
  match s.pc with
  | .getTxBuf _ => test (s.desc s.dmaTxDescToSet).status ethDmaTxDescOwn
  | _ => false

instance (s : State nr nt) : Decidable (OnlyTimeouts s) :=
  match hpc : s.tx.pc with
  | .ret p (.errIf false) => .isFalse fun h => Bool.false_ne_true (h p false hpc)
  | .ret _ (.errIf true) => .isTrue fun p b hb => by cases hpc.symm.trans hb; rfl
  | .ret _ .ok | .ret _ .errMem | .idle | .checkLen _ | .getTxBuf _ | .wait _ | .retry _
  | .copy _ _ _ _ | .setSize _ | .setSegment _ | .setOwn _ | .clearTbus _ | .demand _
  | .advance _ => .isTrue fun p b hb => by cases hpc.symm.trans hb

/-- When `ETH_GetTxBuf` finds the ring full, no completion from before is still
on record: the token is not there and `T` is not pending. -/
def NoStaleToken (s : State nr nt) : Act → Prop
  | .sender => s.isr = none → findsFull s.tx = true →
      s.ethTxSemaphore = false ∧ test s.dmasr ethDmaItT = false
  | _ => True

instance (s : State nr nt) : ∀ a, Decidable (NoStaleToken s a)
  | .sender => inferInstanceAs (Decidable (_ → _ → _))
  | .rxDma _ | .txDma _ | .isr | .netif _ | .netifTimeout | .send _ | .senderTimeout =>
    inferInstanceAs (Decidable True)

theorem findsFull_iff {n : ℕ} {s : TxRing.State n} :
    findsFull s = true ↔ ∃ p, s.pc = .getTxBuf p ∧ TxRing.DmaOwned s s.dmaTxDescToSet := by
  cases hpc : s.pc <;> simp [findsFull, hpc, TxRing.DmaOwned]

/-- While the sender waits, a completion on record has freed the descriptor it
waits for. -/
structure Honest (s : State nr nt) : Prop where
  isr : IsrInv s
  ring : TxInvariant.Inv s.tx
  wait : ∀ p, s.tx.pc = .wait p → Promised .tx s → ¬ TxRing.DmaOwned s.tx s.tx.dmaTxDescToSet
  retry : ∀ p, s.tx.pc = .retry p → ¬ TxRing.DmaOwned s.tx s.tx.dmaTxDescToSet
  result : OnlyTimeouts s

theorem init_honest (tab : Table (nt + 1)) (rxMem txMem : Memory) :
    Honest (init nr tab rxMem txMem) where
  isr c ops hops := by simp [init] at hops
  ring := TxInvariant.init_inv tab txMem
  wait p hp := by simp [init, TxRing.init] at hp
  retry p hp := by simp [init, TxRing.init] at hp
  result p b hp := by simp [init, TxRing.init] at hp

/-- In a full ring the next completion frees the descriptor the driver is at. -/
theorem complete_frees {n : ℕ} {s : TxRing.State n} (h : TxInvariant.Inv s)
    (hc : TxInvariant.committed s.pc = false)
    (ho : test (s.desc s.cur).status ethDmaTxDescOwn = true) (bits : BitVec 32) :
    ¬ TxRing.DmaOwned (TxRing.complete s bits) s.dmaTxDescToSet := by
  simp only [TxRing.complete, if_pos ho, TxRing.DmaOwned]
  by_cases he : s.dmaTxDescToSet = s.cur
  · rw [he, Function.update_self, test_clear_of_le _ (by decide)]
    exact Bool.false_ne_true
  · rw [Function.update_of_ne he]
    exact fun howned => he ((h.segment hc).end_eq howned).symm

theorem Honest.of_tx {s t : State nr nt} (h : Honest s) (hisr : IsrInv t) (htx : t.tx = s.tx)
    (hp : Promised .tx t → Promised .tx s) : Honest t where
  isr := hisr
  ring := htx ▸ h.ring
  wait p hpc hprom := by
    rw [htx] at hpc ⊢
    exact h.wait p hpc (hp hprom)
  retry p hpc := by
    rw [htx] at hpc ⊢
    exact h.retry p hpc
  result p b hpc := by
    rw [htx] at hpc
    exact h.result p b hpc

theorem Honest.rxDma {s : State nr nt} (h : Honest s) (as : List RxRing.DmaAct) :
    Honest (rxDma s as) := by
  refine h.of_tx (fun c ops hops => h.isr c ops hops) rfl fun hp => ?_
  have hr : test ethDmaItR (bit .tx) = false := by decide
  have hrbu : test ethDmaItRbu (bit .tx) = false := by decide
  refine hp.imp_right (Or.imp_left fun hb => ?_)
  simpa [Board.rxDma, test_ite, hr, hrbu] using hb

theorem Honest.txDma {s : State nr nt} (h : Honest s) (bits : BitVec 32) :
    Honest (txDma s bits) := by
  simp only [Board.txDma]
  split
  · rename_i ho
    have hpc : (TxRing.complete s.tx bits).pc = s.tx.pc := by
      simp only [TxRing.complete, if_pos ho]
    have hset : (TxRing.complete s.tx bits).dmaTxDescToSet = s.tx.dmaTxDescToSet := by
      simp only [TxRing.complete, if_pos ho]
    have hfree : TxInvariant.committed s.tx.pc = false →
        ¬ TxRing.DmaOwned (TxRing.complete s.tx bits)
          (TxRing.complete s.tx bits).dmaTxDescToSet := by
      intro hc
      rw [hset]
      exact complete_frees h.ring hc ho bits
    refine ⟨fun c ops hops => h.isr c ops hops, h.ring.complete bits, ?_, ?_, ?_⟩
    · intro p hp _
      exact hfree (by rw [← hpc, hp]; rfl)
    · intro p hp
      exact hfree (by rw [← hpc, hp]; rfl)
    · intro p b hp
      exact h.result p b (hpc.symm.trans hp)
  · exact h

theorem Honest.isrStep {s : State nr nt} (h : Honest s) : Honest (isrStep s) :=
  h.of_tx (isrStep_isrInv h.isr) (isrStep_frame s).2.1 (isrStep_promised h.isr .tx).mp

theorem Honest.netifStep {s : State nr nt} (h : Honest s) (hi : s.isr = none)
    (allocated : Option Pbuf) : Honest (netifStep s allocated) := by
  simp only [Board.netifStep]
  split
  · split
    · exact h.of_tx (isrInv_of_none hi) rfl id
    · exact h
  · split <;> exact h.of_tx (isrInv_of_none hi) rfl id
  · exact h.of_tx (isrInv_of_none hi) rfl id

theorem Honest.netifTimeout {s : State nr nt} (h : Honest s) (hi : s.isr = none) :
    Honest (netifTimeout s) := by
  simp only [Board.netifTimeout]
  split
  · exact h.of_tx (isrInv_of_none hi) rfl id
  · exact h

theorem Honest.of_not_backedUp {t : State nr nt} (hi : t.isr = none) (hr : TxInvariant.Inv t.tx)
    (hb : backedUp t.tx.pc = false) : Honest t where
  isr := isrInv_of_none hi
  ring := hr
  wait p hp := by rw [hp] at hb; cases hb
  retry p hp := by rw [hp] at hb; cases hb
  result p b hp := by rw [hp] at hb; cases hb

theorem Honest.send {s : State nr nt} (h : Honest s) (hi : s.isr = none) (q : Pbuf) :
    Honest { s with tx := TxRing.call s.tx q } := by
  have hr := h.ring.call q
  unfold TxRing.call at hr ⊢
  split at hr
  · exact .of_not_backedUp hi hr rfl
  · exact .of_not_backedUp hi hr rfl
  · exact h

/-- A step of `low_level_output`. It takes a token only if a completion is on
record, and starts to wait only if none is. -/
theorem Honest.cpuStep {s t : State nr nt} (h : Honest s) (hi : t.isr = none) {taken : Bool}
    (htx : t.tx = TxRing.cpuStep s.tx taken) (hprom : Promised .tx t → Promised .tx s)
    (hfull : ∀ p, s.tx.pc = .getTxBuf p → TxRing.DmaOwned s.tx s.tx.dmaTxDescToSet →
      ¬ Promised .tx s)
    (htaken : taken = true → Promised .tx s) : Honest t := by
  have hr : TxInvariant.Inv t.tx := htx ▸ h.ring.cpuStep taken
  obtain hb | he | ⟨p, hp, ho, he⟩ | ⟨p, hp, he⟩ | ⟨p, hp, ho, -⟩ := cpuStep_backedUp s.tx taken
  · exact .of_not_backedUp hi hr (htx ▸ hb)
  · exact h.of_tx (isrInv_of_none hi) (htx.trans he) hprom
  · rw [he] at htx
    refine ⟨isrInv_of_none hi, hr, ?_, ?_, ?_⟩
    -- the ring was found full with no completion on record
    · exact fun _ _ hprom' => absurd (hprom hprom') (hfull p hp ho)
    · intro q hq
      rw [htx] at hq
      cases hq
    · intro q b hq
      rw [htx] at hq
      cases hq
  · rw [he] at htx
    refine ⟨isrInv_of_none hi, hr, ?_, ?_, ?_⟩
    · intro q hq
      rw [htx] at hq
      cases taken <;> cases hq
    · intro q hq
      rw [htx] at hq ⊢
      cases taken with
      | false => cases hq
      | true => exact h.wait p hp (htaken rfl)
    · intro q b hq
      rw [htx] at hq
      cases taken <;> cases hq
      rfl
  · exact absurd ho (h.retry p hp)

theorem Honest.senderStep {s : State nr nt} (h : Honest s) (hi : s.isr = none)
    (hc : NoStaleToken s .sender) : Honest (senderStep s) := by
  have hfull : ∀ p, s.tx.pc = .getTxBuf p → TxRing.DmaOwned s.tx s.tx.dmaTxDescToSet →
      ¬ Promised .tx s := by
    intro p hp ho hprom
    obtain ⟨htok, ht⟩ := hc hi (findsFull_iff.mpr ⟨p, hp, ho⟩)
    obtain hb | hb := hprom.of_isr_none hi
    · exact Bool.false_ne_true (ht.symm.trans hb)
    · exact Bool.false_ne_true (htok.symm.trans hb)
  simp only [Board.senderStep]
  split
  · split
    · rename_i htok
      exact h.cpuStep hi rfl (fun _ => .inl htok) hfull (fun _ => .inl htok)
    · exact h
  · refine h.cpuStep hi rfl (fun hp => ?_) hfull (fun ht => absurd ht Bool.false_ne_true)
    exact hp.imp_right (Or.imp_left test_of_test_clear)
  · exact h.cpuStep hi rfl id hfull (fun ht => absurd ht Bool.false_ne_true)

theorem Honest.senderTimeout {s : State nr nt} (h : Honest s) (hi : s.isr = none) :
    Honest (senderTimeout s) := by
  simp only [Board.senderTimeout]
  split
  · rename_i q hq
    split
    · exact h
    · refine h.cpuStep hi rfl id (fun p hp => ?_) (fun ht => absurd ht Bool.false_ne_true)
      cases hq.symm.trans hp
  · exact h

theorem Honest.step {s : State nr nt} (h : Honest s) (a : Act) (hc : NoStaleToken s a) :
    Honest (step s a) := by
  cases a with
  | rxDma as => exact h.rxDma as
  | txDma bits => exact h.txDma bits
  | isr => exact h.isrStep
  | netif allocated => exact step_task h fun hi => h.netifStep hi allocated
  | netifTimeout => exact step_task h fun hi => h.netifTimeout hi
  | send q => exact step_task h fun hi => h.send hi q
  | sender => exact step_task h fun hi => h.senderStep hi hc
  | senderTimeout => exact step_task h fun hi => h.senderTimeout hi

/-- An interrupt in progress runs to its end: it gives the tokens still to be
given, takes none, and leaves the transmit ring alone. -/
theorem isr_finishes (ops : List IsrOp) (s : State nr nt) (hi : s.isr = some ops) :
    let t := run step s (List.replicate (ops.length + 1) .isr)
    t.isr = none ∧ t.tx = s.tx ∧
      (s.ethTxSemaphore = true ∨ .txSignal ∈ ops → t.ethTxSemaphore = true) := by
  induction ops generalizing s with
  | nil =>
    have hs : step s .isr = { s with isr := none } := by simp only [Board.step, isrStep, hi]
    simp [hs]
  | cons op ops ih =>
    have hs : step s .isr = { isrOp s op with isr := some ops } := by
      simp only [Board.step, isrStep, hi]
    have htx : (step s .isr).tx = s.tx := (isrStep_frame s).2.1
    obtain ⟨hnone, htx', htok⟩ := ih (step s .isr) (by rw [hs])
    refine ⟨hnone, htx'.trans htx, fun h => htok ?_⟩
    rw [hs]
    cases op with
    | txSignal => exact .inl rfl
    | pollDemand | rxSignal | clear => exact h.imp id fun hmem => by simpa using hmem

theorem txSignal_mem {pending : BitVec 32} (h : test pending ethDmaItT = true) :
    .txSignal ∈ wchnetEthIsr (readDmasr pending) := by
  have ht : test (readDmasr pending) ethDmaItT = true := (readDmasr_bit .tx pending).trans h
  have hnis : test (readDmasr pending) ethDmaItNis = true := by
    have hself : test ethDmaItNis ethDmaItNis = true := by decide
    rw [readDmasr, test_or, test_or, test_mask_or, h, Bool.or_true, if_pos rfl, hself,
      Bool.true_or, Bool.or_true]
  simp [wchnetEthIsr, ht, hnis]

theorem exists_token {s : State nr nt} (hi : s.isr = none)
    (h : s.ethTxSemaphore = true ∨ test s.dmasr ethDmaItT = true) :
    ∃ as, let t := run step s as
      t.isr = none ∧ t.tx = s.tx ∧ t.ethTxSemaphore = true := by
  obtain h | h := h
  · exact ⟨[], hi, rfl, h⟩
  · have hany : test s.dmasr (ethDmaItRbu ||| ethDmaItR ||| ethDmaItT) = true := by
      rw [test_mask_or, h, Bool.or_true]
    have hs : step s .isr = { s with isr := some (wchnetEthIsr (readDmasr s.dmasr)) } := by
      simp only [Board.step, isrStep, hi, if_pos hany]
    obtain ⟨hnone, htx, htok⟩ := isr_finishes _ (step s .isr) (by rw [hs])
    exact ⟨.isr :: List.replicate ((wchnetEthIsr (readDmasr s.dmasr)).length + 1) .isr, hnone,
      htx.trans (by rw [hs]), htok (.inr (txSignal_mem h))⟩

theorem stale_token_drops {s : State nr nt} {a : Act} (h : ¬ NoStaleToken s a) :
    CanFail step OnlyTimeouts (step s a) := by
  cases a with
  | rxDma | txDma | isr | netif | netifTimeout | send | senderTimeout => exact absurd trivial h
  | sender =>
    simp only [NoStaleToken, Classical.not_imp, not_and_or, Bool.not_eq_false] at h
    obtain ⟨hi, hfull, hrec⟩ := h
    obtain ⟨p, hpc, ho⟩ := findsFull_iff.mp hfull
    have hget : TxRing.ethGetTxBuf s.tx = none := (TxInvariant.ethGetTxBuf_none_iff s.tx).mpr ho
    have hs : step s .sender = { s with tx := s.tx.goto (.wait p) } := by
      simp only [Board.step, hi, Option.isNone_none, if_true, taskStep, Board.senderStep, hpc,
        TxRing.cpuStep, hget]
    obtain ⟨as, hnone, htx, htok⟩ := exists_token (s := step s .sender) (by rw [hs]; exact hi)
      (by rw [hs]; exact hrec)
    set t := run step (step s .sender) as
    rw [hs] at htx
    have hwait : step t .sender = { t with
        ethTxSemaphore := false
        tx := s.tx.goto (.retry p) } := by
      simp only [Board.step, hnone, Option.isNone_none, if_true, taskStep, Board.senderStep, htx,
        TxRing.State.goto, htok, TxRing.cpuStep]
    have hretry : (step (step t .sender) .sender).tx.pc = .ret p (.errIf false) := by
      rw [hwait]
      have hget' : TxRing.ethGetTxBuf (s.tx.goto (.retry p)) = none := hget
      simp only [Board.step, hnone, Option.isNone_none, if_true, taskStep, Board.senderStep]
      simp only [TxRing.State.goto, TxRing.cpuStep] at hget' ⊢
      rw [hget']
    refine ⟨as ++ [.sender, .sender], fun h => ?_⟩
    rw [run_append] at h
    exact Bool.false_ne_true (h p false hretry)

/-- In every run where each full ring is found without a stale token,
`low_level_output` returns `ERR_IF` only after its timeout. After any run, a step
that finds the ring full with a stale token has a continuation in which the
frame is dropped with no timeout. -/
theorem errIf_only_on_timeout (tab : Table (nt + 1)) (rxMem txMem : Memory) (acts : List Act) :
    (Meets step NoStaleToken (init nr tab rxMem txMem) acts →
      Throughout step OnlyTimeouts (init nr tab rxMem txMem) acts) ∧
    ∀ a, ¬ NoStaleToken (run step (init nr tab rxMem txMem) acts) a →
      ∃ more, ¬ Throughout step OnlyTimeouts (init nr tab rxMem txMem) (acts ++ a :: more) := by
  refine ⟨fun hm => ?_, fun a ha => ?_⟩
  · have hall : Throughout step Honest (init nr tab rxMem txMem) acts :=
      throughout_of_meets (fun _ a h hc => h.step a hc) (init_honest tab rxMem txMem) hm
    exact hall.mono fun _ h => h.result
  · exact (stale_token_drops ha).not_throughout

def frame : Pbuf := ⟨[[1, 2, 3]], 3, rfl, by decide⟩

def sendFrame : List Act := .send frame :: List.replicate 10 .sender

/-- One frame is sent and completed while nobody waits, which leaves the token
there. Two more fill the ring, and the next sender takes that token. -/
def staleRun : List Act :=
  sendFrame ++ .txDma 0 :: List.replicate 5 .isr ++ sendFrame ++ sendFrame ++
    .send frame :: List.replicate 4 .sender

theorem errIf_without_timeout : ¬ Throughout step OnlyTimeouts bootState staleRun := fun h =>
  absurd h.last (by decide +kernel)

def timeoutRun : List Act :=
  sendFrame ++ sendFrame ++ .send frame :: List.replicate 2 .sender ++ [.senderTimeout]

theorem errIf_after_timeout :
    backedUp (run step bootState timeoutRun).tx.pc = true ∧
      Throughout step OnlyTimeouts bootState timeoutRun :=
  ⟨by decide +kernel, (errIf_only_on_timeout _ _ _ timeoutRun).1 (by decide +kernel)⟩

end EthDriver.TxBackpressure

import EthDriver.RxInvariant
import EthDriver.TxInvariant

namespace EthDriver.Board

open Bits Bytes Descriptors Pbufs Runs

def ethDmaItNis : BitVec 32 := 0x00010000
def ethDmaItAis : BitVec 32 := 0x00008000
def ethDmaItRbu : BitVec 32 := 0x00000080
def ethDmaItR : BitVec 32 := 0x00000040
def ethDmaItT : BitVec 32 := 0x00000001
def ethDmasrTbus : BitVec 32 := 0x00000004

/-- What the interrupt handler does after it has read `DMASR`. A clear is a
write of ones to `DMASR`. -/
inductive IsrOp
  | pollDemand
  | rxSignal
  | txSignal
  | clear (bits : BitVec 32)
  deriving DecidableEq

/-- The accesses of `WCHNET_ETHIsr`, in order, for the status word it has read. -/
def wchnetEthIsr (intSta : BitVec 32) : List IsrOp :=
  (if test intSta ethDmaItAis then
    (if test intSta ethDmaItRbu then [.pollDemand, .clear ethDmaItRbu] else []) ++
      [.clear ethDmaItAis]
  else []) ++
  (if test intSta ethDmaItNis then
    (if test intSta ethDmaItR then [.rxSignal, .clear ethDmaItR] else []) ++
      (if test intSta ethDmaItT then [.txSignal, .clear ethDmaItT] else []) ++
      [.clear ethDmaItNis]
  else [])

/-- Reading `DMASR`: the summary bits are the disjunctions of the pending enabled
sources of their kind. -/
def readDmasr (pending : BitVec 32) : BitVec 32 :=
  pending ||| ((if test pending (ethDmaItR ||| ethDmaItT) then ethDmaItNis else 0) |||
    (if test pending ethDmaItRbu then ethDmaItAis else 0))

/-- The netif task is blocked on `eth_rx_semaphore`, drains the ring, or does the
rest of its loop. -/
inductive Netif
  | wait
  | drain
  | rest
  deriving DecidableEq

/-- Both rings, the netif task, the pending bits of `DMASR`, the two binary
semaphores, and the accesses an interrupt in progress still has to make. -/
structure State (nr nt : ℕ) where
  rx : RxRing.State nr
  tx : TxRing.State nt
  netif : Netif
  dmasr : BitVec 32
  ethRxSemaphore : Bool
  ethTxSemaphore : Bool
  isr : Option (List IsrOp)

variable {nr nt : ℕ}

def init (nr : ℕ) (tab : Table (nt + 1)) (rxMem txMem : Memory) : State nr nt :=
  { rx := RxRing.init nr rxMem
    tx := TxRing.init tab txMem
    netif := .wait
    dmasr := 0
    ethRxSemaphore := false
    ethTxSemaphore := false
    isr := none }

/-- The board as configured, started with all memory zero. -/
def bootState : State (ethRxBufNb - 1) (ethTxBufNb - 1) :=
  init (ethRxBufNb - 1) (fun _ => ⟨0, 0, 0, 0⟩) (fun _ => 0) (fun _ => 0)

/-- The receive DMA makes some of its accesses with no other party in between.
Completing a frame raises `R`, suspending raises `RBU`. -/
def rxDma (s : State nr nt) (as : List RxRing.DmaAct) : State nr nt :=
  let rx := run RxRing.dmaStep s.rx as
  { s with
    rx := rx
    dmasr := s.dmasr ||| ((if s.rx.frames.length < rx.frames.length then ethDmaItR else 0) |||
      (if !s.rx.suspended && rx.suspended then ethDmaItRbu else 0)) }

def txDma (s : State nr nt) (bits : BitVec 32) : State nr nt :=
  if test (s.tx.desc s.tx.cur).status ethDmaTxDescOwn then
    { s with tx := TxRing.complete s.tx bits, dmasr := s.dmasr ||| ethDmaItT }
  else s

def isrOp (s : State nr nt) : IsrOp → State nr nt
  | .pollDemand => { s with rx := s.rx.pollDemand }
  | .rxSignal => { s with ethRxSemaphore := true }
  | .txSignal => { s with ethTxSemaphore := true }
  | .clear bits => { s with dmasr := s.dmasr &&& ~~~bits }

/-- The handler is entered while an enabled source is pending, then makes its
accesses one by one. -/
def isrStep (s : State nr nt) : State nr nt :=
  match s.isr with
  | none =>
    if test s.dmasr (ethDmaItRbu ||| ethDmaItR ||| ethDmaItT) then
      { s with isr := some (wchnetEthIsr (readDmasr s.dmasr)) }
    else s
  | some [] => { s with isr := none }
  | some (op :: ops) => { isrOp s op with isr := some ops }

/-- One step of the netif task: taking the token, an access of `low_level_input`,
or its surroundings in `ethernetif_input` and `lwip_netif_thread`. -/
def netifStep (s : State nr nt) (allocated : Option Pbuf) : State nr nt :=
  match s.netif with
  | .wait =>
    if s.ethRxSemaphore then
      { s with ethRxSemaphore := false, netif := .drain, rx := RxRing.call s.rx }
    else s
  | .drain =>
    match s.rx.pc with
    | .retNull | .ret none => { s with netif := .rest }
    | .ret (some _) => { s with rx := RxRing.call s.rx }
    | _ => { s with rx := RxRing.cpuStep s.rx allocated }
  | .rest => { s with netif := .wait }

def netifTimeout (s : State nr nt) : State nr nt :=
  if s.netif = .wait ∧ s.ethRxSemaphore = false then
    { s with netif := .drain, rx := RxRing.call s.rx }
  else s

/-- One step of the sending task. Without a token it stays in `xSemaphoreTake`. -/
def senderStep (s : State nr nt) : State nr nt :=
  match s.tx.pc with
  | .wait _ =>
    if s.ethTxSemaphore then
      { s with ethTxSemaphore := false, tx := TxRing.cpuStep s.tx true }
    else s
  | .clearTbus _ =>
    { s with tx := TxRing.cpuStep s.tx false, dmasr := s.dmasr &&& ~~~ethDmasrTbus }
  | _ => { s with tx := TxRing.cpuStep s.tx false }

def senderTimeout (s : State nr nt) : State nr nt :=
  match s.tx.pc with
  | .wait _ => if s.ethTxSemaphore then s else { s with tx := TxRing.cpuStep s.tx false }
  | _ => s

inductive Act
  | rxDma (as : List RxRing.DmaAct)
  | txDma (bits : BitVec 32)
  | isr
  | netif (allocated : Option Pbuf)
  | netifTimeout
  | send (p : Pbuf)
  | sender
  | senderTimeout

def taskStep (s : State nr nt) : Act → State nr nt
  | .netif allocated => netifStep s allocated
  | .netifTimeout => netifTimeout s
  | .send p => { s with tx := TxRing.call s.tx p }
  | .sender => senderStep s
  | .senderTimeout => senderTimeout s
  | _ => s

/-- Tasks do not run while the interrupt handler runs; the DMA does. -/
def step (s : State nr nt) : Act → State nr nt
  | .rxDma as => rxDma s as
  | .txDma bits => txDma s bits
  | .isr => isrStep s
  | a => if s.isr.isNone then taskStep s a else s

/-- What holds now and after the task's step holds after it has had its turn. -/
theorem step_task {P : State nr nt → Prop} {s : State nr nt} {a : Act} (hs : P s)
    (ht : s.isr = none → P (taskStep s a)) : P (if s.isr.isNone then taskStep s a else s) := by
  split
  · exact ht (Option.isNone_iff_eq_none.mp ‹_›)
  · exact hs

theorem isrStep_frame (s : State nr nt) :
    (isrStep s).netif = s.netif ∧ (isrStep s).tx = s.tx ∧
      ((isrStep s).rx = s.rx ∨ (isrStep s).rx = s.rx.pollDemand) := by
  simp only [isrStep]
  split
  · split <;> exact ⟨rfl, rfl, .inl rfl⟩
  · exact ⟨rfl, rfl, .inl rfl⟩
  · rename_i op ops _
    cases op with
    | pollDemand => exact ⟨rfl, rfl, .inr rfl⟩
    | rxSignal | txSignal | clear => exact ⟨rfl, rfl, .inl rfl⟩

theorem netifStep_tx (s : State nr nt) (allocated : Option Pbuf) :
    (netifStep s allocated).tx = s.tx := by
  simp only [netifStep]
  split
  · split <;> rfl
  · split <;> rfl
  · rfl

theorem netifTimeout_tx (s : State nr nt) : (netifTimeout s).tx = s.tx := by
  simp only [netifTimeout]
  split <;> rfl

theorem senderStep_rx (s : State nr nt) : (senderStep s).rx = s.rx := by
  simp only [senderStep]
  split
  · split <;> rfl
  · rfl
  · rfl

theorem senderTimeout_rx (s : State nr nt) : (senderTimeout s).rx = s.rx := by
  simp only [senderTimeout]
  split
  · split <;> rfl
  · rfl

/-- A part of the board goes through one of its own runs. -/
def Follows {σ α : Type} (part : State nr nt → σ) (act : σ → α → σ) (s t : State nr nt) : Prop :=
  ∃ as, part t = run act (part s) as

section Follows

variable {σ α : Type} {part : State nr nt → σ} {act : σ → α → σ} {s t : State nr nt}

theorem Follows.stay (h : part t = part s) : Follows part act s t := ⟨[], h⟩

theorem Follows.one {a : α} (h : part t = act (part s) a) : Follows part act s t := ⟨[a], h⟩

theorem Follows.invariant {P : σ → Prop} (h : Follows part act s t)
    (hact : ∀ x a, P x → P (act x a)) (hs : P (part s)) : P (part t) := by
  obtain ⟨as, he⟩ := h
  rw [he]
  exact run_invariant hact hs as

end Follows

theorem netifStep_follows (s : State nr nt) (allocated : Option Pbuf) :
    Follows State.rx RxRing.step s (netifStep s allocated) := by
  simp only [netifStep]
  split
  · split
    · exact .one (a := .call) rfl
    · exact .stay rfl
  · split
    · exact .stay rfl
    · exact .stay rfl
    · exact .one (a := .call) rfl
    · exact .one (a := .cpu allocated) rfl
  · exact .stay rfl

theorem netifTimeout_follows (s : State nr nt) :
    Follows State.rx RxRing.step s (netifTimeout s) := by
  simp only [netifTimeout]
  split
  · exact .one (a := .call) rfl
  · exact .stay rfl

theorem senderStep_follows (s : State nr nt) :
    Follows State.tx TxRing.step s (senderStep s) := by
  simp only [senderStep]
  split
  · split
    · exact .one (a := .cpu true) rfl
    · exact .stay rfl
  · exact .one (a := .cpu false) rfl
  · exact .one (a := .cpu false) rfl

theorem senderTimeout_follows (s : State nr nt) :
    Follows State.tx TxRing.step s (senderTimeout s) := by
  simp only [senderTimeout]
  split
  · split
    · exact .stay rfl
    · exact .one (a := .cpu false) rfl
  · exact .stay rfl

theorem step_rx (s : State nr nt) (a : Act) : Follows State.rx RxRing.step s (step s a) := by
  cases a with
  | rxDma as => exact ⟨as.map .dma, by rw [run, List.foldl_map]; rfl⟩
  | txDma bits => exact .stay (by simp only [step, txDma]; split <;> rfl)
  | isr =>
    obtain ⟨-, -, hrx | hrx⟩ := isrStep_frame s
    · exact .stay hrx
    · exact .one (a := .poll) hrx
  | netif allocated => exact step_task (.stay rfl) fun _ => netifStep_follows s allocated
  | netifTimeout => exact step_task (.stay rfl) fun _ => netifTimeout_follows s
  | send p => exact step_task (.stay rfl) fun _ => .stay rfl
  | sender => exact step_task (.stay rfl) fun _ => .stay (senderStep_rx s)
  | senderTimeout => exact step_task (.stay rfl) fun _ => .stay (senderTimeout_rx s)

theorem step_tx (s : State nr nt) (a : Act) : Follows State.tx TxRing.step s (step s a) := by
  cases a with
  | rxDma as => exact .stay rfl
  | txDma bits =>
    simp only [step, txDma]
    split
    · exact .one (a := .complete bits) rfl
    · exact .stay rfl
  | isr => exact .stay (isrStep_frame s).2.1
  | netif allocated => exact step_task (.stay rfl) fun _ => .stay (netifStep_tx s allocated)
  | netifTimeout => exact step_task (.stay rfl) fun _ => .stay (netifTimeout_tx s)
  | send p => exact step_task (.stay rfl) fun _ => .one (a := .call p) rfl
  | sender => exact step_task (.stay rfl) fun _ => senderStep_follows s
  | senderTimeout => exact step_task (.stay rfl) fun _ => senderTimeout_follows s

structure RingInv (s : State nr nt) : Prop where
  rx : RxInvariant.Inv s.rx
  tx : TxInvariant.Inv s.tx

theorem RingInv.step {s : State nr nt} (h : RingInv s) (a : Act) : RingInv (step s a) where
  rx := (step_rx s a).invariant (fun _ a h => h.step a) h.rx
  tx := (step_tx s a).invariant (fun _ a h => h.step a) h.tx

theorem init_ringInv (tab : Table (nt + 1)) (rxMem txMem : Memory) :
    RingInv (init nr tab rxMem txMem) :=
  ⟨RxInvariant.init_inv nr rxMem, TxInvariant.init_inv tab txMem⟩

end EthDriver.Board

import EthDriver.Bits
import EthDriver.Bytes
import EthDriver.Cyclic
import Mathlib.Logic.Function.Basic

namespace EthDriver.Descriptors

open Cyclic Bits

def ethMaxPacketSize : ℕ := 1524
def ethRxBufNb : ℕ := 4
def ethTxBufNb : ℕ := 2

def ethDmaRxDescOwn : BitVec 32 := 0x80000000
def ethDmaRxDescFl : BitVec 32 := 0x3FFF0000
def ethDmaRxDescEs : BitVec 32 := 0x00008000
def ethDmaRxDescFs : BitVec 32 := 0x00000200
def ethDmaRxDescLs : BitVec 32 := 0x00000100
def ethDmaRxDescRch : BitVec 32 := 0x00004000
def ethDmaRxDescRbs1 : BitVec 32 := 0x00001FFF
def ethDmaRxDescFrameLengthShift : ℕ := 16

def ethDmaTxDescOwn : BitVec 32 := 0x80000000
def ethDmaTxDescIc : BitVec 32 := 0x40000000
def ethDmaTxDescLs : BitVec 32 := 0x20000000
def ethDmaTxDescFs : BitVec 32 := 0x10000000
def ethDmaTxDescTch : BitVec 32 := 0x00100000
def ethDmaTxDescTbs1 : BitVec 32 := 0x00001FFF

/-- `ETH_DMADESCTypeDef` in a table of `n` descriptors. A buffer address counts
from the start of the buffer array, the next-descriptor address is the index of
the descriptor it points to. -/
structure Desc (n : ℕ) where
  status : BitVec 32
  controlBufferSize : BitVec 32
  buffer1Addr : ℕ
  buffer2NextDescAddr : Fin n

abbrev Table (n : ℕ) := Fin n → Desc n

def firstDesc {n : ℕ} : Fin (n + 1) := 0

/-- The link both `ChainInit` loops store: the next descriptor, the first one
after the last. -/
def chainNext {n : ℕ} (i : Fin (n + 1)) : Fin (n + 1) :=
  if h : i.val < n then ⟨i.val + 1, Nat.succ_lt_succ h⟩ else firstDesc

def ethDmaRxDescChainInit (n : ℕ) : Table (n + 1) := fun i =>
  { status := ethDmaRxDescOwn
    controlBufferSize := ethDmaRxDescRch ||| BitVec.ofNat 32 ethMaxPacketSize
    buffer1Addr := i * ethMaxPacketSize
    buffer2NextDescAddr := chainNext i }

/-- Unlike the receive side, the transmit side leaves `ControlBufferSize` as it
was. -/
def ethDmaTxDescChainInit {n : ℕ} (tab : Table (n + 1)) : Table (n + 1) := fun i =>
  { tab i with
    status := ethDmaTxDescTch ||| ethDmaTxDescIc
    buffer1Addr := i * ethMaxPacketSize
    buffer2NextDescAddr := chainNext i }

theorem chainNext_eq {n : ℕ} (i : Fin (n + 1)) : chainNext i = slot (n + 1) (i + 1) := by
  apply Fin.ext
  simp only [chainNext]
  split
  · rename_i h
    simp [Nat.mod_eq_of_lt (Nat.succ_lt_succ h)]
  · rename_i h
    have hi : i.val = n := by omega
    simp [hi, firstDesc]

theorem chainNext_slot {n : ℕ} (k : ℕ) :
    chainNext (slot (n + 1) k) = slot (n + 1) (k + 1) := by
  rw [chainNext_eq, slot_add_val]

/-- The links and buffer addresses of a table are those of the chain. Neither
the processor nor the DMA writes them after `ETH_Init`. -/
structure Chained {n : ℕ} (tab : Table (n + 1)) : Prop where
  addr : ∀ i, (tab i).buffer1Addr = i * ethMaxPacketSize
  next : ∀ i, (tab i).buffer2NextDescAddr = chainNext i

theorem rxChainInit_chained (n : ℕ) : Chained (ethDmaRxDescChainInit n) :=
  ⟨fun _ => rfl, fun _ => rfl⟩

theorem txChainInit_chained {n : ℕ} (tab : Table (n + 1)) : Chained (ethDmaTxDescChainInit tab) :=
  ⟨fun _ => rfl, fun _ => rfl⟩

theorem Chained.update {n : ℕ} {tab : Table (n + 1)} (h : Chained tab) (i : Fin (n + 1))
    (d : Desc (n + 1)) (ha : d.buffer1Addr = (tab i).buffer1Addr)
    (hn : d.buffer2NextDescAddr = (tab i).buffer2NextDescAddr) :
    Chained (Function.update tab i d) := by
  constructor <;> intro j <;> by_cases hj : j = i
  · subst j; rw [Function.update_self, ha, h.addr]
  · rw [Function.update_of_ne hj, h.addr]
  · subst j; rw [Function.update_self, hn, h.next]
  · rw [Function.update_of_ne hj, h.next]

theorem buffers_apart {a b : ℕ} (h : a ≠ b) :
    a * ethMaxPacketSize + ethMaxPacketSize ≤ b * ethMaxPacketSize ∨
      b * ethMaxPacketSize + ethMaxPacketSize ≤ a * ethMaxPacketSize := by
  simp only [ethMaxPacketSize]
  omega

end EthDriver.Descriptors

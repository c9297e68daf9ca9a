import EthDriver.Descriptors
import EthDriver.Pbufs
import EthDriver.Runs

namespace EthDriver.RxRing

open Bits Bytes Cyclic Descriptors Pbufs Runs

/-- One descriptor as the DMA writes it back: its status word and the contents
of its buffer. -/
structure Piece where
  status : BitVec 32
  buf : List UInt8

/-- What the caller of `ETH_RecPeek` gets: a length and the buffer behind the
returned pointer. -/
structure Returned where
  len : BitVec 16
  buf : List UInt8

/-- The expression `ETH_RecPeek` assigns to `*len`, cut to 16 bits. -/
def frameLen (status : BitVec 32) : BitVec 16 :=
  ((status &&& ethDmaRxDescFl) >>> ethDmaRxDescFrameLengthShift).setWidth 16 - 4

/-- Where the netif task is in `low_level_input`. Each point stands before one
access to a descriptor, a buffer or a register. -/
inductive Pc
  | idle
  | own | es | fs | ls | len
  | addr (len : BitVec 16)
  | discard | discardNext
  | alloc (src : ℕ) (len : BitVec 16)
  | take (src : ℕ) (len : BitVec 16) (p : Pbuf)
  | free (src : ℕ) (p : Option Pbuf)
  | freeNext (p : Option Pbuf)
  | resume (p : Option Pbuf)
  | retNull
  | ret (p : Option Pbuf)
  deriving DecidableEq

/-- The receive side: descriptors and buffers, the driver's `pDMARxSet`, the
task's position, and the DMA's current descriptor and suspension. The last four
fields record the history: the frames the DMA wrote back, the descriptors of the
frame it is still writing, what `ETH_RecPeek` returned, and how many descriptors
were handed back. -/
structure State (n : ℕ) where
  desc : Table (n + 1)
  mem : Memory
  pDmaRxSet : Fin (n + 1)
  pc : Pc
  cur : Fin (n + 1)
  suspended : Bool
  frames : List (List Piece)
  openFrame : List Piece
  returned : List Returned
  handedBack : ℕ

variable {n : ℕ}

def init (n : ℕ) (mem : Memory) : State n :=
  { desc := ethDmaRxDescChainInit n
    mem := mem
    pDmaRxSet := firstDesc
    pc := .idle
    cur := firstDesc
    suspended := false
    frames := []
    openFrame := []
    returned := []
    handedBack := 0 }

namespace State

def status (s : State n) : BitVec 32 := (s.desc s.pDmaRxSet).status

def handBack (s : State n) : State n :=
  { s with
    desc := Function.update s.desc s.pDmaRxSet
      { s.desc s.pDmaRxSet with status := ethDmaRxDescOwn }
    handedBack := s.handedBack + 1 }

def advance (s : State n) : State n :=
  { s with pDmaRxSet := (s.desc s.pDmaRxSet).buffer2NextDescAddr }

/-- A write to `DMARPDR`: reception resumes if the DMA owns its current
descriptor, otherwise nothing happens. -/
def pollDemand (s : State n) : State n :=
  if test (s.desc s.cur).status ethDmaRxDescOwn then { s with suspended := false } else s

def goto (s : State n) (pc : Pc) : State n := { s with pc := pc }

@[simp] theorem goto_status (s : State n) (pc : Pc) : (s.goto pc).status = s.status := rfl

end State

open State

/-- One access of `low_level_input`. The argument is what `pbuf_alloc` returns
when the access is the call to it. -/
def cpuStep (s : State n) (allocated : Option Pbuf) : State n :=
  match s.pc with
  | .idle | .retNull | .ret _ => s
  -- ETH_RecPeek: the loop test, then the three tests of the frame
  | .own => s.goto (if test s.status ethDmaRxDescOwn then .retNull else .es)
  | .es => s.goto (if test s.status ethDmaRxDescEs then .discard else .fs)
  | .fs => s.goto (if test s.status ethDmaRxDescFs then .ls else .discard)
  | .ls => s.goto (if test s.status ethDmaRxDescLs then .len else .discard)
  | .len => s.goto (.addr (frameLen s.status))
  | .addr len =>
    { s with
      pc := .alloc (s.desc s.pDmaRxSet).buffer1Addr len
      returned := s.returned ++
        [⟨len, read s.mem (s.desc s.pDmaRxSet).buffer1Addr ethMaxPacketSize⟩] }
  | .discard => s.handBack.goto .discardNext
  | .discardNext => s.advance.goto .own
  | .alloc src len =>
    match allocated with
    | some p => s.goto (.take src len p)
    | none => s.goto (.free src none)
  | .take src len p => s.goto (.free src (some (pbufTake p (read s.mem src len.toNat))))
  -- ETH_RecFree
  | .free _ p => s.handBack.goto (.freeNext p)
  | .freeNext p => s.advance.goto (.resume p)
  | .resume p => s.pollDemand.goto (.ret p)

def call (s : State n) : State n :=
  match s.pc with
  | .idle | .retNull | .ret _ => s.goto .own
  | _ => s

/-- What the receive DMA can do: write received bytes into the buffer of its
current descriptor, write that descriptor back (as the last of its frame or
not, with any status bits), and suspend on a descriptor it does not own. -/
inductive DmaAct
  | fill (off : ℕ) (data : List UInt8)
  | close (status : BitVec 32) (last : Bool)
  | suspend

/-- The status word of a write-back: `OWN` is given up, `FS` and `LS` mark the
first and the last descriptor of the frame. -/
def closeStatus (status : BitVec 32) (first last : Bool) : BitVec 32 :=
  (status &&& ~~~(ethDmaRxDescOwn ||| ethDmaRxDescFs ||| ethDmaRxDescLs)) |||
    ((if first then ethDmaRxDescFs else 0) ||| (if last then ethDmaRxDescLs else 0))

def ready (s : State n) : Bool :=
  !s.suspended && test (s.desc s.cur).status ethDmaRxDescOwn

def close (s : State n) (status : BitVec 32) (last : Bool) : State n :=
  let d := s.desc s.cur
  let written := closeStatus status s.openFrame.isEmpty last
  let pieces := s.openFrame ++ [⟨written, read s.mem d.buffer1Addr ethMaxPacketSize⟩]
  { s with
    desc := Function.update s.desc s.cur { d with status := written }
    cur := d.buffer2NextDescAddr
    frames := if last then s.frames ++ [pieces] else s.frames
    openFrame := if last then [] else pieces }

def dmaStep (s : State n) : DmaAct → State n
  | .fill off data =>
    let d := s.desc s.cur
    if ready s ∧ off + data.length ≤ (d.controlBufferSize &&& ethDmaRxDescRbs1).toNat then
      { s with mem := write s.mem (d.buffer1Addr + off) data }
    else s
  | .close status last => if ready s then close s status last else s
  | .suspend =>
    if test (s.desc s.cur).status ethDmaRxDescOwn then s else { s with suspended := true }

/-- `poll` is a poll demand from the interrupt handler. -/
inductive Act
  | call
  | cpu (allocated : Option Pbuf)
  | dma (a : DmaAct)
  | poll

def step (s : State n) : Act → State n
  | .call => call s
  | .cpu p => cpuStep s p
  | .dma a => dmaStep s a
  | .poll => s.pollDemand

def arrived (s : State n) : List Piece := s.frames.flatten ++ s.openFrame

def CpuOwned (s : State n) (i : Fin (n + 1)) : Prop :=
  test (s.desc i).status ethDmaRxDescOwn = false

instance (s : State n) (i : Fin (n + 1)) : Decidable (CpuOwned s i) :=
  inferInstanceAs (Decidable (_ = _))

/-- The instant between handing a descriptor back and advancing `pDMARxSet`. -/
def advancing : Pc → Bool
  | .discardNext | .freeNext _ => true
  | _ => false

def base (s : State n) : Fin (n + 1) :=
  if advancing s.pc then (s.desc s.pDmaRxSet).buffer2NextDescAddr else s.pDmaRxSet

def peeked : Pc → Option ℕ
  | .alloc src _ | .take src _ _ | .free src _ => some src
  | _ => none

/-- The pieces the driver is done with: those handed back and the one it has
peeked. -/
def consumed (s : State n) : ℕ := s.handedBack + if (peeked s.pc).isSome then 1 else 0

/-- The frames all of whose pieces lie among the first `k`. -/
def wholeFrames : List (List Piece) → ℕ → List (List Piece)
  | [], _ => []
  | f :: fs, k => if f.length ≤ k then f :: wholeFrames fs (k - f.length) else []

/-- What an error-free single-descriptor frame is returned as, and nothing for
any other frame. -/
def delivered : List Piece → Option Returned
  | [p] => if test p.status ethDmaRxDescEs then none else some ⟨frameLen p.status, p.buf⟩
  | _ => none

end EthDriver.RxRing

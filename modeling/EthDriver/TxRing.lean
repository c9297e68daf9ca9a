import EthDriver.Descriptors
import EthDriver.Pbufs
import EthDriver.Runs

namespace EthDriver.TxRing

open Bits Bytes Cyclic Descriptors Pbufs Runs

/-- The values `low_level_output` returns. For `ERR_IF` the model records whether
`xSemaphoreTake` ran into its timeout. -/
inductive Result
  | ok
  | errMem
  | errIf (timedOut : Bool)
  deriving DecidableEq

/-- Where the sending task is in `low_level_output`, with the frame it sends. -/
inductive Pc
  | idle
  | checkLen (p : Pbuf)
  | getTxBuf (p : Pbuf)
  | wait (p : Pbuf)
  | retry (p : Pbuf)
  | copy (p : Pbuf) (dst : ℕ) (q : List (List UInt8)) (off : BitVec 16)
  | setSize (p : Pbuf)
  | setSegment (p : Pbuf)
  | setOwn (p : Pbuf)
  | clearTbus (p : Pbuf)
  | demand (p : Pbuf)
  | advance (p : Pbuf)
  | ret (p : Pbuf) (r : Result)

/-- The transmit side: descriptors and buffers, the driver's `DMATxDescToSet`,
the sender's position, and the DMA's current descriptor. The last two fields
record the frames the DMA sent and those `low_level_output` returned `ERR_OK`
for. -/
structure State (n : ℕ) where
  desc : Table (n + 1)
  mem : Memory
  dmaTxDescToSet : Fin (n + 1)
  pc : Pc
  cur : Fin (n + 1)
  transmitted : List (List UInt8)
  accepted : List (List UInt8)

variable {n : ℕ}

def init (tab : Table (n + 1)) (mem : Memory) : State n :=
  { desc := ethDmaTxDescChainInit tab
    mem := mem
    dmaTxDescToSet := firstDesc
    pc := .idle
    cur := firstDesc
    transmitted := []
    accepted := [] }

namespace State

def goto (s : State n) (pc : Pc) : State n := { s with pc := pc }

def setDesc (s : State n) (f : Desc (n + 1) → Desc (n + 1)) : State n :=
  { s with desc := Function.update s.desc s.dmaTxDescToSet (f (s.desc s.dmaTxDescToSet)) }

end State

open State

def ethGetTxBuf (s : State n) : Option ℕ :=
  if test (s.desc s.dmaTxDescToSet).status ethDmaTxDescOwn then none
  else some (s.desc s.dmaTxDescToSet).buffer1Addr

/-- One step of `low_level_output`, `ETH_SendFrame` included. The argument is
what `xSemaphoreTake` returns when the step is the call to it. -/
def cpuStep (s : State n) (taken : Bool) : State n :=
  match s.pc with
  | .idle | .ret _ _ => s
  | .checkLen p => s.goto (if p.totLen > ethMaxPacketSize then .ret p .errMem else .getTxBuf p)
  | .getTxBuf p =>
    match ethGetTxBuf s with
    | some dst => s.goto (.copy p dst p.segs 0)
    | none => s.goto (.wait p)
  | .wait p => s.goto (if taken then .retry p else .ret p (.errIf true))
  | .retry p =>
    match ethGetTxBuf s with
    | some dst => s.goto (.copy p dst p.segs 0)
    | none => s.goto (.ret p (.errIf false))
  | .copy p dst (q :: rest) off =>
    { s with
      mem := write s.mem (dst + off.toNat) q
      pc := .copy p dst rest (off + BitVec.ofNat 16 q.length) }
  | .copy p _ [] _ => s.goto (.setSize p)
  -- ETH_SendFrame
  | .setSize p =>
    (s.setDesc fun d =>
      { d with controlBufferSize := BitVec.ofNat 32 p.totLen &&& ethDmaTxDescTbs1 }).goto
        (.setSegment p)
  | .setSegment p =>
    (s.setDesc fun d =>
      { d with status := d.status ||| (ethDmaTxDescLs ||| ethDmaTxDescFs) }).goto (.setOwn p)
  | .setOwn p =>
    (s.setDesc fun d => { d with status := d.status ||| ethDmaTxDescOwn }).goto (.clearTbus p)
  | .clearTbus p => s.goto (.demand p)
  | .demand p => s.goto (.advance p)
  | .advance p =>
    { s with
      dmaTxDescToSet := (s.desc s.dmaTxDescToSet).buffer2NextDescAddr
      pc := .ret p .ok
      accepted := s.accepted ++ [p.bytes] }

/-- A call to `low_level_output`. The core lock lets one caller in at a time. -/
def call (s : State n) (p : Pbuf) : State n :=
  match s.pc with
  | .idle | .ret _ _ => s.goto (.checkLen p)
  | _ => s

def frameAt (s : State n) (i : Fin (n + 1)) : List UInt8 :=
  read s.mem (s.desc i).buffer1Addr ((s.desc i).controlBufferSize &&& ethDmaTxDescTbs1).toNat

/-- The DMA sends the frame of its current descriptor, clears `OWN` there, sets
any other status bits, and moves on. -/
def complete (s : State n) (bits : BitVec 32) : State n :=
  let d := s.desc s.cur
  if test d.status ethDmaTxDescOwn then
    { s with
      desc := Function.update s.desc s.cur
        { d with status := (d.status ||| bits) &&& ~~~ethDmaTxDescOwn }
      cur := d.buffer2NextDescAddr
      transmitted := s.transmitted ++ [frameAt s s.cur] }
  else s

inductive Act
  | call (p : Pbuf)
  | cpu (taken : Bool)
  | complete (bits : BitVec 32)

def step (s : State n) : Act → State n
  | .call p => call s p
  | .cpu taken => cpuStep s taken
  | .complete bits => complete s bits

def DmaOwned (s : State n) (i : Fin (n + 1)) : Prop :=
  test (s.desc i).status ethDmaTxDescOwn = true

instance (s : State n) (i : Fin (n + 1)) : Decidable (DmaOwned s i) :=
  inferInstanceAs (Decidable (_ = _))

def returned : Pc → Bool
  | .idle | .ret _ _ => true
  | _ => false

end EthDriver.TxRing

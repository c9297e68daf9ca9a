import EthDriver.RxInvariant

namespace EthDriver.NetifInput

open Bits Bytes Descriptors Pbufs Runs RxRing

/-- lwIP as `ethernetif_input` meets it: what call number `k` of `pbuf_alloc` returns for
a length, counted from 1, and whether `netif->input` takes the chain of that call. An
allocated chain has the length asked for. -/
structure Lwip where
  alloc : ℕ → BitVec 16 → Option Pbuf
  accepts : ℕ → Bool
  alloc_totLen : ∀ k len p, alloc k len = some p → p.totLen = len.toNat

/-- Where the netif task is in `ethernetif_input`: before `xSemaphoreTake`, in
`low_level_input`, before `netif->input` and `pbuf_free` with the chain of call `k`, or
returned. -/
inductive Pc
  | take
  | receive
  | input (k : ℕ) (p : Pbuf)
  | free (k : ℕ) (p : Pbuf)
  | done
  deriving DecidableEq

/-- What happens to descriptors and chains. A peek records the descriptor as it was
found. -/
inductive Event (n : ℕ)
  | discard (i : Fin (n + 1))
  | peek (i : Fin (n + 1)) (piece : Piece)
  | alloc (k : ℕ) (ok : Bool)
  | copy (k : ℕ)
  | handBack (i : Fin (n + 1))
  | input (k : ℕ) (bytes : List UInt8) (ok : Bool)
  | free (k : ℕ)

/-- One call of `ethernetif_input` on a receive ring: `allocs` counts the calls of
`pbuf_alloc`, `log` records the events. -/
structure State (n : ℕ) where
  ring : RxRing.State n
  pc : Pc
  allocs : ℕ
  log : List (Event n)

variable {n : ℕ}

/-- The call is entered with the ring as it is. -/
def start (ring : RxRing.State n) : State n :=
  { ring := ring.goto .idle
    pc := .take
    allocs := 0
    log := [] }

/-- The piece at `pDMARxSet`. -/
def front (ring : RxRing.State n) : Piece :=
  ⟨ring.status, read ring.mem (ring.desc ring.pDmaRxSet).buffer1Addr ethMaxPacketSize⟩

/-- One access of `low_level_input`. -/
def receive (lwip : Lwip) (s : State n) : State n :=
  match s.ring.pc with
  | .addr _ =>
    { s with
      ring := cpuStep s.ring none
      log := s.log ++ [.peek s.ring.pDmaRxSet (front s.ring)] }
  | .discard =>
    { s with ring := cpuStep s.ring none, log := s.log ++ [.discard s.ring.pDmaRxSet] }
  | .alloc _ len =>
    { s with
      ring := cpuStep s.ring (lwip.alloc (s.allocs + 1) len)
      allocs := s.allocs + 1
      log := s.log ++ [.alloc (s.allocs + 1) (lwip.alloc (s.allocs + 1) len).isSome] }
  | .take _ _ _ => { s with ring := cpuStep s.ring none, log := s.log ++ [.copy s.allocs] }
  | .free _ _ =>
    { s with ring := cpuStep s.ring none, log := s.log ++ [.handBack s.ring.pDmaRxSet] }
  | .retNull | .ret none => { s with pc := .done }
  | .ret (some p) => { s with pc := .input s.allocs p }
  | _ => { s with ring := cpuStep s.ring none }

def taskStep (lwip : Lwip) (s : State n) : State n :=
  match s.pc with
  -- with a token or after the timeout
  | .take => { s with ring := call s.ring, pc := .receive }
  | .receive => receive lwip s
  | .input k p =>
    if lwip.accepts k then
      { s with
        ring := call s.ring
        pc := .receive
        log := s.log ++ [.input k p.bytes true] }
    else { s with pc := .free k p, log := s.log ++ [.input k p.bytes false] }
  | .free k _ => { s with ring := call s.ring, pc := .receive, log := s.log ++ [.free k] }
  | .done => s

/-- `poll` is a poll demand from the interrupt handler. -/
inductive Act
  | task
  | dma (a : DmaAct)
  | poll

def step (lwip : Lwip) (s : State n) : Act → State n
  | .task => taskStep lwip s
  | .dma a => { s with ring := dmaStep s.ring a }
  | .poll => { s with ring := s.ring.pollDemand }

end EthDriver.NetifInput

import EthDriver.NetifTask
import EthDriver.Runs
import EthDriver.Traces

namespace EthDriver.RmiiLink

open Bits MacRegs NetifTask Runs Traces

/-- Where the netif task is in an iteration of its loop. Each point from
`throttle` to `pscr` stands before one read of `LocalTime` or of a PHY register
in `WCHNET_HandlePhyNegotiation`; `observe` stands before the `LinkSta` branch and
says whether the call has polled. -/
inductive Pc
  | input
  | throttle
  | stamp
  | bsrLatched
  | bsr
  | pscr
  | observe (polled : Bool)
  deriving DecidableEq

/-- What leaves a trace: the values the PHY returned, the driver's starts and
stops, and the operations of the `LinkSta` branch. -/
inductive Event
  | bsrLatched (v : BitVec 16)
  | bsr (v : BitVec 16)
  | pscr (v : BitVec 16)
  | ethStart
  | ethStop
  | op (o : Op)
  deriving DecidableEq

structure State where
  localTime : BitVec 32
  linkPollTime : BitVec 32
  pc : Pc
  linkSta : Bool
  phyLinkState : Bool
  mac : Mac
  task : Task
  trace : List Event

def ethRegInit : Mac :=
  { maccr := 1#32 <<< 9
    macffr := ethPassControlFramesBlockAll
    dmaomr := ethTransmitStoreForwardEnable ||| ethForwardErrorFramesEnable |||
      ethForwardUndersizedGoodFramesEnable }

/-- `ETH_Init` at some `LocalTime`, followed by the start of the netif task. -/
def init (localTime : BitVec 32) : State :=
  { localTime := localTime
    linkPollTime := localTime - phyLinkTaskPeriod
    pc := .input
    linkSta := false
    phyLinkState := false
    mac := ethRegInit
    task := Task.init
    trace := [] }

namespace State

def goto (s : State) (pc : Pc) : State := { s with pc := pc }

def log (s : State) (e : Event) : State := { s with trace := s.trace ++ [e] }

/-- The link-up edge: `PSCSR` decides the mode, then `ETH_Start`. -/
def linkUp (s : State) (pscr : BitVec 16) : State :=
  { s with
    phyLinkState := true
    mac := ((s.mac.setMaccr ethSpeed100M (test pscr (1#16 <<< 3))).setMaccr ethModeFullDuplex
      (test pscr (1#16 <<< 4))).ethStart
    linkSta := true
    trace := s.trace ++ [.ethStart] }

def linkDown (s : State) : State :=
  { s with phyLinkState := false, mac := s.mac.ethStop, trace := s.trace ++ [.ethStop] }

def exec (s : State) (o : Op) : State :=
  { s with task := s.task.exec o, mac := execMac s.mac o, trace := s.trace ++ [.op o] }

end State

/-- One step of the netif task. `v` is what the PHY returns if the step reads one of
its registers, `bound` the state of the DHCP lease. -/
def cpuStep (useDhcp : Bool) (s : State) (v : BitVec 16) (bound : Bool) : State :=
  match s.pc with
  | .input => s.goto .throttle
  | .throttle =>
    s.goto (if s.localTime - s.linkPollTime < phyLinkTaskPeriod then .observe false else .stamp)
  | .stamp => { s with linkPollTime := s.localTime, pc := .bsrLatched }
  | .bsrLatched => (s.log (.bsrLatched v)).goto .bsr
  | .bsr =>
    let t := s.log (.bsr v)
    if test v phyLinkedStatus then
      if !t.phyLinkState then t.goto .pscr else { t with linkSta := true, pc := .observe true }
    else { (if t.phyLinkState then t.linkDown else t) with linkSta := false, pc := .observe true }
  | .pscr => ((s.log (.pscr v)).linkUp v).goto (.observe true)
  -- nothing else writes LinkSta, so the branch is one step
  | .observe _ => ((linkBranch useDhcp bound s.linkSta s.task).foldl State.exec s).goto .input

/-- `tick` is `WCHNET_TimeIsr` in the timer task, at any point of an iteration. -/
inductive Act
  | tick (timperiod : BitVec 16)
  | cpu (v : BitVec 16) (bound : Bool)

def step (useDhcp : Bool) (s : State) : Act → State
  | .tick timperiod => { s with localTime := s.localTime + timperiod.setWidth 32 }
  | .cpu v bound => cpuStep useDhcp s v bound

def starts : Event → Option Bool
  | .ethStart => some true
  | .ethStop => some false
  | _ => none

def links : Event → Option Bool
  | .op .netifSetLinkUp => some true
  | .op .netifSetLinkDown => some false
  | _ => none

/-- A rising edge and the `dhcp_start` that answers it. -/
def leases : Event → Option Bool
  | .ethStart => some true
  | .op .dhcpStart => some false
  | _ => none

def bsrUsed : Event → Option (BitVec 16)
  | .bsr v => some v
  | _ => none

def pscrRead : Event → Option (BitVec 16)
  | .pscr v => some v
  | _ => none

/-- A bit of the last value recorded, clear if there is none. -/
def lastBit (f : Event → Option (BitVec 16)) (m : BitVec 16) (trace : List Event) : Bool :=
  (last f trace).any (test · m)

end EthDriver.RmiiLink

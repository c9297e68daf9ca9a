import EthDriver.MacRegs
import EthDriver.Runs

namespace EthDriver.Negotiation

open Bits MacRegs Runs

def phyAnlparSelectorField : BitVec 16 := 0x001F
def phyAnlparSelectorValue : BitVec 16 := 0x0001

def phyLinkInit : BitVec 8 := 0x00
def phyLinkWaitSuc : BitVec 8 := 0x80

def phyPnSwitchP : BitVec 8 := 0x00
def phyPnSwitchN : BitVec 8 := 0x04
def phyPnSwitchAuto : BitVec 8 := 0x08

def extenEth10MEn : BitVec 32 := 0x00000004

def lastNegoStat : BitVec 8 := 0x01
def turnPnPolarity : BitVec 8 := 0x02

/-- The variables of the 10M driver, the registers it writes, and the `MDIX` register
of the PHY. `bcrWrites` records what was written to `BCR`, in order. -/
structure State where
  localTime : BitVec 32
  chipId : BitVec 32
  linkSta : Bool
  phyLinkStatus : BitVec 8
  phyStatus : BitVec 8
  phyLinkCnt : BitVec 8
  phySucCnt : BitVec 8
  phyPN : BitVec 8
  trDetectStep : BitVec 8
  trDetectCnt : BitVec 8
  linkTaskPeriod : BitVec 8
  randVal : BitVec 32
  phyLinkReset : Bool
  phyLinkTime : BitVec 32
  reInitMacFlag : Bool
  phyPolarityDetect : Bool
  linkSuccTime : BitVec 32
  phyNegoStat : BitVec 8
  phyNegoLinkTime : BitVec 32
  mac : Mac
  extenCtr : BitVec 32
  mdix : BitVec 16
  bcrWrites : List (BitVec 16)

def nextRandVal (x : BitVec 32) : BitVec 32 := x * 214017 + 2531017

/-- The state after `ETH_Init`, which seeds `RandVal` from the MAC address and turns
the clock of the PHY on. -/
def init (localTime chipId extenCtr : BitVec 32) (mac3 mac4 mac5 : BitVec 8) : State :=
  { localTime := localTime
    chipId := chipId
    linkSta := false
    phyLinkStatus := 0
    phyStatus := 0
    phyLinkCnt := 0
    phySucCnt := 0
    phyPN := phyPnSwitchAuto
    trDetectStep := 0
    trDetectCnt := 0
    linkTaskPeriod := 50
    randVal := nextRandVal ((mac3 ^^^ mac4 ^^^ mac5).setWidth 32)
    phyLinkReset := false
    phyLinkTime := 0
    reInitMacFlag := false
    phyPolarityDetect := false
    linkSuccTime := 0
    phyNegoStat := 0
    phyNegoLinkTime := 0
    mac :=
      { maccr := ethInternalPullUpResEnable ||| 1#32 <<< 9
        macffr := ethPassControlFramesBlockAll
        dmaomr := ethTransmitStoreForwardEnable ||| ethForwardErrorFramesEnable |||
          ethForwardUndersizedGoodFramesEnable }
    extenCtr := extenCtr ||| extenEth10MEn
    mdix := phyPnSwitchAuto.setWidth 16
    bcrWrites := [phyReset] }

/-- The values one call of `WCHNET_HandlePhyNegotiation` reads. `ANLPAR` is read once to
accelerate and once to process, `BCR` twice to restart, `MMCRGUFCR` once before and
once after the counters may have been reset. -/
structure Regs where
  anlparFast : BitVec 16
  anlpar : BitVec 16
  bmsr : BitVec 16
  bcr : BitVec 16
  bcrAgain : BitVec 16
  mmcrgufcr : BitVec 32
  mmcrfcecr : BitVec 32
  mmcrgufcrAgain : BitVec 32

structure LinkRegs where
  bsr : BitVec 16
  bcr : BitVec 16
  anlpar : BitVec 16
  phyStatus : BitVec 16

def accelerateLinkProcess (s : State) (r : Regs) : State :=
  if s.trDetectStep < 2 && test r.anlparFast phyAnlparSelectorField then
    { s with linkTaskPeriod := 0 }
  else s

/-- The period drawn from `RandVal`, which fits a byte. -/
def randPeriod (randVal : BitVec 32) : BitVec 8 := (randVal % 100 + 50).setWidth 8

def updateLinkTaskPeriod (s : State) : State :=
  if s.trDetectStep = 1 then
    { s with
      randVal := nextRandVal s.randVal
      linkTaskPeriod := randPeriod (nextRandVal s.randVal) }
  else { s with linkTaskPeriod := 50 }

def phyRestartAutonegotiation (s : State) (r : Regs) : State :=
  { s with bcrWrites := s.bcrWrites ++ [(r.bcr &&& ~~~1#16) ||| phyRestartAutoNegotiation,
      r.bcrAgain ||| (3#16 ||| phyRestartAutoNegotiation)] }

def phyTrSwitch (s : State) (r : Regs) : State :=
  let mdix := if test s.mdix 1#16 then (s.mdix &&& ~~~3#16) ||| 1#16 <<< 1
    else (s.mdix &&& ~~~3#16) ||| 1#16
  phyRestartAutonegotiation { s with mdix := mdix } r

/-- `PHY_PN_SWITCH`. What it writes to `MDIX` has passed through the byte `phyPN`. -/
def phyPnSwitch (s : State) (r : Regs) (pnMode : BitVec 8) : State :=
  let written : BitVec 8 :=
    if pnMode = phyPnSwitchAuto then phyPnSwitchAuto
    else ((s.mdix &&& ~~~(3#16 <<< 2)) ||| pnMode.setWidth 16).setWidth 8
  phyRestartAutonegotiation { s with mdix := written.setWidth 16, phyPN := pnMode } r

def phyNegotiationParamInit (s : State) : State :=
  { s with
    phyStatus := 0
    phySucCnt := 0
    phyLinkCnt := 0
    trDetectStep := 0
    phyPolarityDetect := false
    phyLinkStatus := phyLinkInit
    phyPN := phyPnSwitchAuto
    mdix := phyPnSwitchAuto.setWidth 16 }

def phyLinkReset (s : State) : State :=
  phyNegotiationParamInit { s with bcrWrites := s.bcrWrites ++ [phyReset] }

/-- No good unicast frame and three CRC errors: try the other polarity. -/
def flipPolarity (s : State) (r : Regs) : State :=
  if r.mmcrgufcr = 0 ∧ 3 ≤ r.mmcrfcecr then
    { s with
      mdix := if test (s.mdix >>> 2) 1#16 then s.mdix &&& ~~~(3#16 <<< 2)
        else s.mdix ||| 1#16 <<< 2 }
  else s

def wchnetPhyPnProcess (s : State) (r : Regs) : State :=
  let s := flipPolarity { s with linkSuccTime := s.localTime } r
  if r.mmcrgufcrAgain ≠ 0 then
    { s with phyPolarityDetect := false, mac := s.mac.ethEnableMacFilter }
  else s

def endDetect (s : State) : State :=
  if s.trDetectStep = 1 then { s with trDetectStep := 2, trDetectCnt := 0 } else s

/-- While it waits for success the driver counts, and tries the other polarity when
the count is five and `BMSR` shows no completed negotiation. -/
def awaitSuccess (s : State) (r : Regs) : State :=
  -- the increment happens before BMSR is looked at, so it also happens when the test fails
  if s.phySucCnt = 5 ∧ test r.bmsr (1#16 <<< 5) = false then
    phyPnSwitch { s with phySucCnt := 0 } r
      (if s.phyPN = phyPnSwitchN then phyPnSwitchP else phyPnSwitchN)
  else { s with phySucCnt := s.phySucCnt + 1 }

def polarity (s : State) (r : Regs) : State :=
  if test s.phyLinkStatus phyLinkWaitSuc then awaitSuccess s r
  else if s.phyPN = phyPnSwitchAuto then phyPnSwitch s r phyPnSwitchP
  else { s with phyLinkStatus := phyLinkWaitSuc }

/-- `WCHNET_LinkProcess` where the link partner's selector field is set. -/
def linkProcessPartner (s : State) (r : Regs) : State :=
  if s.trDetectStep = 0 then
    phyTrSwitch
      { s with trDetectStep := 1, trDetectCnt := 1, linkTaskPeriod := randPeriod s.randVal } r
  else { polarity (endDetect s) r with phyLinkCnt := 0 }

def backToAuto (s : State) (r : Regs) : State :=
  phyPnSwitch
    { s with phyLinkCnt := 0, phySucCnt := 0, trDetectStep := 0, phyLinkStatus := phyLinkInit }
    r phyPnSwitchAuto

/-- The other pair is tried, until the seventh time. -/
def nextDetect (s : State) (r : Regs) : State :=
  if s.trDetectCnt + 1 = 8 then
    { s with trDetectCnt := 0, trDetectStep := 0, mdix := phyPnSwitchAuto.setWidth 16 }
  else phyTrSwitch { s with trDetectCnt := s.trDetectCnt + 1 } r

/-- One more call without an answer: `phyLinkCnt++` compared with a bound, and what
happens when it is met. -/
def countTo (s : State) (bound : BitVec 8) (met : State) : State :=
  if s.phyLinkCnt = bound then met else { s with phyLinkCnt := s.phyLinkCnt + 1 }

/-- `WCHNET_LinkProcess` where the selector field is clear. -/
def linkProcessSilent (s : State) (r : Regs) : State :=
  if s.trDetectStep = 1 then nextDetect s r
  else if s.phyLinkStatus = phyLinkWaitSuc then countTo s 15 (backToAuto s r)
  else if s.phyPN = phyPnSwitchP then
    countTo s 4 (phyPnSwitch { s with phyLinkCnt := 0 } r phyPnSwitchN)
  else if s.phyPN = phyPnSwitchN then countTo s 15 (backToAuto s r)
  else countTo s 100 (phyLinkReset s)

def wchnetLinkProcess (s : State) (r : Regs) : State :=
  if test r.anlpar phyAnlparSelectorField then linkProcessPartner s r else linkProcessSilent s r

/-- The throttled part of the handler while there is no link. -/
def linkTask (s : State) (r : Regs) : State :=
  if s.linkTaskPeriod.setWidth 32 ≤ s.localTime - s.phyLinkTime then
    wchnetLinkProcess { updateLinkTaskPeriod s with phyLinkTime := s.localTime } r
  else s

def reInitCheck (s : State) (r : Regs) : State :=
  if s.reInitMacFlag ∧ 5 * phyLinkTaskPeriod ≤ s.localTime - s.phyLinkTime then
    if test r.bmsr phyLinkedStatus then { s with reInitMacFlag := false }
    else phyLinkReset { s with reInitMacFlag := false }
  else s

def polarityCheck (s : State) (r : Regs) : State :=
  if s.phyPolarityDetect ∧ 2 * phyLinkTaskPeriod ≤ s.localTime - s.linkSuccTime then
    wchnetPhyPnProcess s r
  else s

def wchnetHandlePhyNegotiation (s : State) (r : Regs) : State :=
  -- a link-down leaves the clock of the PHY off for 500 ms
  if s.phyLinkReset then
    if 500 ≤ s.localTime - s.phyLinkTime then
      phyLinkReset { s with phyLinkReset := false, extenCtr := s.extenCtr ||| extenEth10MEn }
    else s
  else if s.phyStatus = 0 then
    { linkTask (accelerateLinkProcess s r) r with reInitMacFlag := false }
  else polarityCheck (reInitCheck s r) r

def ethLinkUpCfg (s : State) : State :=
  { s with
    linkSta := true
    phyStatus := phyLinkedStatus.setWidth 8
    mac := { s.mac.setMaccr (ethSpeed100M ||| ethSpeed1000M) false with
      macffr := s.mac.macffr ||| (ethReceiveAllEnable ||| ethPromiscuousModeEnable) }.ethStart
    phyPolarityDetect := true
    linkSuccTime := s.localTime }

/-- The clock of the PHY goes off for the 500 ms hold-off. -/
def holdOff (s : State) : State :=
  { s with
    extenCtr := s.extenCtr &&& ~~~extenEth10MEn
    phyLinkReset := true
    phyLinkTime := s.localTime
    linkSta := false }

/-- On some chips a link-up by parallel detection selects the polarity by hand and is
remembered with its time. -/
def selectPolarity (s : State) : State :=
  if test s.phyNegoStat turnPnPolarity then
    { s with mdix := phyPnSwitchN.setWidth 16, phyNegoLinkTime := s.localTime }
  else
    { s with
      mdix := phyPnSwitchP.setWidth 16
      phyNegoStat := s.phyNegoStat ||| lastNegoStat
      phyNegoLinkTime := s.localTime }

/-- A link-up in which the partner has not negotiated. -/
def parallelDetection (s : State) : State :=
  let s := ethLinkUpCfg { s with mac := s.mac.setMaccr ethModeFullDuplex false }
  if s.chipId &&& 0xf0#32 = 0x20#32 then selectPolarity s else s

def negotiated (s : State) (r : LinkRegs) : State :=
  let s := { s with phyNegoStat := 0 }
  if test r.bsr phyAutoNegoComplete then
    let full := test r.phyStatus (1#16 <<< 2) ||
      (r.anlpar &&& phyAnlparSelectorField != phyAnlparSelectorValue)
    ethLinkUpCfg { s with mac := s.mac.setMaccr ethModeFullDuplex full }
  else holdOff s

def linkDown (s : State) : State :=
  let s := holdOff s
  if s.chipId &&& 0xf0#32 = 0x20#32 ∧ test s.phyNegoStat lastNegoStat ∧
      s.localTime - s.phyNegoLinkTime < 100 then
    { s with phyNegoLinkTime := 0, phyNegoStat := s.phyNegoStat ^^^ turnPnPolarity }
  else s

def ethPhyLink (s : State) (r : LinkRegs) : State :=
  if test r.bsr phyLinkedStatus then
    if test r.bcr phyAutoNegotiation then
      if r.anlpar = 0 then
        if test r.bsr phyAutoNegoComplete then parallelDetection s else phyLinkReset s
      else negotiated s r
    else ethLinkUpCfg { s with mac := s.mac.setMaccr ethModeFullDuplex false }
  else linkDown s

/-- The interrupt ends in `ETH_LinkUpCfg`. -/
def linksUp (r : LinkRegs) : Bool :=
  test r.bsr phyLinkedStatus &&
    (!test r.bcr phyAutoNegotiation || test r.bsr phyAutoNegoComplete)

/-- The interrupt ends in `PHY_LINK_RESET`: the link is up, but the partner has sent
nothing and the negotiation is not complete. -/
def resetsLink (r : LinkRegs) : Bool :=
  test r.bsr phyLinkedStatus && test r.bcr phyAutoNegotiation && decide (r.anlpar = 0) &&
    !test r.bsr phyAutoNegoComplete

/-- `mdix` lets the PHY answer the next read of `MDIX` with any value: no call reads it
twice or after writing it. -/
inductive Act
  | tick (timperiod : BitVec 16)
  | handle (r : Regs)
  | phyLink (r : LinkRegs)
  | mdix (v : BitVec 16)

def step (s : State) : Act → State
  | .tick timperiod => { s with localTime := s.localTime + timperiod.setWidth 32 }
  | .handle r => wchnetHandlePhyNegotiation s r
  | .phyLink r => ethPhyLink s r
  | .mdix v => { s with mdix := v }

end EthDriver.Negotiation

import EthDriver.Bits

namespace EthDriver.MacRegs

open Bits

def ethMaccrTe : BitVec 32 := 0x00000008
def ethMaccrRe : BitVec 32 := 0x00000004
def ethSpeed100M : BitVec 32 := 0x00004000
def ethSpeed1000M : BitVec 32 := 0x00008000
def ethModeFullDuplex : BitVec 32 := 0x00000800
def ethInternalPullUpResEnable : BitVec 32 := 0x00100000
def ethReceiveAllEnable : BitVec 32 := 0x80000000
def ethPromiscuousModeEnable : BitVec 32 := 0x00000001
def ethPassControlFramesBlockAll : BitVec 32 := 0x00000040
def ethTransmitStoreForwardEnable : BitVec 32 := 0x00200000
def ethForwardErrorFramesEnable : BitVec 32 := 0x00000080
def ethForwardUndersizedGoodFramesEnable : BitVec 32 := 0x00000040
def ethDmaomrFtf : BitVec 32 := 0x00100000
def ethDmaomrSt : BitVec 32 := 0x00002000
def ethDmaomrSr : BitVec 32 := 0x00000002

def phyReset : BitVec 16 := 0x8000
def phyAutoNegotiation : BitVec 16 := 0x1000
def phyRestartAutoNegotiation : BitVec 16 := 0x0200
def phyAutoNegoComplete : BitVec 16 := 0x0020
def phyLinkedStatus : BitVec 16 := 0x0004

def phyLinkTaskPeriod : BitVec 32 := 50

/-- The MAC registers the link handling of both drivers writes. -/
structure Mac where
  maccr : BitVec 32
  macffr : BitVec 32
  dmaomr : BitVec 32

namespace Mac

def setMaccr (m : Mac) (bits : BitVec 32) (on : Bool) : Mac :=
  { m with maccr := if on then m.maccr ||| bits else m.maccr &&& ~~~bits }

def setDmaomr (m : Mac) (bits : BitVec 32) (on : Bool) : Mac :=
  { m with dmaomr := if on then m.dmaomr ||| bits else m.dmaomr &&& ~~~bits }

def ethMacTransmissionCmd (m : Mac) (newState : Bool) : Mac := m.setMaccr ethMaccrTe newState

def ethMacReceptionCmd (m : Mac) (newState : Bool) : Mac := m.setMaccr ethMaccrRe newState

def ethFlushTransmitFifo (m : Mac) : Mac := m.setDmaomr ethDmaomrFtf true

def ethDmaTransmissionCmd (m : Mac) (newState : Bool) : Mac := m.setDmaomr ethDmaomrSt newState

def ethDmaReceptionCmd (m : Mac) (newState : Bool) : Mac := m.setDmaomr ethDmaomrSr newState

def ethStart (m : Mac) : Mac :=
  ((((m.ethMacTransmissionCmd true).ethFlushTransmitFifo).ethMacReceptionCmd true
    ).ethDmaTransmissionCmd true).ethDmaReceptionCmd true

/-- `ETH_Stop` of the RMII driver leaves the DMA running. -/
def ethStop (m : Mac) : Mac :=
  ((m.ethMacTransmissionCmd false).ethFlushTransmitFifo).ethMacReceptionCmd false

def ethEnableMacFilter (m : Mac) : Mac :=
  { m with macffr := m.macffr &&& ~~~(ethReceiveAllEnable ||| ethPromiscuousModeEnable) }

theorem setMaccr_self (m : Mac) {bits : BitVec 32} (h : test bits bits = true) (on : Bool) :
    test (m.setMaccr bits on).maccr bits = on := by
  cases on with
  | true => simp [setMaccr, h]
  | false =>
    change test (m.maccr &&& ~~~bits) bits = false
    rw [test_eq_false, BitVec.and_assoc, BitVec.not_and_self]
    simp

theorem setMaccr_other (m : Mac) {bits mask : BitVec 32} (h : test bits mask = false) (on : Bool) :
    test (m.setMaccr bits on).maccr mask = test m.maccr mask := by
  cases on with
  | true => simp [setMaccr, h]
  | false => exact test_clear_of_not m.maccr h

theorem setMaccr_outside (m : Mac) {bits mask : BitVec 32} (h : bits &&& mask = 0)
    (h' : ~~~bits &&& mask = mask) (on : Bool) :
    (m.setMaccr bits on).maccr &&& mask = m.maccr &&& mask := by
  cases on with
  | true =>
    change (m.maccr ||| bits) &&& mask = _
    rw [BitVec.and_or_distrib_right, h, BitVec.ofNat_eq_ofNat, BitVec.or_zero]
  | false =>
    change m.maccr &&& ~~~bits &&& mask = _
    rw [BitVec.and_assoc, h']

theorem ethStart_maccr (m : Mac) :
    m.ethStart.maccr = ((m.setMaccr ethMaccrTe true).setMaccr ethMaccrRe true).maccr := rfl

theorem ethStop_maccr (m : Mac) :
    m.ethStop.maccr = ((m.setMaccr ethMaccrTe false).setMaccr ethMaccrRe false).maccr := rfl

end Mac

end EthDriver.MacRegs

import EthDriver.IcmpEcho
import EthDriver.IdealClock
import EthDriver.InetChksum
import EthDriver.Ip4
import EthDriver.MacFilter
import EthDriver.MacrawTx
import EthDriver.MdixFields
import EthDriver.MemRow
import EthDriver.OnesComplement
import EthDriver.PbufChain
import EthDriver.PolarityRetry
import EthDriver.PolarityTurn
import EthDriver.QueueDeque
import EthDriver.QueueWakeups
import EthDriver.RmiiMode
import EthDriver.RxDrain
import EthDriver.RxFates
import EthDriver.RxStall
import EthDriver.TcpipFifo
import EthDriver.TxBackpressure
import EthDriver.Udp

import EthDriver.MacRegs

namespace EthDriver.NetifTask

open MacRegs

/-- The local variables of `lwip_netif_thread`, and the link flag lwIP keeps for
the interface. -/
structure Task where
  linkWasUp : Bool
  dhcpStarted : Bool
  ipPrinted : Bool
  netifLinkUp : Bool

def Task.init : Task := ⟨false, false, false, false⟩

inductive Message
  | linkUp
  | linkDown
  | dhcpBound
  deriving DecidableEq

/-- What the `LinkSta` branch of `lwip_netif_thread` does, one call or assignment
at a time. -/
inductive Op
  | linkWasUp (b : Bool)
  | netifSetLinkUp
  | netifSetLinkDown
  | ethEnableMacFilter
  | dhcpStarted (b : Bool)
  | dhcpStart
  | ipPrinted (b : Bool)
  | printf (m : Message)
  deriving DecidableEq

/-- The operations of the branch in order. `bound` is whether `netif_dhcp_data`
reports a bound lease when it is asked. The second test of `dhcp_started` comes
after the edge has set it. -/
def linkBranch (useDhcp bound linkSta : Bool) (t : Task) : List Op :=
  if linkSta then
    (if !t.linkWasUp then
      [.linkWasUp true, .netifSetLinkUp, .ethEnableMacFilter, .printf .linkUp] ++
        (if useDhcp && !t.dhcpStarted then [.dhcpStarted true, .dhcpStart] else [])
    else []) ++
    (if useDhcp && (t.dhcpStarted || !t.linkWasUp) && bound && !t.ipPrinted then
      [.ipPrinted true, .printf .dhcpBound]
    else [])
  else if t.linkWasUp then
    [.linkWasUp false] ++ (if useDhcp then [.dhcpStarted false, .ipPrinted false] else []) ++
      [.netifSetLinkDown, .printf .linkDown]
  else []

def Task.exec (t : Task) : Op → Task
  | .linkWasUp b => { t with linkWasUp := b }
  | .netifSetLinkUp => { t with netifLinkUp := true }
  | .netifSetLinkDown => { t with netifLinkUp := false }
  | .dhcpStarted b => { t with dhcpStarted := b }
  | .ipPrinted b => { t with ipPrinted := b }
  | .ethEnableMacFilter | .dhcpStart | .printf _ => t

def execMac (m : Mac) : Op → Mac
  | .ethEnableMacFilter => m.ethEnableMacFilter
  | _ => m

section Branch

variable (useDhcp bound linkSta : Bool) (t : Task)

/-- The branch leaves the task and lwIP with the observed link. -/
theorem linkBranch_linkWasUp :
    ((linkBranch useDhcp bound linkSta t).foldl Task.exec t).linkWasUp = linkSta := by
  obtain ⟨w, d, i, n⟩ := t
  revert useDhcp bound linkSta w d i n
  decide

theorem linkBranch_netifLinkUp (h : t.netifLinkUp = t.linkWasUp) :
    ((linkBranch useDhcp bound linkSta t).foldl Task.exec t).netifLinkUp = linkSta := by
  obtain ⟨w, d, i, n⟩ := t
  revert useDhcp bound linkSta w d i n
  decide

theorem linkBranch_dhcpStarted (h : t.dhcpStarted = t.linkWasUp) :
    ((linkBranch true bound linkSta t).foldl Task.exec t).dhcpStarted = linkSta := by
  obtain ⟨w, d, i, n⟩ := t
  revert bound linkSta w d i n
  decide

end Branch

theorem foldl_execMac_maccr (ops : List Op) (m : Mac) : (ops.foldl execMac m).maccr = m.maccr := by
  induction ops generalizing m with
  | nil => rfl
  | cons o ops ih =>
    rw [List.foldl_cons, ih]
    cases o <;> rfl

end EthDriver.NetifTask

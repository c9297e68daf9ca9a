import EthDriver.Ip4

namespace EthDriver.Udp

open EthDriver.Bytes EthDriver.OnesComplement EthDriver.PbufChain EthDriver.InetChksum
open EthDriver.Ip4

@[ext] structure UdpHdr where
  src : BitVec 16
  dest : BitVec 16
  len : BitVec 16
  chksum : BitVec 16
  deriving DecidableEq

def udpHlen : ℕ := 8

def UdpHdr.front (h : UdpHdr) : List UInt8 := store16 h.src ++ store16 h.dest ++ store16 h.len

def UdpHdr.toBytes (h : UdpHdr) : List UInt8 := h.front ++ store16 h.chksum

def UdpHdr.ofBytes (data : List UInt8) : UdpHdr where
  src := at16 data 0
  dest := at16 data 2
  len := at16 data 4
  chksum := at16 data 6

@[simp] theorem UdpHdr.front_length (h : UdpHdr) : h.front.length = 6 := by simp [front]

@[simp] theorem UdpHdr.toBytes_length (h : UdpHdr) : h.toBytes.length = 8 := by simp [toBytes]

theorem UdpHdr.ofBytes_toBytes (h : UdpHdr) (rest : List UInt8) :
    ofBytes (h.toBytes ++ rest) = h := by
  apply UdpHdr.ext
  all_goals exact at16_eq rfl

/-- `struct udp_pcb`; whether a `recv` function is registered stands for it. -/
structure UdpPcb where
  localIp : BitVec 32
  remoteIp : BitVec 32
  netifIdx : BitVec 8
  tos : UInt8
  ttl : UInt8
  flags : BitVec 8
  localPort : BitVec 16
  remotePort : BitVec 16
  recv : Bool
  deriving DecidableEq

def udpFlagsNochksum : BitVec 8 := 0x01
def udpFlagsConnected : BitVec 8 := 0x04

inductive Err
  | mem | buf
  deriving DecidableEq

/-- The offset of `PBUF_IP` packets, rounded up to `MEM_ALIGNMENT`. -/
def pbufIp : ℕ := 36

/-- The chain that gets the header: the given one, or a new `pbuf` in front of it
whose payload lies at `alloc`, if the heap has room for one. -/
def withHeader (p : Chain) (hdr : UdpHdr) (alloc : Option ℕ) : Except Err Chain :=
  if h : udpHlen + p.totLen < 65536 then
    match pbufAddHeader p hdr.toBytes, alloc with
    | some q, _ => .ok q
    | none, none => .error .mem
    | none, some payload => .ok {
        headroom := pbufIp
        first := ⟨payload, hdr.toBytes, by simp⟩
        -- the given chain is only appended when it holds data
        next := if p.totLen = 0 then [] else p.segs
        totLen_lt := by
          rw [Chain.totLen, Chain.bytes] at *
          rw [List.length_append, UdpHdr.toBytes_length]
          split
          · decide
          · exact h }
  else .error .mem

def fillChksum (netif : Netif) (pcb : UdpPcb) (q : Chain) (srcIp dstIp : BitVec 32) : Chain :=
  if netif.checksumEnabled netifChecksumGenUdp && pcb.flags &&& udpFlagsNochksum == 0#8 then
    let udpchksum :=
      inetChksumPseudo q.segs ipProtoUdp.toBitVec (BitVec.ofNat 16 q.totLen) srcIp dstIp
    -- zero means that there is no checksum
    q.store 6 (store16 (if udpchksum == 0#16 then 0xffff#16 else udpchksum))
  else q

/-- `udp_sendto_if_src` for a bound pcb: what is handed to the netif, and the
next `ip_id`. -/
def udpSendtoIfSrc (netif : Netif) (ipId : BitVec 16) (pcb : UdpPcb) (p : Chain)
    (alloc : Option ℕ) (dstIp : BitVec 32) (dstPort : BitVec 16) (srcIp : BitVec 32) :
    Except Err Chain × BitVec 16 :=
  let udphdr : UdpHdr := {
    src := lwipHtons pcb.localPort
    dest := lwipHtons dstPort
    len := lwipHtons (BitVec.ofNat 16 (udpHlen + p.totLen))
    chksum := 0 }
  match withHeader p udphdr alloc with
  | .error e => (.error e, ipId)
  | .ok q =>
    let q := fillChksum netif pcb q srcIp dstIp
    match ip4OutputIfSrc netif ipId q srcIp dstIp pcb.ttl pcb.tos ipProtoUdp with
    | (none, ipId) => (.error .buf, ipId)
    | (some q, ipId) => (.ok q, ipId)

def udpInputLocalMatch (pcb : UdpPcb) (inp : Netif) (dest : BitVec 32) (broadcast : Bool) : Bool :=
  if pcb.netifIdx != 0#8 && pcb.netifIdx != inp.num + 1#8 then false
  else if broadcast then
    pcb.localIp == 0#32 || dest == 0xffffffff#32 ||
      pcb.localIp &&& inp.netmask == dest &&& inp.netmask
  else pcb.localIp == 0#32 || pcb.localIp == dest

/-- The addresses of the datagram that is being demultiplexed, ports in host order. -/
structure Flow where
  inp : Netif
  srcIp : BitVec 32
  destIp : BitVec 32
  src : BitVec 16
  dest : BitVec 16

def Flow.broadcast (f : Flow) : Bool := ip4AddrIsbroadcast f.destIp f.inp

def Flow.isLocal (f : Flow) (pcb : UdpPcb) : Bool :=
  pcb.localPort == f.dest && udpInputLocalMatch pcb f.inp f.destIp f.broadcast

def Flow.isRemote (f : Flow) (pcb : UdpPcb) : Bool :=
  pcb.remotePort == f.src && (pcb.remoteIp == 0#32 || pcb.remoteIp == f.srcIp)

/-- The choice among the unconnected pcbs that match: the first one, and for a
global broadcast the one that is bound to the address of the netif. -/
def chooseUncon (f : Flow) (unconPcb : Option UdpPcb) (pcb : UdpPcb) : Option UdpPcb :=
  if pcb.flags &&& udpFlagsConnected == 0#8 then
    match unconPcb with
    | none => some pcb
    | some u =>
      if f.broadcast && f.destIp == 0xffffffff#32 && u.localIp != f.inp.ipAddr &&
          pcb.localIp == f.inp.ipAddr then some pcb
      else some u
  else unconPcb

/-- The loop over `udp_pcbs` in `udp_input`; `passed` are the pcbs before the
current one, the last of them first. A pcb that matches fully moves to the front. -/
def search (f : Flow) (passed : List UdpPcb) (unconPcb : Option UdpPcb) :
    List UdpPcb → Option UdpPcb × List UdpPcb
  | [] => (unconPcb, passed.reverse)
  | pcb :: next =>
    if f.isLocal pcb then
      if f.isRemote pcb then (some pcb, pcb :: (passed.reverse ++ next))
      else search f (pcb :: passed) (chooseUncon f unconPcb pcb) next
    else search f (pcb :: passed) unconPcb next

inductive Outcome
  | lenerr | notForUs | chkerr | portUnreach | noPort | noRecv
  | recv (pcb : UdpPcb) (p : Chain) (srcIp : BitVec 32) (src : BitVec 16)
  deriving DecidableEq

def udpInput (inp : Netif) (srcIp destIp : BitVec 32) (p : Chain) (udpPcbs : List UdpPcb) :
    Outcome × List UdpPcb :=
  if p.len < udpHlen then (.lenerr, udpPcbs)
  else
    let udphdr := UdpHdr.ofBytes p.first.data
    let f : Flow := ⟨inp, srcIp, destIp, lwipHtons udphdr.src, lwipHtons udphdr.dest⟩
    let (pcb, udpPcbs) := search f [] none udpPcbs
    if pcb.isNone && inp.ipAddr != destIp then (.notForUs, udpPcbs)
    else if inp.checksumEnabled netifChecksumCheckUdp && udphdr.chksum != 0#16 &&
        inetChksumPseudo p.segs ipProtoUdp.toBitVec (BitVec.ofNat 16 p.totLen) srcIp destIp != 0#16
      then (.chkerr, udpPcbs)
    else
      match pbufRemoveHeader p udpHlen, pcb with
      | none, _ => (.lenerr, udpPcbs)
      | some q, some pcb => (if pcb.recv then .recv pcb q srcIp f.src else .noRecv, udpPcbs)
      | some _, none =>
        (if !f.broadcast && !ip4AddrIsmulticast destIp then .portUnreach else .noPort, udpPcbs)

/-- The way of a datagram through `ip4_input`. -/
def receiveDatagram (inp : Netif) (r : Chain) (udpPcbs : List UdpPcb) :
    Option (Outcome × List UdpPcb) :=
  match ip4Input inp r with
  | .deliver iphdr p =>
    let iphdr := IpHdr.ofBytes iphdr
    if iphdr.proto == ipProtoUdp then some (udpInput inp iphdr.src iphdr.dest p udpPcbs) else none
  | _ => none

theorem withHeader_bytes {p q : Chain} {hdr : UdpHdr} {alloc : Option ℕ}
    (h : withHeader p hdr alloc = .ok q) :
    q.bytes = hdr.toBytes ++ p.bytes ∧ udpHlen + p.totLen < 65536 ∧
      ∃ rest, q.first.data = hdr.toBytes ++ rest := by
  unfold withHeader at h
  split at h
  · next hroom =>
    split at h
    · next q' hadd =>
      cases h
      obtain ⟨hbytes, hfirst, -⟩ := pbufAddHeader_bytes hadd
      exact ⟨hbytes, hroom, _, hfirst⟩
    · cases h
    · cases h
      refine ⟨?_, hroom, [], (List.append_nil _).symm⟩
      rw [Chain.bytes_eq]
      dsimp only
      split
      · next hempty => rw [List.eq_nil_of_length_eq_zero hempty, bytes_nil]
      · rfl
  · cases h

/-- The checksum that is sent is never zero, and verifies with the pseudo header. -/
theorem udpchksum_valid (hdr : UdpHdr) (pseudo payload : List UInt8) (u : BitVec 16)
    (hpseudo : pseudo.length % 2 = 0)
    (hu : u.toNat = internetChecksum (pseudo ++ ({ hdr with chksum := 0 }.toBytes ++ payload))) :
    let c := if u == 0#16 then 0xffff#16 else u
    c ≠ 0#16 ∧ internetChecksum (pseudo ++ ({ hdr with chksum := c }.toBytes ++ payload)) = 0 := by
  have hstored : ∀ c : BitVec 16, pseudo ++ ({ hdr with chksum := c }.toBytes ++ payload) =
      (pseudo ++ hdr.front) ++ read (le c.toNat) 0 2 ++ payload := by
    intro c
    simp only [List.append_assoc, UdpHdr.toBytes, store16]
    rfl
  have hzero : pseudo ++ ({ hdr with chksum := 0 }.toBytes ++ payload) =
      (pseudo ++ hdr.front) ++ [0, 0] ++ payload := by
    rw [hstored]
    exact congrArg (fun d => (pseudo ++ hdr.front) ++ d ++ payload) store16_zero
  have heven : (pseudo ++ hdr.front).length % 2 = 0 := by
    rw [List.length_append, hdr.front_length]
    omega
  intro c
  rw [hzero] at hu
  rw [hstored, internetChecksum_word _ _ heven c.isLt, ← hu]
  by_cases h : u = 0#16
  · subst h
    exact ⟨by decide, .inr ⟨rfl, rfl⟩⟩
  · have hc : c = u := if_neg (by simpa using h)
    rw [hc]
    exact ⟨h, .inl rfl⟩

theorem store_chksum_bytes {q : Chain} {hdr : UdpHdr} {rest payload : List UInt8} (c : BitVec 16)
    (hbytes : q.bytes = hdr.toBytes ++ payload) (hfirst : q.first.data = hdr.toBytes ++ rest) :
    (q.store 6 (store16 c)).bytes = { hdr with chksum := c }.toBytes ++ payload := by
  have hsplit : q.first.data = hdr.front ++ (store16 hdr.chksum ++ rest) := by
    rw [hfirst, UdpHdr.toBytes, List.append_assoc]
  have hstore := Chain.store_first hsplit (show (store16 c).length = _ by simp)
  rw [hdr.front_length] at hstore
  have hrest : payload = rest ++ PbufChain.bytes q.next := by
    rw [Chain.bytes_eq, hfirst, List.append_assoc] at hbytes
    exact (List.append_cancel_left hbytes).symm
  rw [Chain.bytes_eq, hstore, Chain.store_next, hrest]
  simp only [List.append_assoc, UdpHdr.toBytes]
  rfl

theorem fillChksum_spec (netif : Netif) (pcb : UdpPcb) {q : Chain} {hdr : UdpHdr}
    {rest payload : List UInt8} (srcIp dstIp : BitVec 32)
    (hbytes : q.bytes = hdr.toBytes ++ payload) (hfirst : q.first.data = hdr.toBytes ++ rest)
    (hzero : hdr.chksum = 0) :
    let d := fillChksum netif pcb q srcIp dstIp
    ∃ c, d.bytes = { hdr with chksum := c }.toBytes ++ payload ∧
      (c = 0#16 ∨ inetChksumPseudo d.segs ipProtoUdp.toBitVec (BitVec.ofNat 16 d.totLen)
        srcIp dstIp = 0#16) := by
  have hhdr : ({ hdr with chksum := 0 } : UdpHdr) = hdr := by rw [← hzero]
  unfold fillChksum
  split
  · generalize hu : inetChksumPseudo q.segs _ _ srcIp dstIp = u
    have hd := store_chksum_bytes (if u == 0#16 then 0xffff#16 else u) hbytes hfirst
    refine ⟨_, hd, .inr ?_⟩
    dsimp only
    generalize q.store 6 _ = d at hd
    have htot : d.totLen = q.totLen := by
      rw [Chain.totLen, Chain.totLen, hd, hbytes, List.length_append, List.length_append,
        UdpHdr.toBytes_length, UdpHdr.toBytes_length]
    have hsum := inetChksumPseudo_eq q.segs ipProtoUdp.toBitVec (BitVec.ofNat 16 q.totLen)
      srcIp dstIp
    rw [hu, show PbufChain.bytes q.segs = { hdr with chksum := 0 }.toBytes ++ payload by
      rw [hhdr, ← hbytes]; rfl] at hsum
    have hvalid := (udpchksum_valid hdr _ payload u (by simp [pseudoHeader]) hsum).2
    apply BitVec.eq_of_toNat_eq
    rw [inetChksumPseudo_eq, htot, show PbufChain.bytes d.segs = _ from hd]
    exact hvalid
  · exact ⟨0#16, by rw [← hhdr] at hbytes; exact hbytes, .inl rfl⟩

/-- The datagram that is handed to the IP layer. -/
theorem udpSendtoIfSrc_sent {netif : Netif} {ipId : BitVec 16} {pcb : UdpPcb} {p q : Chain}
    {alloc : Option ℕ} {dstIp srcIp : BitVec 32} {dstPort : BitVec 16}
    (hsent : (udpSendtoIfSrc netif ipId pcb p alloc dstIp dstPort srcIp).1 = .ok q) :
    ∃ (d : Chain) (hdr : UdpHdr),
      (ip4OutputIfSrc netif ipId d srcIp dstIp pcb.ttl pcb.tos ipProtoUdp).1 = some q ∧
      d.bytes = hdr.toBytes ++ p.bytes ∧ hdr.src = lwipHtons pcb.localPort ∧
      hdr.dest = lwipHtons dstPort ∧
      (hdr.chksum = 0#16 ∨ inetChksumPseudo d.segs ipProtoUdp.toBitVec
        (BitVec.ofNat 16 d.totLen) srcIp dstIp = 0#16) := by
  unfold udpSendtoIfSrc at hsent
  dsimp only at hsent
  split at hsent
  · cases hsent
  · next q₀ hhdr =>
    obtain ⟨hbytes, -, rest, hfirst⟩ := withHeader_bytes hhdr
    obtain ⟨c, hd, hchk⟩ := fillChksum_spec netif pcb srcIp dstIp hbytes hfirst rfl
    split at hsent
    · cases hsent
    · next q' _ hout =>
      cases hsent
      exact ⟨_, _, congrArg Prod.fst hout, hd, rfl, rfl, hchk⟩

/-- Whether the search has to find a pcb: one that matches and either is not
connected or is connected to the sender. -/
def Flow.serves (f : Flow) (pcb : UdpPcb) : Bool :=
  f.isLocal pcb && (pcb.flags &&& udpFlagsConnected == 0#8 || f.isRemote pcb)

/-- No pcb is lost or duplicated by the move to the front. -/
theorem search_perm (f : Flow) (passed : List UdpPcb) (u : Option UdpPcb) (l : List UdpPcb) :
    (search f passed u l).2.Perm (passed.reverse ++ l) := by
  induction l generalizing passed u with
  | nil => simp [search]
  | cons pcb next ih =>
    have hnext := ih (pcb :: passed)
    rw [List.reverse_cons, List.append_assoc, List.singleton_append] at hnext
    rw [search]
    split
    · split
      · exact List.perm_middle.symm
      · exact hnext _
    · exact hnext _

theorem search_found (f : Flow) (passed : List UdpPcb) (u : Option UdpPcb) (l all : List UdpPcb)
    (hl : ∀ x ∈ l, x ∈ all) (hu : ∀ x, u = some x → x ∈ all ∧ f.isLocal x = true) :
    ∀ x, (search f passed u l).1 = some x → x ∈ all ∧ f.isLocal x = true := by
  induction l generalizing passed u with
  | nil => exact hu
  | cons pcb next ih =>
    have hrest : ∀ x ∈ next, x ∈ all := fun x hx => hl x (List.mem_cons_of_mem pcb hx)
    have hpcb : pcb ∈ all := hl pcb List.mem_cons_self
    rw [search]
    split
    · next hlocal =>
      split
      · intro x hx
        cases hx
        exact ⟨hpcb, hlocal⟩
      · apply ih _ _ hrest
        intro x hx
        unfold chooseUncon at hx
        split at hx
        · split at hx
          · cases hx
            exact ⟨hpcb, hlocal⟩
          · split at hx
            · cases hx
              exact ⟨hpcb, hlocal⟩
            · cases hx
              exact hu _ rfl
        · exact hu x hx
    · exact ih _ _ hrest hu

theorem search_isSome (f : Flow) (passed : List UdpPcb) (u : Option UdpPcb) (l : List UdpPcb)
    (h : u.isSome = true ∨ ∃ x ∈ l, f.serves x = true) : (search f passed u l).1.isSome = true := by
  induction l generalizing passed u with
  | nil =>
    obtain hu | ⟨x, hx, -⟩ := h
    · exact hu
    · cases hx
  | cons pcb next ih =>
    rw [search]
    split
    · next hlocal =>
      split
      · rfl
      · next hremote =>
        apply ih
        unfold chooseUncon
        split
        · left
          cases u with
          | none => rfl
          | some u =>
            dsimp only
            split <;> rfl
        · next hconnected =>
          apply h.imp_right
          rintro ⟨x, hx, hserves⟩
          cases hx with
          | head => simp [Flow.serves, hremote, hconnected] at hserves
          | tail _ hx => exact ⟨x, hx, hserves⟩
    · next hlocal =>
      apply ih
      apply h.imp_right
      rintro ⟨x, hx, hserves⟩
      cases hx with
      | head => simp [Flow.serves, hlocal] at hserves
      | tail _ hx => exact ⟨x, hx, hserves⟩

theorem udpInput_perm (inp : Netif) (srcIp destIp : BitVec 32) (p : Chain) (udpPcbs : List UdpPcb) :
    (udpInput inp srcIp destIp p udpPcbs).2.Perm udpPcbs := by
  unfold udpInput
  split
  · exact List.Perm.refl _
  · have hperm := fun f => search_perm f [] none udpPcbs
    simp only [List.reverse_nil, List.nil_append] at hperm
    dsimp only
    split
    · exact hperm _
    · split
      · exact hperm _
      · split <;> exact hperm _

theorem inetChksumPseudo_congr {p q : Chain} (h : p.bytes = q.bytes) (proto : BitVec 8)
    (src dest : BitVec 32) :
    inetChksumPseudo p.segs proto (BitVec.ofNat 16 p.totLen) src dest =
      inetChksumPseudo q.segs proto (BitVec.ofNat 16 q.totLen) src dest := by
  apply BitVec.eq_of_toNat_eq
  rw [inetChksumPseudo_eq, inetChksumPseudo_eq, Chain.totLen, Chain.totLen, h,
    show PbufChain.bytes p.segs = PbufChain.bytes q.segs from h]

/-- A datagram that passes all checks reaches a pcb of the list. -/
theorem udpInput_accepts {inp : Netif} {srcIp destIp : BitVec 32} {p : Chain} {hdr : UdpHdr}
    {payload : List UInt8} {udpPcbs : List UdpPcb} {pcb : UdpPcb}
    (hbytes : p.bytes = hdr.toBytes ++ payload) (hlen : udpHlen ≤ p.len)
    (hchk : hdr.chksum = 0#16 ∨ inetChksumPseudo p.segs ipProtoUdp.toBitVec
      (BitVec.ofNat 16 p.totLen) srcIp destIp = 0#16)
    (hpcb : pcb ∈ udpPcbs)
    (hserves :
      (Flow.mk inp srcIp destIp (lwipHtons hdr.src) (lwipHtons hdr.dest)).serves pcb = true) :
    ∃ x ∈ udpPcbs, ∃ q : Chain,
      (Flow.mk inp srcIp destIp (lwipHtons hdr.src) (lwipHtons hdr.dest)).isLocal x = true ∧
      q.bytes = payload ∧ (udpInput inp srcIp destIp p udpPcbs).1 =
        if x.recv then .recv x q srcIp (lwipHtons hdr.src) else .noRecv := by
  have hfirst := first_data_of_bytes hbytes (by rwa [hdr.toBytes_length])
  have hparse : UdpHdr.ofBytes p.first.data = hdr := by
    rw [hfirst]
    exact hdr.ofBytes_toBytes _
  have hsome := search_isSome ⟨inp, srcIp, destIp, lwipHtons hdr.src, lwipHtons hdr.dest⟩ [] none
    udpPcbs (.inr ⟨pcb, hpcb, hserves⟩)
  obtain ⟨x, hx⟩ := Option.isSome_iff_exists.mp hsome
  obtain ⟨hmem, hlocal⟩ := search_found _ [] none udpPcbs udpPcbs (fun _ h => h)
    (fun _ h => by cases h) x hx
  obtain ⟨q, hremove, hq, -⟩ := pbufRemoveHeader_bytes hlen
  have hcheck : (inp.checksumEnabled netifChecksumCheckUdp && hdr.chksum != 0#16 &&
      inetChksumPseudo p.segs ipProtoUdp.toBitVec (BitVec.ofNat 16 p.totLen) srcIp destIp != 0#16) =
        false := by
    obtain hzero | hzero := hchk
    · simp [hzero]
    · simp [hzero]
  refine ⟨x, hmem, q, hlocal, ?_, ?_⟩
  · rw [hq, hbytes]
    exact List.drop_left' hdr.toBytes_length
  · unfold udpInput
    simp only [if_neg (Nat.not_lt.mpr hlen), hparse, hx, hcheck, hremove]
    simp

/-- A datagram that `udp_sendto_if_src` sends arrives at another board: its
bytes, the sender's address and its port reach a pcb that is bound to the
destination port, however the received frame is cut into a chain and padded. -/
theorem datagram_arrives {netif inp : Netif} {ipId : BitVec 16} {pcb x : UdpPcb} {p q r : Chain}
    {alloc : Option ℕ} {dstIp srcIp : BitVec 32} {dstPort : BitVec 16} {padding : List UInt8}
    {udpPcbs : List UdpPcb} (hgen : netif.checksumEnabled netifChecksumGenIp = true)
    (hsent : (udpSendtoIfSrc netif ipId pcb p alloc dstIp dstPort srcIp).1 = .ok q)
    (hbytes : r.bytes = q.bytes ++ padding) (hlen : ipHlen + udpHlen ≤ r.len)
    (hdest : destForUs inp dstIp = true) (hsrc : srcInvalid inp srcIp = false) (hx : x ∈ udpPcbs)
    (hserves : (Flow.mk inp srcIp dstIp pcb.localPort dstPort).serves x = true) :
    ∃ y ∈ udpPcbs, ∃ (t : Chain) (left : List UdpPcb),
      (Flow.mk inp srcIp dstIp pcb.localPort dstPort).isLocal y = true ∧ t.bytes = p.bytes ∧
      left.Perm udpPcbs ∧ receiveDatagram inp r udpPcbs =
        some (if y.recv then .recv y t srcIp pcb.localPort else .noRecv, left) := by
  obtain ⟨d, udphdr, hout, hd, hport, hport', hchk⟩ := udpSendtoIfSrc_sent hsent
  obtain ⟨iphdr, d', hdeliver, rfl, rfl, hproto, hd', hfirst⟩ :=
    ip4Input_of_sent hgen hout hbytes (Nat.le_trans (Nat.le_add_right _ _) hlen) hdest hsrc
  have hlen' : udpHlen ≤ d'.len := by
    have htot : udpHlen ≤ d.totLen := by
      rw [Chain.totLen, hd, List.length_append, udphdr.toBytes_length]
      exact Nat.le_add_right _ _
    have hr : ipHlen + udpHlen ≤ r.first.data.length := hlen
    rw [Chain.len, hfirst, List.length_drop, List.length_take]
    omega
  have hsrcPort : lwipHtons udphdr.src = pcb.localPort := by rw [hport, lwipHtons_lwipHtons]
  have hdestPort : lwipHtons udphdr.dest = dstPort := by rw [hport', lwipHtons_lwipHtons]
  rw [← inetChksumPseudo_congr hd'] at hchk
  rw [← hsrcPort, ← hdestPort] at hserves
  obtain ⟨y, hy, t, hlocal, ht, hresult⟩ :=
    udpInput_accepts (hd'.trans hd) hlen' hchk hx hserves
  rw [hsrcPort] at hresult
  rw [hsrcPort, hdestPort] at hlocal
  have hparse := iphdr.ofBytes_toBytes []
  rw [List.append_nil] at hparse
  refine ⟨y, hy, t, _, hlocal, ht, udpInput_perm inp iphdr.src iphdr.dest d' udpPcbs, ?_⟩
  rw [receiveDatagram, hdeliver, ← hresult]
  dsimp only
  rw [hparse, if_pos (by simp [hproto])]

theorem four_bytes_arrive :
    ∃ y ∈ [(⟨0, 0, 0, 0, 255, 0, 7, 0, true⟩ : UdpPcb)], ∃ (t : Chain) (left : List UdpPcb),
      (Flow.mk ⟨0x0200a8c0, 0x00ffffff, 3, 0xffff, 0⟩ 0x0100a8c0 0x0200a8c0 1024 7).isLocal y =
        true ∧
      t.bytes = [1, 2, 3, 4] ∧ left.Perm [⟨0, 0, 0, 0, 255, 0, 7, 0, true⟩] ∧
      receiveDatagram ⟨0x0200a8c0, 0x00ffffff, 3, 0xffff, 0⟩
        ⟨14, ⟨514, [69, 0, 0, 32, 0, 5, 0, 0, 255, 17, 58, 116, 192, 168, 0, 1, 192, 168, 0, 2,
          4, 0, 0, 7, 0, 12, 118, 117, 1], by decide⟩,
          [⟨1000, [2], by decide⟩, ⟨2000, [3, 4, 0, 0, 0], by decide⟩], by decide⟩
        [⟨0, 0, 0, 0, 255, 0, 7, 0, true⟩] =
          some (if y.recv then .recv y t 0x0100a8c0 1024 else .noRecv, left) := by
  have hsent : (udpSendtoIfSrc ⟨0x0100a8c0, 0x00ffffff, 3, 0xffff, 0⟩ 5
      ⟨0, 0, 0, 0, 255, 0, 1024, 0, true⟩
      ⟨42, ⟨1000, [1, 2, 3], by decide⟩, [⟨2001, [4], by decide⟩], by decide⟩
      none 0x0200a8c0 7 0x0100a8c0).1 =
        .ok ⟨14, ⟨972, [69, 0, 0, 32, 0, 5, 0, 0, 255, 17, 58, 116, 192, 168, 0, 1, 192, 168, 0, 2,
          4, 0, 0, 7, 0, 12, 118, 117, 1, 2, 3], by decide⟩, [⟨2001, [4], by decide⟩],
          by decide⟩ := by
    decide +kernel
  exact datagram_arrives (by decide) hsent (show _ = _ ++ [0, 0, 0] from rfl) (by decide)
    (by decide) (by decide) (List.mem_singleton_self _) (by decide)

end EthDriver.Udp

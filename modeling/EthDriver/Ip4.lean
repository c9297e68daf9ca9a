import EthDriver.InetChksum

namespace EthDriver.Ip4

open EthDriver.Bytes EthDriver.OnesComplement EthDriver.PbufChain EthDriver.InetChksum

def store16 (v : BitVec 16) : List UInt8 := read (le v.toNat) 0 2

def store32 (v : BitVec 32) : List UInt8 := read (le v.toNat) 0 4

def at16 (data : List UInt8) (i : ℕ) : BitVec 16 := BitVec.ofNat 16 (ofLe ((data.drop i).take 2))

def at32 (data : List UInt8) (i : ℕ) : BitVec 32 := BitVec.ofNat 32 (ofLe ((data.drop i).take 4))

@[simp] theorem store16_length (v : BitVec 16) : (store16 v).length = 2 := read_length _ _ _

@[simp] theorem store32_length (v : BitVec 32) : (store32 v).length = 4 := read_length _ _ _

@[simp] theorem store16_zero : store16 0 = [0, 0] := by decide

theorem at16_eq {data : List UInt8} {i : ℕ} {v : BitVec 16}
    (h : (data.drop i).take 2 = store16 v) : at16 data i = v := by
  apply BitVec.eq_of_toNat_eq
  have hlt := v.isLt
  rw [at16, h, store16, ofLe_read_le, BitVec.toNat_ofNat]
  omega

theorem store16_at16 {data : List UInt8} {i : ℕ} (h : i + 2 ≤ data.length) :
    store16 (at16 data i) = (data.drop i).take 2 := by
  have hlen : ((data.drop i).take 2).length = 2 := by
    rw [List.length_take, List.length_drop]
    omega
  have hlt := ofLe_lt ((data.drop i).take 2)
  have hread := read_le_ofLe ((data.drop i).take 2)
  rw [hlen] at hlt hread
  rw [store16, at16, BitVec.toNat_ofNat, Nat.mod_eq_of_lt (show _ < 2 ^ 16 from hlt), hread]

theorem at32_eq {data : List UInt8} {i : ℕ} {v : BitVec 32}
    (h : (data.drop i).take 4 = store32 v) : at32 data i = v := by
  apply BitVec.eq_of_toNat_eq
  have hlt := v.isLt
  rw [at32, h, store32, ofLe_read_le, BitVec.toNat_ofNat]
  omega

@[simp] theorem lwipHtons_lwipHtons (n : BitVec 16) : lwipHtons (lwipHtons n) = n := by
  apply BitVec.eq_of_toNat_eq
  have hlt := n.isLt
  rw [lwipHtons_toNat, lwipHtons_toNat]
  omega

/-- `struct ip_hdr`; the fields of more than one byte hold what a load gives,
so they are in network order. -/
@[ext] structure IpHdr where
  vHl : UInt8
  tos : UInt8
  len : BitVec 16
  id : BitVec 16
  offset : BitVec 16
  ttl : UInt8
  proto : UInt8
  chksum : BitVec 16
  src : BitVec 32
  dest : BitVec 32
  deriving DecidableEq

def IpHdr.front (h : IpHdr) : List UInt8 :=
  [h.vHl, h.tos] ++ store16 h.len ++ store16 h.id ++ store16 h.offset ++ [h.ttl, h.proto]

def IpHdr.back (h : IpHdr) : List UInt8 := store32 h.src ++ store32 h.dest

def IpHdr.toBytes (h : IpHdr) : List UInt8 := h.front ++ store16 h.chksum ++ h.back

def IpHdr.ofBytes (data : List UInt8) : IpHdr where
  vHl := data.getD 0 0
  tos := data.getD 1 0
  len := at16 data 2
  id := at16 data 4
  offset := at16 data 6
  ttl := data.getD 8 0
  proto := data.getD 9 0
  chksum := at16 data 10
  src := at32 data 12
  dest := at32 data 16

@[simp] theorem IpHdr.front_length (h : IpHdr) : h.front.length = 10 := by simp [front]

@[simp] theorem IpHdr.back_length (h : IpHdr) : h.back.length = 8 := by simp [back]

@[simp] theorem IpHdr.toBytes_length (h : IpHdr) : h.toBytes.length = 20 := by simp [toBytes]

theorem IpHdr.ofBytes_toBytes (h : IpHdr) (rest : List UInt8) :
    ofBytes (h.toBytes ++ rest) = h := by
  apply IpHdr.ext
  case len | id | offset | chksum => exact at16_eq rfl
  case src | dest => exact at32_eq rfl
  all_goals rfl

/-- What the IP layer reads of a `struct netif`. -/
structure Netif where
  ipAddr : BitVec 32
  netmask : BitVec 32
  flags : BitVec 8
  chksumFlags : BitVec 16
  num : BitVec 8

def netifFlagUp : BitVec 8 := 0x01
def netifFlagBroadcast : BitVec 8 := 0x02

def netifChecksumGenIp : BitVec 16 := 0x0001
def netifChecksumGenUdp : BitVec 16 := 0x0002
def netifChecksumGenIcmp : BitVec 16 := 0x0008
def netifChecksumCheckIp : BitVec 16 := 0x0100
def netifChecksumCheckUdp : BitVec 16 := 0x0200
def netifChecksumCheckIcmp : BitVec 16 := 0x0800
def netifChecksumEnableAll : BitVec 16 := 0xffff

def Netif.checksumEnabled (netif : Netif) (flag : BitVec 16) : Bool :=
  netif.chksumFlags &&& flag != 0#16

def Netif.isUp (netif : Netif) : Bool := netif.flags &&& netifFlagUp != 0#8

/-- The masks are in network order. -/
def ip4AddrIsmulticast (addr : BitVec 32) : Bool := addr &&& 0xf0#32 == 0xe0#32

def ip4AddrIsbroadcast (addr : BitVec 32) (netif : Netif) : Bool :=
  if ~~~addr == 0#32 || addr == 0#32 then true
  else if netif.flags &&& netifFlagBroadcast == 0#8 then false
  else if addr == netif.ipAddr then false
  else addr &&& netif.netmask == netif.ipAddr &&& netif.netmask &&
    addr &&& ~~~netif.netmask == 0xffffffff#32 &&& ~~~netif.netmask

def ipHlen : ℕ := 20
def ipProtoUdp : UInt8 := 17

/-- The checksum of a header that lies at `addr` with its options behind it: it
is set to zero, and then computed if the netif asks for it. -/
def IpHdr.setChksum (h : IpHdr) (netif : Netif) (addr : ℕ) (options : List UInt8) : IpHdr :=
  let h : IpHdr := { h with chksum := 0 }
  if netif.checksumEnabled netifChecksumGenIp then
    { h with chksum := inetChksum addr (h.toBytes ++ options) }
  else h

def outputHdr (netif : Netif) (ipId : BitVec 16) (addr totLen : ℕ) (src dest : BitVec 32)
    (ttl tos proto : UInt8) : IpHdr :=
  let hdr : IpHdr := {
    vHl := 0x45
    tos := tos
    len := lwipHtons (BitVec.ofNat 16 (totLen + ipHlen))
    id := lwipHtons ipId
    offset := 0
    ttl := ttl
    proto := proto
    chksum := 0
    src := src
    dest := dest }
  hdr.setChksum netif addr []

/-- `ip4_output_if_src` for a packet without a header: what is handed to the
netif, unless there is no room (`ERR_BUF`), and the next `ip_id`. -/
def ip4OutputIfSrc (netif : Netif) (ipId : BitVec 16) (p : Chain) (src dest : BitVec 32)
    (ttl tos proto : UInt8) : Option Chain × BitVec 16 :=
  let hdr := outputHdr netif ipId (p.first.payload - ipHlen) p.totLen src dest ttl tos proto
  match pbufAddHeader p hdr.toBytes with
  | none => (none, ipId)
  | some q => (some q, ipId + 1)

def ip4InputAccept (netif : Netif) (dest : BitVec 32) : Bool :=
  netif.isUp && netif.ipAddr != 0#32 && (dest == netif.ipAddr || ip4AddrIsbroadcast dest netif)

/-- What becomes of a received packet: why it is dropped, or the header and the
payload that are handed to the upper layer. -/
inductive Verdict
  | badVersion | lenerr | chkerr | badSource | notForUs | fragment
  | deliver (iphdr : List UInt8) (p : Chain)
  deriving DecidableEq

def destForUs (inp : Netif) (dest : BitVec 32) : Bool :=
  if ip4AddrIsmulticast dest then inp.isUp && inp.ipAddr != 0#32 else ip4InputAccept inp dest

def srcInvalid (inp : Netif) (src : BitVec 32) : Bool :=
  src != 0#32 && (ip4AddrIsbroadcast src inp || ip4AddrIsmulticast src)

/-- Whether the packet is accepted and its source is checked. A datagram for the
DHCP client passes regardless of both addresses. -/
def forUs (inp : Netif) (iphdr : IpHdr) (behind : List UInt8) : Bool × Bool :=
  let netif := destForUs inp iphdr.dest
  if !netif && iphdr.proto == ipProtoUdp && at16 behind 2 == lwipHtons 68 then (true, false)
  else (netif, true)

/-- `ip4_input` on the only netif of the board. -/
def ip4Input (inp : Netif) (p : Chain) : Verdict :=
  let iphdr := IpHdr.ofBytes p.first.data
  if iphdr.vHl.toNat / 16 != 4 then .badVersion
  else
    let iphdrHlen := iphdr.vHl.toNat % 16 * 4
    let iphdrLen := (lwipHtons iphdr.len).toNat
    -- frames are padded to the shortest length of Ethernet
    let p := pbufRealloc p iphdrLen
    if iphdrHlen > p.len || iphdrLen > p.totLen || iphdrHlen < ipHlen then .lenerr
    else if inp.checksumEnabled netifChecksumCheckIp &&
        inetChksum p.first.payload (p.first.data.take iphdrHlen) != 0#16 then .chkerr
    else
      let (netif, checkIpSrc) := forUs inp iphdr (p.first.data.drop iphdrHlen)
      if checkIpSrc && srcInvalid inp iphdr.src then .badSource
      else if !netif then .notForUs
      else if iphdr.offset &&& lwipHtons 0x3fff != 0#16 then .fragment
      else
        match pbufRemoveHeader p iphdrHlen with
        | some q => .deliver (p.first.data.take iphdrHlen) q
        | none => .lenerr

/-- A header whose checksum was computed verifies, with all its options. -/
theorem setChksum_valid (h : IpHdr) {netif : Netif} (addr : ℕ) {options : List UInt8}
    (hgen : netif.checksumEnabled netifChecksumGenIp = true) (hlen : options.length < 65516) :
    internetChecksum ((h.setChksum netif addr options).toBytes ++ options) = 0 := by
  have hzero : ({ h with chksum := 0 } : IpHdr).toBytes ++ options =
      h.front ++ [0, 0] ++ (h.back ++ options) := by
    rw [IpHdr.toBytes, List.append_assoc, store16_zero]
    rfl
  have hstored : ∀ c, ({ h with chksum := c } : IpHdr).toBytes ++ options =
      h.front ++ read (le c.toNat) 0 2 ++ (h.back ++ options) := fun c => List.append_assoc _ _ _
  have hfits : (({ h with chksum := 0 } : IpHdr).toBytes ++ options).length < 65536 := by
    rw [List.length_append, IpHdr.toBytes_length]
    omega
  simp only [IpHdr.setChksum, if_pos hgen]
  rw [hstored, inetChksum_eq _ hfits, hzero]
  exact internetChecksum_sealed h.front (h.back ++ options) (by simp)

theorem setChksum_eq (h : IpHdr) (netif : Netif) (addr : ℕ) (options : List UInt8) :
    ∃ c, h.setChksum netif addr options = { h with chksum := c } := by
  unfold IpHdr.setChksum
  split
  · exact ⟨_, rfl⟩
  · exact ⟨_, rfl⟩

theorem ip4OutputIfSrc_sent {netif : Netif} {ipId : BitVec 16} {p q : Chain} {src dest : BitVec 32}
    {ttl tos proto : UInt8} (hgen : netif.checksumEnabled netifChecksumGenIp = true)
    (hsent : (ip4OutputIfSrc netif ipId p src dest ttl tos proto).1 = some q) :
    ∃ hdr : IpHdr, q.bytes = hdr.toBytes ++ p.bytes ∧ internetChecksum hdr.toBytes = 0 ∧
      hdr.vHl = 0x45 ∧ (lwipHtons hdr.len).toNat = ipHlen + p.totLen ∧ hdr.offset = 0 ∧
      hdr.src = src ∧ hdr.dest = dest ∧ hdr.proto = proto := by
  unfold ip4OutputIfSrc at hsent
  dsimp only at hsent
  split at hsent
  · cases hsent
  · next q' hadd =>
    cases hsent
    have hroom := (pbufAddHeader_isSome p _).symm.trans (congrArg Option.isSome hadd)
    rw [IpHdr.toBytes_length, Option.isSome_some, Chain.hasRoom, Bool.and_eq_true,
      decide_eq_true_eq] at hroom
    refine ⟨_, (pbufAddHeader_bytes hadd).1, ?_⟩
    unfold outputHdr
    generalize hbase : IpHdr.mk 0x45 tos _ _ 0 ttl proto 0 src dest = base
    have hvalid := setChksum_valid base (p.first.payload - ipHlen) hgen
      (show ([] : List UInt8).length < _ by decide)
    rw [List.append_nil] at hvalid
    obtain ⟨c, hc⟩ := setChksum_eq base netif (p.first.payload - ipHlen) []
    refine ⟨hvalid, ?_⟩
    rw [hc, ← hbase]
    refine ⟨rfl, ?_, rfl, rfl, rfl, rfl⟩
    rw [lwipHtons_lwipHtons, BitVec.toNat_ofNat, Nat.add_comm]
    exact Nat.mod_eq_of_lt hroom.1

theorem ip4Input_accepts {inp : Netif} {r t p' : Chain} {iphdr : IpHdr} {hlen : ℕ}
    (hparse : IpHdr.ofBytes r.first.data = iphdr) (hversion : iphdr.vHl.toNat / 16 = 4)
    (hhl : iphdr.vHl.toNat % 16 * 4 = hlen) (hmin : ipHlen ≤ hlen)
    (ht : pbufRealloc r (lwipHtons iphdr.len).toNat = t) (hfirst : hlen ≤ t.len)
    (htot : (lwipHtons iphdr.len).toNat ≤ t.totLen)
    (hcheck : inetChksum t.first.payload (t.first.data.take hlen) = 0#16)
    (hdest : destForUs inp iphdr.dest = true) (hsrc : srcInvalid inp iphdr.src = false)
    (hwhole : iphdr.offset &&& lwipHtons 0x3fff = 0#16)
    (hremove : pbufRemoveHeader t hlen = some p') :
    ip4Input inp r = .deliver (t.first.data.take hlen) p' := by
  have hfits : (decide (hlen > t.len) || decide ((lwipHtons iphdr.len).toNat > t.totLen) ||
      decide (hlen < ipHlen)) = false := by
    simp only [Bool.or_eq_false_iff, decide_eq_false_iff_not]
    omega
  have hforUs : forUs inp iphdr (t.first.data.drop hlen) = (true, true) := by
    simp [forUs, hdest]
  unfold ip4Input
  simp only [hparse, hversion, hhl, ht, hfits, hcheck, hforUs, hsrc, hwhole, hremove]
  simp

/-- A packet with a valid header, whose first `pbuf` holds it with its options, is
delivered. The padding behind it is cut off. -/
theorem ip4Input_of_valid {inp : Netif} {r : Chain} {h : IpHdr}
    {options payload padding : List UInt8}
    (hversion : h.vHl.toNat / 16 = 4) (hhl : h.vHl.toNat % 16 * 4 = ipHlen + options.length)
    (hlenField : (lwipHtons h.len).toNat = ipHlen + options.length + payload.length)
    (hwhole : h.offset &&& lwipHtons 0x3fff = 0#16)
    (hvalid : internetChecksum (h.toBytes ++ options) = 0)
    (hbytes : r.bytes = h.toBytes ++ options ++ payload ++ padding)
    (hlen : ipHlen + options.length ≤ r.len) (hdest : destForUs inp h.dest = true)
    (hsrc : srcInvalid inp h.src = false) :
    ∃ p : Chain, ip4Input inp r = .deliver (h.toBytes ++ options) p ∧ p.bytes = payload ∧
      p.first.data = (r.first.data.take (ipHlen + options.length + payload.length)).drop
        (ipHlen + options.length) := by
  have hhdrlen : (h.toBytes ++ options).length = ipHlen + options.length := by
    rw [List.length_append, h.toBytes_length]
    rfl
  have hparse : IpHdr.ofBytes r.first.data = h := by
    rw [List.append_assoc] at hbytes
    have hfirst := first_data_of_bytes hbytes (by rwa [hhdrlen])
    rw [hfirst, List.append_assoc]
    exact h.ofBytes_toBytes _
  -- after the padding is cut off, the packet is header and payload
  let t := pbufRealloc r (ipHlen + options.length + payload.length)
  have htbytes : t.bytes = h.toBytes ++ options ++ payload := by
    rw [pbufRealloc_bytes, hbytes]
    exact List.take_left' (by rw [List.length_append, hhdrlen])
  have htfirst : t.first.data = r.first.data.take (ipHlen + options.length + payload.length) :=
    pbufRealloc_first r _
  have htlen : ipHlen + options.length ≤ t.len := by
    rw [Chain.len, htfirst, List.length_take]
    exact Nat.le_min.mpr ⟨Nat.le_add_right _ _, hlen⟩
  have httot : t.totLen = ipHlen + options.length + payload.length := by
    rw [Chain.totLen, htbytes, List.length_append, hhdrlen]
  have hhead : t.first.data.take (ipHlen + options.length) = h.toBytes ++ options := by
    rw [first_data_of_bytes htbytes (by rwa [hhdrlen])]
    exact List.take_left' hhdrlen
  have hcheck :
      inetChksum t.first.payload (t.first.data.take (ipHlen + options.length)) = 0#16 := by
    apply BitVec.eq_of_toNat_eq
    have hbound := h.vHl.toNat_lt
    rw [hhead, inetChksum_eq _ (by omega), hvalid]
    rfl
  obtain ⟨p, hremove, hpbytes, hpfirst, -⟩ := pbufRemoveHeader_bytes htlen
  refine ⟨p, ?_, ?_, ?_⟩
  · rw [← hhead]
    exact ip4Input_accepts hparse hversion hhl (Nat.le_add_right _ _) (by rw [hlenField]) htlen
      (by omega) hcheck hdest hsrc hwhole hremove
  · rw [hpbytes, htbytes]
    exact List.drop_left' hhdrlen
  · rw [hpfirst, htfirst]

/-- What one board sends is delivered at another one, with the payload that was sent. -/
theorem ip4Input_of_sent {netif inp : Netif} {ipId : BitVec 16} {p q r : Chain}
    {src dest : BitVec 32} {ttl tos proto : UInt8} {padding : List UInt8}
    (hgen : netif.checksumEnabled netifChecksumGenIp = true)
    (hsent : (ip4OutputIfSrc netif ipId p src dest ttl tos proto).1 = some q)
    (hbytes : r.bytes = q.bytes ++ padding) (hlen : ipHlen ≤ r.len)
    (hdest : destForUs inp dest = true) (hsrc : srcInvalid inp src = false) :
    ∃ (hdr : IpHdr) (p' : Chain), ip4Input inp r = .deliver hdr.toBytes p' ∧ hdr.src = src ∧
      hdr.dest = dest ∧ hdr.proto = proto ∧ p'.bytes = p.bytes ∧
      p'.first.data = (r.first.data.take (ipHlen + p.totLen)).drop ipHlen := by
  obtain ⟨hdr, hq, hvalid, hvhl, hhdrlen, hoffset, rfl, rfl, rfl⟩ := ip4OutputIfSrc_sent hgen hsent
  have hversion : hdr.vHl.toNat / 16 = 4 := by rw [hvhl]; decide
  have hhl : hdr.vHl.toNat % 16 * 4 = ipHlen + ([] : List UInt8).length := by rw [hvhl]; decide
  have hwhole : hdr.offset &&& lwipHtons 0x3fff = 0#16 := by rw [hoffset]; decide
  have hpacket : r.bytes = hdr.toBytes ++ [] ++ p.bytes ++ padding := by
    rw [List.append_nil, hbytes, hq]
  rw [← List.append_nil hdr.toBytes] at hvalid
  obtain ⟨p', hdeliver, hp', hfirst⟩ :=
    ip4Input_of_valid hversion hhl hhdrlen hwhole hvalid hpacket hlen hdest hsrc
  rw [List.append_nil] at hdeliver
  exact ⟨hdr, p', hdeliver, rfl, rfl, rfl, hp', hfirst⟩

theorem drop_take_take (data : List UInt8) {i k n : ℕ} (h : i + k ≤ n) :
    (((data.take n).drop i).take k) = (data.drop i).take k := by
  rw [List.drop_take, List.take_take, Nat.min_eq_left (by omega)]

theorem getD_take (data : List UInt8) {i n : ℕ} (h : i < n) :
    (data.take n).getD i 0 = data.getD i 0 := by
  rw [List.getD_eq_getElem?_getD, List.getD_eq_getElem?_getD, List.getElem?_take, if_pos h]

theorem ofBytes_take (data : List UInt8) {n : ℕ} (h : ipHlen ≤ n) :
    IpHdr.ofBytes (data.take n) = IpHdr.ofBytes data := by
  unfold ipHlen at h
  apply IpHdr.ext
  case vHl | tos | ttl | proto => exact getD_take data (by omega)
  case len | id | offset | chksum =>
    exact congrArg (fun l => BitVec.ofNat 16 (ofLe l)) (drop_take_take data (by omega))
  case src | dest =>
    exact congrArg (fun l => BitVec.ofNat 32 (ofLe l)) (drop_take_take data (by omega))

/-- What holds of every packet that is delivered: `hlen` bytes of header and the
`len - hlen` bytes behind it, as the header says. -/
structure Delivered (inp : Netif) (r : Chain) (iphdr : List UInt8) (p : Chain) : Prop where
  version : (IpHdr.ofBytes r.first.data).vHl.toNat / 16 = 4
  hlen : (IpHdr.ofBytes r.first.data).vHl.toNat % 16 * 4 = iphdr.length
  header : iphdr = r.first.data.take iphdr.length
  length : ipHlen ≤ iphdr.length ∧ iphdr.length ≤ 60 ∧ iphdr.length % 4 = 0
  payload : p.bytes =
    (r.bytes.take (lwipHtons (IpHdr.ofBytes r.first.data).len).toNat).drop iphdr.length
  fits : iphdr.length ≤ (lwipHtons (IpHdr.ofBytes r.first.data).len).toNat
  complete : (lwipHtons (IpHdr.ofBytes r.first.data).len).toNat ≤ r.totLen
  whole : (IpHdr.ofBytes r.first.data).offset &&& lwipHtons 0x3fff = 0#16
  headroom : p.headroom = r.headroom + iphdr.length
  valid : inp.checksumEnabled netifChecksumCheckIp = true → internetChecksum iphdr = 0

theorem ip4Input_deliver {inp : Netif} {r p : Chain} {iphdr : List UInt8}
    (h : ip4Input inp r = .deliver iphdr p) : Delivered inp r iphdr p := by
  unfold ip4Input at h
  dsimp only at h
  split at h
  · cases h
  next hversion =>
  have hfirst := pbufRealloc_first r (lwipHtons (IpHdr.ofBytes r.first.data).len).toNat
  have hbytes := pbufRealloc_bytes r (lwipHtons (IpHdr.ofBytes r.first.data).len).toNat
  generalize hhl : (IpHdr.ofBytes r.first.data).vHl.toNat % 16 * 4 = hlen at h
  generalize hlenField : (lwipHtons (IpHdr.ofBytes r.first.data).len).toNat = len at h hfirst hbytes
  have hheadroom := pbufRealloc_headroom r len
  generalize pbufRealloc r len = t at h hfirst hbytes hheadroom
  split at h
  · cases h
  next hlengths =>
  split at h
  · cases h
  next hcheck =>
  split at h
  · cases h
  split at h
  · cases h
  split at h
  · cases h
  next hwhole =>
  split at h
  · next q hremove =>
    cases h
    simp only [Bool.or_eq_true, decide_eq_true_eq, not_or, Nat.not_lt] at hlengths
    obtain ⟨⟨hfits, htot⟩, hmin⟩ := hlengths
    obtain ⟨q', hremove', hq, -, hroom⟩ := pbufRemoveHeader_bytes hfits
    obtain rfl := Option.some.inj (hremove.symm.trans hremove')
    have hmulti : hlen % 4 = 0 ∧ hlen ≤ 60 := by omega
    have htlen : hlen ≤ len ∧ hlen ≤ r.first.data.length := by
      rw [Chain.len, hfirst, List.length_take] at hfits
      exact Nat.le_min.mp hfits
    have hhdr : t.first.data.take hlen = r.first.data.take hlen := by
      rw [hfirst, List.take_take, Nat.min_eq_left htlen.1]
    have hhdrlen : (t.first.data.take hlen).length = hlen := by
      rw [List.length_take]
      exact Nat.min_eq_left hfits
    rw [hhdr] at hhdrlen hcheck ⊢
    exact {
      version := by simpa using hversion
      hlen := by rw [hhl, hhdrlen]
      header := by rw [hhdrlen]
      length := by
        rw [hhdrlen]
        exact ⟨hmin, hmulti.2, hmulti.1⟩
      payload := by rw [hq, hbytes, hhdrlen, hlenField]
      fits := by rw [hhdrlen, hlenField]; exact htlen.1
      whole := by simpa using hwhole
      complete := by
        rw [hlenField]
        rw [Chain.totLen, hbytes, List.length_take] at htot
        exact Nat.le_trans htot (Nat.min_le_right _ _)
      headroom := by rw [hroom, hheadroom, hhdrlen]
      valid := by
        intro hchk
        have hsum : inetChksum t.first.payload (r.first.data.take hlen) = 0#16 := by
          simpa [hchk] using hcheck
        rw [← inetChksum_eq t.first.payload (by omega), hsum]
        rfl }
  · cases h

/-- Header and payload are the packet as long as its length field says. -/
theorem Delivered.bytes_eq {inp : Netif} {r p : Chain} {iphdr : List UInt8}
    (h : Delivered inp r iphdr p) :
    r.bytes.take (lwipHtons (IpHdr.ofBytes r.first.data).len).toNat = iphdr ++ p.bytes := by
  have hfirst : iphdr.length ≤ r.first.data.length := by
    have hlen := congrArg List.length h.header
    rw [List.length_take] at hlen
    omega
  have hhead : iphdr = (r.bytes.take (lwipHtons (IpHdr.ofBytes r.first.data).len).toNat).take
      iphdr.length := by
    rw [List.take_take, Nat.min_eq_left h.fits, Chain.bytes_eq,
      List.take_append_of_le_length hfirst]
    exact h.header
  calc r.bytes.take _ = (r.bytes.take _).take iphdr.length ++ (r.bytes.take _).drop iphdr.length :=
        (List.take_append_drop _ _).symm
    _ = iphdr ++ p.bytes := by rw [← hhead, ← h.payload]

end EthDriver.Ip4

import EthDriver.Ip4

namespace EthDriver.IcmpEcho

open EthDriver.Bytes EthDriver.OnesComplement EthDriver.PbufChain EthDriver.InetChksum
open EthDriver.Ip4

def icmpEr : UInt8 := 0
def icmpEcho : UInt8 := 8
def icmpTtl : UInt8 := 255

def echoHlen : ℕ := 8

def pbufLinkHlen : ℕ := 14

/-- The offset of `PBUF_LINK` packets, rounded up to `MEM_ALIGNMENT`. -/
def pbufLink : ℕ := 16

inductive Outcome
  | echoReply | proterr | lenerr | icmperr | chkerr | noRoom
  | reply (q : Chain)

/-- The chain that the answer is written into: the request itself when the link
header fits in front of it, or else a copy of it in one new `pbuf`, whose payload
lies at `alloc` if the heap has room for it. -/
def answerChain (p : Chain) (hlen : ℕ) (alloc : Option ℕ) : Option Chain :=
  if p.hasRoom (hlen + pbufLinkHlen) then some p
  else if p.totLen + hlen ≥ 65536 then none
  else
    match alloc with
    | none => none
    | some payload =>
      if p.totLen + hlen < hlen + echoHlen then none
      else some {
        headroom := pbufLink + hlen
        first := ⟨payload + hlen, p.bytes, p.totLen_bound⟩
        next := []
        totLen_lt := by
          rw [bytes_nil, List.append_nil]
          exact p.totLen_bound }

/-- The incremental update of the checksum for the type that changes from
`ICMP_ECHO` to `ICMP_ER`. -/
def adjustChksum (chksum : BitVec 16) : BitVec 16 :=
  if lwipHtons 0xf7ff < chksum then chksum + lwipHtons 0x800 + 1#16 else chksum + lwipHtons 0x800

def toReply (inp : Netif) (p : Chain) : Chain :=
  let chksum :=
    if inp.checksumEnabled netifChecksumGenIcmp then adjustChksum (at16 p.first.data 2) else 0
  (p.store 0 [icmpEr]).store 2 (store16 chksum)

/-- The header of the answer: the addresses are exchanged. -/
def replyHdr (inp : Netif) (addr : ℕ) (iphdr options : List UInt8) : IpHdr :=
  let h := IpHdr.ofBytes iphdr
  ({ h with src := h.dest, dest := h.src, ttl := icmpTtl } : IpHdr).setChksum inp addr options

/-- `icmp_input` for the message `p` that came with the header `iphdr`; the chain
of a reply is what `ip4_output_if` hands to the netif. -/
def icmpInput (inp : Netif) (iphdr : List UInt8) (p : Chain) (alloc : Option ℕ) : Outcome :=
  let h := IpHdr.ofBytes iphdr
  let hlen := h.vHl.toNat % 16 * 4
  if hlen < ipHlen then .lenerr
  else if p.len < 4 then .lenerr
  else if p.first.data.headD 0 == icmpEr then .echoReply
  else if p.first.data.headD 0 != icmpEcho then .proterr
  else if ip4AddrIsmulticast h.dest || ip4AddrIsbroadcast h.dest inp then .icmperr
  else if p.totLen < echoHlen then .lenerr
  else if inp.checksumEnabled netifChecksumCheckIcmp && inetChksumPbuf p.segs != 0#16 then .chkerr
  else
    match answerChain p hlen alloc with
    | none => .icmperr
    | some q =>
      let q := toReply inp q
      let options := iphdr.drop ipHlen
      let h' := replyHdr inp (q.first.payload - hlen) iphdr options
      match pbufAddHeader q (h'.toBytes ++ options) with
      | none => .noRoom
      | some q => .reply q

theorem adjustChksum_toNat (c : BitVec 16) :
    (adjustChksum c).toNat = if c.toNat < 0xfff8 then c.toNat + 8 else c.toNat + 8 - 65535 := by
  have hlt := c.isLt
  have hbound : (lwipHtons 0xf7ff).toNat = 0xfff7 := rfl
  have hecho : (lwipHtons 0x800).toNat = 8 := rfl
  unfold adjustChksum
  split
  · next h =>
    rw [BitVec.lt_def, hbound] at h
    rw [if_neg (by omega), BitVec.toNat_add, BitVec.toNat_add, hecho, BitVec.toNat_ofNat]
    omega
  · next h =>
    rw [BitVec.lt_def, hbound] at h
    rw [if_pos (by omega), BitVec.toNat_add, hecho]
    omega

/-- A message that verifies still does when its type is changed and its checksum
updated. -/
theorem reply_valid (code : UInt8) (c : BitVec 16) (rest : List UInt8)
    (h : internetChecksum ([icmpEcho, code] ++ store16 c ++ rest) = 0) :
    internetChecksum ([icmpEr, code] ++ store16 (adjustChksum c) ++ rest) = 0 := by
  have hvalue : ∀ (t : UInt8) (v : BitVec 16), ofLe ([t, code] ++ store16 v ++ rest) =
      t.toNat + 256 * code.toNat + 65536 * v.toNat + 4294967296 * ofLe rest := by
    intro t v
    have hv : ofLe (store16 v) = v.toNat := by
      rw [store16, ofLe_read_le]
      exact Nat.mod_eq_of_lt v.isLt
    rw [ofLe_append, ofLe_append, hv, List.length_append, store16_length]
    simp only [ofLe, List.length_cons, List.length_nil]
    omega
  have hadjust := adjustChksum_toNat c
  have hlt := c.isLt
  rw [internetChecksum_eq_zero, hvalue] at h ⊢
  have hecho : icmpEcho.toNat = 8 := rfl
  have her : icmpEr.toNat = 0 := rfl
  rw [hecho] at h
  rw [her, hadjust]
  split <;> omega

theorem request_eq {p : Chain} (hlen : 4 ≤ p.len) (htype : p.first.data.headD 0 = icmpEcho) :
    ∃ code rest, p.first.data = [icmpEcho, code] ++ store16 (at16 p.first.data 2) ++ rest := by
  have hchksum := @store16_at16 p.first.data 2 hlen
  rw [hchksum]
  unfold Chain.len at hlen
  cases hdata : p.first.data with
  | nil => rw [hdata] at hlen; exact absurd hlen (by decide)
  | cons type tail =>
    rw [hdata] at hlen htype
    cases tail with
    | nil => exact absurd hlen (Nat.not_le.mpr (Nat.lt_of_sub_eq_succ rfl))
    | cons code tail =>
      obtain rfl : type = icmpEcho := htype
      refine ⟨code, tail.drop 2, ?_⟩
      simp [List.take_append_drop]

/-- The answer: only the type and the checksum of the message change. -/
theorem toReply_first {inp : Netif} {p : Chain} {code : UInt8} {c : BitVec 16} {rest : List UInt8}
    (h : p.first.data = [icmpEcho, code] ++ store16 c ++ rest) :
    (toReply inp p).first.data = [icmpEr, code] ++
      store16 (if inp.checksumEnabled netifChecksumGenIcmp then adjustChksum c else 0) ++ rest := by
  have hc : at16 p.first.data 2 = c := at16_eq (by rw [h]; rfl)
  have htype : (p.store 0 [icmpEr]).first.data = [icmpEr, code] ++ (store16 c ++ rest) :=
    Chain.store_first (p := p) (a := []) (d := [icmpEcho]) (b := [code] ++ (store16 c ++ rest))
      (by simp [h]) rfl
  rw [toReply, hc, List.append_assoc]
  exact Chain.store_first (a := [icmpEr, code]) htype (by simp)

theorem toReply_bytes {inp : Netif} {q : Chain} {code : UInt8} {c : BitVec 16} {rest : List UInt8}
    (h : q.first.data = [icmpEcho, code] ++ store16 c ++ rest) :
    (toReply inp q).bytes = [icmpEr, code] ++
      store16 (if inp.checksumEnabled netifChecksumGenIcmp then adjustChksum c else 0) ++
      (rest ++ PbufChain.bytes q.next) := by
  have hnext : (toReply inp q).next = q.next := by
    rw [toReply, Chain.store_next, Chain.store_next]
  rw [Chain.bytes_eq, toReply_first h, hnext, List.append_assoc _ rest]

/-- The answer is written into a chain with the bytes of the request, the first
of which lie in its first `pbuf` as well. -/
theorem answerChain_spec {p q : Chain} {hlen : ℕ} {alloc : Option ℕ}
    (h : answerChain p hlen alloc = some q) :
    q.bytes = p.bytes ∧ ∃ more, q.first.data = p.first.data ++ more := by
  unfold answerChain at h
  split at h
  · cases h
    exact ⟨rfl, [], (List.append_nil _).symm⟩
  · split at h
    · cases h
    · split at h
      · cases h
      · split at h
        · cases h
        · cases h
          rw [Chain.bytes_eq, bytes_nil, List.append_nil]
          exact ⟨rfl, PbufChain.bytes p.next, p.bytes_eq⟩

theorem icmpInput_reply {inp : Netif} {iphdr : List UInt8} {p q : Chain} {alloc : Option ℕ}
    (h : icmpInput inp iphdr p alloc = .reply q) :
    4 ≤ p.len ∧ p.first.data.headD 0 = icmpEcho ∧
      (inp.checksumEnabled netifChecksumCheckIcmp = true → inetChksumPbuf p.segs = 0#16) ∧
      ∃ t addr, (∃ hlen, answerChain p hlen alloc = some t) ∧
        pbufAddHeader (toReply inp t) ((replyHdr inp addr iphdr (iphdr.drop ipHlen)).toBytes ++
          iphdr.drop ipHlen) = some q := by
  unfold icmpInput at h
  dsimp only at h
  split at h
  · cases h
  split at h
  · cases h
  next hlen =>
  split at h
  · cases h
  split at h
  · cases h
  next htype =>
  split at h
  · cases h
  split at h
  · cases h
  split at h
  · cases h
  next hchk =>
  split at h
  · cases h
  next t hanswer =>
  split at h
  · cases h
  next q' hadd =>
  cases h
  refine ⟨Nat.not_lt.mp hlen, by simpa using htype, ?_, t, _, ⟨_, hanswer⟩, hadd⟩
  intro hcheck
  simpa [hcheck] using hchk

/-- The message of an answer: the type is changed, the checksum verifies, and all
behind it is the same. -/
theorem toReply_spec {inp : Netif} {p t : Chain} {more : List UInt8}
    (hgen : inp.checksumEnabled netifChecksumGenIcmp = true) (hlen : 4 ≤ p.len)
    (htype : p.first.data.headD 0 = icmpEcho) (hvalid : inetChksumPbuf p.segs = 0#16)
    (hbytes : t.bytes = p.bytes) (hfirst : t.first.data = p.first.data ++ more) :
    (toReply inp t).bytes.take 2 = icmpEr :: (p.bytes.take 2).drop 1 ∧
      internetChecksum (toReply inp t).bytes = 0 ∧
      (toReply inp t).bytes.drop 4 = p.bytes.drop 4 ∧
      (toReply inp t).bytes.length = p.bytes.length := by
  obtain ⟨code, rest, hp⟩ := request_eq hlen htype
  generalize at16 p.first.data 2 = c at hp
  rw [hp, List.append_assoc _ rest] at hfirst
  have hreply : (toReply inp t).bytes = _ := toReply_bytes hfirst
  rw [if_pos hgen] at hreply
  have hrequest : p.bytes =
      [icmpEcho, code] ++ store16 c ++ (rest ++ more ++ PbufChain.bytes t.next) := by
    rw [← hbytes, Chain.bytes_eq, hfirst, List.append_assoc _ (rest ++ more)]
  have hsum := inetChksumPbuf_eq p.segs
  rw [hvalid, show PbufChain.bytes p.segs = p.bytes from rfl, hrequest] at hsum
  rw [hreply, hrequest]
  exact ⟨rfl, reply_valid code c _ hsum.symm, rfl, by simp⟩

theorem replyHdr_spec {inp : Netif} {r p : Chain} {iphdr : List UInt8} (addr : ℕ)
    (hgen : inp.checksumEnabled netifChecksumGenIp = true) (hd : Delivered inp r iphdr p) :
    let options := iphdr.drop ipHlen
    let back := replyHdr inp addr iphdr options
    back.vHl.toNat / 16 = 4 ∧ back.vHl.toNat % 16 * 4 = ipHlen + options.length ∧
      (lwipHtons back.len).toNat = ipHlen + options.length + p.bytes.length ∧
      back.offset &&& lwipHtons 0x3fff = 0#16 ∧ internetChecksum (back.toBytes ++ options) = 0 ∧
      back.src = (IpHdr.ofBytes iphdr).dest ∧ back.dest = (IpHdr.ofBytes iphdr).src ∧
      back.proto = (IpHdr.ofBytes iphdr).proto := by
  have hparse : IpHdr.ofBytes r.first.data = IpHdr.ofBytes iphdr := by
    rw [hd.header]
    exact (ofBytes_take _ hd.length.1).symm
  have hversion := hd.version
  have hhl := hd.hlen
  have hfits := hd.fits
  have hcomplete := hd.complete
  have hpayload := congrArg List.length hd.payload
  have hwhole := hd.whole
  obtain ⟨hmin, hmax, -⟩ := hd.length
  rw [hparse] at hversion hhl hfits hcomplete hpayload hwhole
  have hoptions : ipHlen + (iphdr.drop ipHlen).length = iphdr.length := by
    rw [List.length_drop]
    omega
  intro options back
  have hvalid := setChksum_valid
    { IpHdr.ofBytes iphdr with
      src := (IpHdr.ofBytes iphdr).dest, dest := (IpHdr.ofBytes iphdr).src, ttl := icmpTtl }
    addr hgen (show options.length < 65516 by
      have hdrop : options.length = (iphdr.drop ipHlen).length := rfl
      omega)
  obtain ⟨c, hc⟩ := setChksum_eq
    { IpHdr.ofBytes iphdr with
      src := (IpHdr.ofBytes iphdr).dest, dest := (IpHdr.ofBytes iphdr).src, ttl := icmpTtl }
    inp addr options
  have hback : back = _ := hc
  refine ⟨?_, ?_, ?_, ?_, hvalid, ?_⟩
  · rw [hback]
    exact hversion
  · rw [hback, hoptions]
    exact hhl
  · rw [hback, hoptions]
    dsimp only
    have hwithin : _ ≤ r.bytes.length := hcomplete
    rw [List.length_drop, List.length_take, Nat.min_eq_left hwithin] at hpayload
    omega
  · rw [hback]
    exact hwhole
  · rw [hback]
    exact ⟨rfl, rfl, rfl⟩

/-- An answer is what the other side accepts, from whatever chain of bytes it is
received in, and whatever padding it got on the way. -/
theorem echo_is_returned {inp asker : Netif} {r p q r' : Chain} {iphdr padding : List UInt8}
    {alloc : Option ℕ} (hflags : inp.chksumFlags = netifChecksumEnableAll)
    (hrecv : ip4Input inp r = .deliver iphdr p)
    (hreply : icmpInput inp iphdr p alloc = .reply q)
    (hbytes : r'.bytes = q.bytes ++ padding) (hlen : iphdr.length ≤ r'.len)
    (hdest : destForUs asker (IpHdr.ofBytes iphdr).src = true)
    (hsrc : srcInvalid asker (IpHdr.ofBytes iphdr).dest = false) :
    ∃ (back : List UInt8) (p' : Chain), ip4Input asker r' = .deliver back p' ∧
      (IpHdr.ofBytes back).src = (IpHdr.ofBytes iphdr).dest ∧
      (IpHdr.ofBytes back).dest = (IpHdr.ofBytes iphdr).src ∧
      (IpHdr.ofBytes back).proto = (IpHdr.ofBytes iphdr).proto ∧
      p'.bytes.take 2 = icmpEr :: (p.bytes.take 2).drop 1 ∧ inetChksumPbuf p'.segs = 0#16 ∧
      p'.bytes.drop 4 = p.bytes.drop 4 := by
  have hgen : inp.checksumEnabled netifChecksumGenIp = true := by
    rw [Netif.checksumEnabled, hflags]; decide
  have hgen' : inp.checksumEnabled netifChecksumGenIcmp = true := by
    rw [Netif.checksumEnabled, hflags]; decide
  have hcheck : inp.checksumEnabled netifChecksumCheckIcmp = true := by
    rw [Netif.checksumEnabled, hflags]; decide
  have hd := ip4Input_deliver hrecv
  obtain ⟨hplen, htype, hvalid, t, addr, ⟨_, hanswer⟩, hadd⟩ := icmpInput_reply hreply
  obtain ⟨htbytes, more, htfirst⟩ := answerChain_spec hanswer
  obtain ⟨hcode, hsum, hrest, hlength⟩ :=
    toReply_spec hgen' hplen htype (hvalid hcheck) htbytes htfirst
  obtain ⟨hversion, hhl, hlenField, hwhole, hhdr, hsrc', hdest', hproto⟩ :=
    replyHdr_spec addr hgen hd
  have hoptions : ipHlen + (iphdr.drop ipHlen).length = iphdr.length := by
    have hmin := hd.length.1
    rw [List.length_drop]
    omega
  rw [(pbufAddHeader_bytes hadd).1] at hbytes
  rw [← hlength] at hlenField
  rw [← hoptions] at hlen
  rw [← hdest'] at hdest
  rw [← hsrc'] at hsrc
  obtain ⟨p', hdeliver, hp', -⟩ :=
    ip4Input_of_valid hversion hhl hlenField hwhole hhdr hbytes hlen hdest hsrc
  refine ⟨_, p', hdeliver, ?_⟩
  rw [IpHdr.ofBytes_toBytes, hp']
  refine ⟨hsrc', hdest', hproto, hcode, ?_, hrest⟩
  apply BitVec.eq_of_toNat_eq
  rw [inetChksumPbuf_eq, show PbufChain.bytes p'.segs = p'.bytes from rfl, hp', hsum]
  rfl

/-- A request that is received behind a link header is answered in place. -/
theorem icmpInput_answers {inp : Netif} {r p : Chain} {iphdr : List UInt8} (alloc : Option ℕ)
    (hgen : inp.checksumEnabled netifChecksumGenIcmp = true)
    (hrecv : ip4Input inp r = .deliver iphdr p) (hroom : pbufLinkHlen ≤ r.headroom)
    (hsize : r.totLen + pbufLinkHlen < 65536) (hlen : 4 ≤ p.len) (htotLen : echoHlen ≤ p.totLen)
    (htype : p.first.data.headD 0 = icmpEcho)
    (hmulticast : ip4AddrIsmulticast (IpHdr.ofBytes iphdr).dest = false)
    (hbroadcast : ip4AddrIsbroadcast (IpHdr.ofBytes iphdr).dest inp = false)
    (hvalid : inetChksumPbuf p.segs = 0#16) : ∃ q, icmpInput inp iphdr p alloc = .reply q := by
  have hd := ip4Input_deliver hrecv
  have hparse : IpHdr.ofBytes r.first.data = IpHdr.ofBytes iphdr := by
    rw [hd.header]
    exact (ofBytes_take _ hd.length.1).symm
  have hhl := hd.hlen
  rw [hparse] at hhl
  have hmin := hd.length.1
  have hheadroom := hd.headroom
  have htot : iphdr.length + p.totLen ≤ r.totLen := by
    have hfits := hd.fits
    have hcomplete := hd.complete
    rw [Chain.totLen, hd.payload, List.length_drop, List.length_take]
    exact Nat.le_trans (by omega) hcomplete
  have hanswer : answerChain p iphdr.length alloc = some p := by
    apply if_pos
    rw [Chain.hasRoom, Bool.and_eq_true, decide_eq_true_eq, decide_eq_true_eq]
    omega
  have hreply : (toReply inp p).hasRoom iphdr.length = true := by
    have hlength := (toReply_spec hgen hlen htype hvalid rfl (List.append_nil _).symm).2.2.2
    have hkept : (toReply inp p).headroom = p.headroom := by
      rw [toReply, Chain.store_headroom, Chain.store_headroom]
    have htotal : (toReply inp p).totLen = p.totLen := hlength
    rw [Chain.hasRoom, Bool.and_eq_true, decide_eq_true_eq, decide_eq_true_eq, hkept, htotal]
    omega
  have hadd : ∀ h : IpHdr, ∃ q,
      pbufAddHeader (toReply inp p) (h.toBytes ++ iphdr.drop ipHlen) = some q := by
    intro h
    apply Option.isSome_iff_exists.mp
    have hlength : (h.toBytes ++ iphdr.drop ipHlen).length = iphdr.length := by
      rw [List.length_append, h.toBytes_length, List.length_drop]
      unfold ipHlen at *
      omega
    rw [pbufAddHeader_isSome, hlength]
    exact hreply
  have hnotReply : (icmpEcho == icmpEr) = false := by decide
  unfold icmpInput
  simp only [hhl, if_neg (Nat.not_lt.mpr hmin), if_neg (Nat.not_lt.mpr hlen), htype, hnotReply,
    hmulticast, hbroadcast, if_neg (Nat.not_lt.mpr htotLen), hvalid, hanswer]
  obtain ⟨q, hq⟩ := hadd (replyHdr inp ((toReply inp p).first.payload - iphdr.length) iphdr
    (iphdr.drop ipHlen))
  refine ⟨q, ?_⟩
  simp [hq]

/-- Every ping to the address of the board is answered, without any memory: the
answer passes the checks of the IP header and of the message at the board that
asked, however it is received there; its addresses are those of the request
exchanged, and all that it carries behind the checksum is the same. -/
theorem ping_is_answered {inp : Netif} {r p : Chain} {iphdr : List UInt8} (alloc : Option ℕ)
    (hflags : inp.chksumFlags = netifChecksumEnableAll)
    (hrecv : ip4Input inp r = .deliver iphdr p) (hroom : pbufLinkHlen ≤ r.headroom)
    (hsize : r.totLen + pbufLinkHlen < 65536) (hlen : 4 ≤ p.len) (htotLen : echoHlen ≤ p.totLen)
    (htype : p.first.data.headD 0 = icmpEcho)
    (hmulticast : ip4AddrIsmulticast (IpHdr.ofBytes iphdr).dest = false)
    (hbroadcast : ip4AddrIsbroadcast (IpHdr.ofBytes iphdr).dest inp = false)
    (hvalid : inetChksumPbuf p.segs = 0#16) :
    ∃ q, icmpInput inp iphdr p alloc = .reply q ∧
      ∀ (asker : Netif) (r' : Chain) (padding : List UInt8), r'.bytes = q.bytes ++ padding →
        iphdr.length ≤ r'.len → destForUs asker (IpHdr.ofBytes iphdr).src = true →
        srcInvalid asker (IpHdr.ofBytes iphdr).dest = false →
        ∃ (back : List UInt8) (p' : Chain), ip4Input asker r' = .deliver back p' ∧
          (IpHdr.ofBytes back).src = (IpHdr.ofBytes iphdr).dest ∧
          (IpHdr.ofBytes back).dest = (IpHdr.ofBytes iphdr).src ∧
          (IpHdr.ofBytes back).proto = (IpHdr.ofBytes iphdr).proto ∧
          p'.bytes.take 2 = icmpEr :: (p.bytes.take 2).drop 1 ∧ inetChksumPbuf p'.segs = 0#16 ∧
          p'.bytes.drop 4 = p.bytes.drop 4 := by
  have hgen : inp.checksumEnabled netifChecksumGenIcmp = true := by
    rw [Netif.checksumEnabled, hflags]; decide
  obtain ⟨q, hreply⟩ := icmpInput_answers alloc hgen hrecv hroom hsize hlen htotLen htype
    hmulticast hbroadcast hvalid
  refine ⟨q, hreply, ?_⟩
  intro asker r' padding hbytes hfirst hdest hsrc
  exact echo_is_returned hflags hrecv hreply hbytes hfirst hdest hsrc

theorem short_ping_is_answered :
    ∃ q, icmpInput ⟨0x0200a8c0, 0x00ffffff, 3, 0xffff, 0⟩
      [69, 0, 0, 30, 0, 5, 0, 0, 64, 1, 249, 134, 192, 168, 0, 1, 192, 168, 0, 2]
      ⟨34, ⟨534, [8, 0, 150, 149, 0, 7, 0, 1, 97, 98], by decide⟩, [], by decide⟩ none =
        .reply q := by
  have hrecv : ip4Input ⟨0x0200a8c0, 0x00ffffff, 3, 0xffff, 0⟩
      ⟨14, ⟨514, [69, 0, 0, 30, 0, 5, 0, 0, 64, 1, 249, 134, 192, 168, 0, 1, 192, 168, 0, 2,
        8, 0, 150, 149, 0, 7, 0, 1, 97, 98], by decide⟩, [], by decide⟩ =
      .deliver [69, 0, 0, 30, 0, 5, 0, 0, 64, 1, 249, 134, 192, 168, 0, 1, 192, 168, 0, 2]
        ⟨34, ⟨534, [8, 0, 150, 149, 0, 7, 0, 1, 97, 98], by decide⟩, [], by decide⟩ := by
    decide +kernel
  obtain ⟨q, hreply, -⟩ := ping_is_answered none rfl hrecv (by decide) (by decide) (by decide)
    (by decide) rfl (by decide) (by decide) (by decide +kernel)
  exact ⟨q, hreply⟩

end EthDriver.IcmpEcho

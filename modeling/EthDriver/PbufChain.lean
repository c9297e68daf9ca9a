import EthDriver.Bytes

namespace EthDriver.PbufChain

open EthDriver.Bytes

/-- One `pbuf`: where its payload lies, and the `len` bytes there. -/
structure Seg where
  payload : ℕ
  data : List UInt8
  len_lt : data.length < 65536
  deriving DecidableEq

def bytes (p : List Seg) : List UInt8 := p.flatMap Seg.data

@[simp] theorem bytes_nil : bytes [] = [] := rfl

@[simp] theorem bytes_cons (q : Seg) (next : List Seg) : bytes (q :: next) = q.data ++ bytes next :=
  List.flatMap_cons

/-- A chain as the layers hand it on. `headroom` is what lies between the first
`struct pbuf` and its payload, and zero where the payload lies elsewhere. -/
structure Chain where
  headroom : ℕ
  first : Seg
  next : List Seg
  totLen_lt : (first.data ++ bytes next).length < 65536
  deriving DecidableEq

def Chain.segs (p : Chain) : List Seg := p.first :: p.next

def Chain.bytes (p : Chain) : List UInt8 := PbufChain.bytes p.segs

def Chain.len (p : Chain) : ℕ := p.first.data.length

def Chain.totLen (p : Chain) : ℕ := p.bytes.length

theorem Chain.bytes_eq (p : Chain) : p.bytes = p.first.data ++ PbufChain.bytes p.next :=
  bytes_cons p.first p.next

theorem Chain.totLen_bound (p : Chain) : p.totLen < 65536 := by
  rw [totLen, bytes_eq]
  exact p.totLen_lt

theorem Chain.len_le_totLen (p : Chain) : p.len ≤ p.totLen := by
  rw [totLen, bytes_eq, List.length_append]
  exact Nat.le_add_right _ _

/-- Whether `pbuf_add_header` can move the payload `n` bytes to the front. -/
def Chain.hasRoom (p : Chain) (n : ℕ) : Bool := n + p.totLen < 65536 && n ≤ p.headroom

/-- `pbuf_add_header`, with the bytes that are in front of the payload
afterwards. It fails when `tot_len` would wrap or the room does not suffice. -/
def pbufAddHeader (p : Chain) (hdr : List UInt8) : Option Chain :=
  if h : (hdr ++ p.first.data ++ bytes p.next).length < 65536 then
    if p.headroom < hdr.length then none
    else some {
      headroom := p.headroom - hdr.length
      first := ⟨p.first.payload - hdr.length, hdr ++ p.first.data, by
        rw [List.length_append] at h
        omega⟩
      next := p.next
      totLen_lt := h }
  else none

/-- `pbuf_remove_header`, which does not go past the first `pbuf`. -/
def pbufRemoveHeader (p : Chain) (n : ℕ) : Option Chain :=
  if n ≤ p.len then
    some {
      headroom := p.headroom + n
      first := ⟨p.first.payload + n, p.first.data.drop n,
        Nat.lt_of_le_of_lt (by simp) p.first.len_lt⟩
      next := p.next
      totLen_lt := by
        have h := p.totLen_lt
        rw [List.length_append, List.length_drop] at *
        omega }
  else none

def Seg.take (q : Seg) (n : ℕ) : Seg :=
  ⟨q.payload, q.data.take n, Nat.lt_of_le_of_lt (List.length_take_le' n q.data) q.len_lt⟩

def shorten : List Seg → ℕ → List Seg
  | [], _ => []
  | q :: next, remLen =>
    if q.data.length < remLen then q :: shorten next (remLen - q.data.length) else [q.take remLen]

theorem bytes_shorten (p : List Seg) (n : ℕ) : bytes (shorten p n) = (bytes p).take n := by
  induction p generalizing n with
  | nil => simp [shorten]
  | cons q next ih =>
    rw [shorten, bytes_cons, List.take_append]
    split
    · next h =>
      rw [bytes_cons, ih, List.take_of_length_le (Nat.le_of_lt h)]
    · next h =>
      rw [Nat.sub_eq_zero_of_le (Nat.le_of_not_lt h), List.take_zero]
      simp [Seg.take]

/-- `pbuf_realloc`, which can only shrink a chain. -/
def pbufRealloc (p : Chain) (newLen : ℕ) : Chain :=
  if p.totLen ≤ newLen then p
  else if p.len < newLen then {
    p with
    next := shorten p.next (newLen - p.len)
    totLen_lt := by
      have h := p.totLen_lt
      rw [List.length_append, bytes_shorten, List.length_take] at *
      omega }
  else {
    p with
    first := p.first.take newLen
    next := []
    totLen_lt := by
      have h := p.first.len_lt
      rw [bytes_nil, List.append_nil]
      exact (p.first.take newLen).len_lt }

/-- A store of `d` through a pointer `i` bytes behind the payload. One that would
leave the first `pbuf` has no place in the chain. -/
def Chain.store (p : Chain) (i : ℕ) (d : List UInt8) : Chain :=
  if h : i + d.length ≤ p.len then {
    p with
    first := ⟨p.first.payload, p.first.data.take i ++ (d ++ p.first.data.drop (i + d.length)), by
      have hlt := p.first.len_lt
      simp only [Chain.len, List.length_append, List.length_take, List.length_drop] at *
      omega⟩
    totLen_lt := by
      have hlt := p.totLen_lt
      have hfits : i + d.length ≤ p.first.data.length := h
      simp only [List.length_append, List.length_take, List.length_drop] at *
      omega }
  else p

theorem Chain.store_first {p : Chain} {a b d e : List UInt8} (h : p.first.data = a ++ (d ++ b))
    (hlen : e.length = d.length) : (p.store a.length e).first.data = a ++ (e ++ b) := by
  have hfits : a.length + e.length ≤ p.len := by
    rw [Chain.len, h, List.length_append, List.length_append]
    omega
  have hdrop : p.first.data.drop (a.length + e.length) = b := by
    rw [h, hlen, ← List.length_append, ← List.append_assoc, List.drop_left]
  rw [Chain.store, dif_pos hfits]
  dsimp only
  rw [hdrop, h, List.take_left]

@[simp] theorem Chain.store_headroom (p : Chain) (i : ℕ) (d : List UInt8) :
    (p.store i d).headroom = p.headroom := by
  unfold Chain.store
  split <;> rfl

@[simp] theorem Chain.store_next (p : Chain) (i : ℕ) (d : List UInt8) :
    (p.store i d).next = p.next := by
  unfold Chain.store
  split <;> rfl

theorem pbufAddHeader_bytes {p q : Chain} {hdr : List UInt8} (h : pbufAddHeader p hdr = some q) :
    q.bytes = hdr ++ p.bytes ∧ q.first.data = hdr ++ p.first.data ∧ q.next = p.next := by
  unfold pbufAddHeader at h
  split at h
  · split at h
    · cases h
    · cases h
      exact ⟨by simp [Chain.bytes_eq], rfl, rfl⟩
  · cases h

theorem pbufAddHeader_isSome (p : Chain) (hdr : List UInt8) :
    (pbufAddHeader p hdr).isSome = p.hasRoom hdr.length := by
  have htot : (hdr ++ p.first.data ++ bytes p.next).length = hdr.length + p.totLen := by
    rw [Chain.totLen, Chain.bytes_eq, List.append_assoc, List.length_append]
  unfold pbufAddHeader Chain.hasRoom
  split
  · next h =>
    rw [htot] at h
    split
    · next hroom => simp [hroom]
    · next hroom => simp [h, Nat.not_lt.mp hroom]
  · next h =>
    rw [htot] at h
    simp [h]

theorem pbufRemoveHeader_bytes {p : Chain} {n : ℕ} (h : n ≤ p.len) :
    ∃ q, pbufRemoveHeader p n = some q ∧ q.bytes = p.bytes.drop n ∧
      q.first.data = p.first.data.drop n ∧ q.headroom = p.headroom + n := by
  refine ⟨_, if_pos h, ?_, rfl, rfl⟩
  rw [Chain.bytes_eq, Chain.bytes_eq, List.drop_append_of_le_length h]

theorem pbufRealloc_bytes (p : Chain) (n : ℕ) : (pbufRealloc p n).bytes = p.bytes.take n := by
  unfold pbufRealloc
  split
  · next h => rw [List.take_of_length_le h]
  · split
    · next h =>
      rw [Chain.bytes_eq, Chain.bytes_eq, bytes_shorten, List.take_append,
        List.take_of_length_le (Nat.le_of_lt h)]
      rfl
    · next h =>
      have hnext : n - p.first.data.length = 0 := Nat.sub_eq_zero_of_le (Nat.le_of_not_lt h)
      rw [Chain.bytes_eq, Chain.bytes_eq, List.take_append, hnext, List.take_zero]
      rfl

theorem pbufRealloc_first (p : Chain) (n : ℕ) :
    (pbufRealloc p n).first.data = p.first.data.take n := by
  unfold pbufRealloc
  split
  · next h => exact (List.take_of_length_le (Nat.le_trans p.len_le_totLen h)).symm
  · split
    · next h => exact (List.take_of_length_le (Nat.le_of_lt h)).symm
    · rfl

@[simp] theorem pbufRealloc_headroom (p : Chain) (n : ℕ) :
    (pbufRealloc p n).headroom = p.headroom := by
  unfold pbufRealloc
  split
  · rfl
  · split <;> rfl

/-- What a chain starts with lies in its first `pbuf`, when that is long enough. -/
theorem first_data_of_bytes {p : Chain} {d rest : List UInt8} (hbytes : p.bytes = d ++ rest)
    (hlen : d.length ≤ p.len) : p.first.data = d ++ p.first.data.drop d.length := by
  have htake : p.first.data.take d.length = d := by
    have hfirst := congrArg (List.take d.length) hbytes
    rwa [Chain.bytes_eq, List.take_append_of_le_length hlen, List.take_left] at hfirst
  calc p.first.data = p.first.data.take d.length ++ p.first.data.drop d.length :=
        (List.take_append_drop _ _).symm
    _ = d ++ p.first.data.drop d.length := by rw [htake]

end EthDriver.PbufChain

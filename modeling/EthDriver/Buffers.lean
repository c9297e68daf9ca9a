import EthDriver.Bytes
import Mathlib.Logic.Function.Basic
import Mathlib.Data.List.Pairwise

namespace EthDriver.Buffers

open Bytes

/-- The buffers that the clients of an allocator hold, by their addresses: what each
of them contains as far as its owner has asked for it. -/
abbrev Held := ℕ → Option (List UInt8)

/-- Areas `(start, size)` in the order of their addresses, apart by one byte at least. -/
def Ordered (as : List (ℕ × ℕ)) : Prop := as.Pairwise (fun b c => b.1 + b.2 < c.1)

def areas (header : ℕ) (bs : List (ℕ × ℕ)) : List (ℕ × ℕ) :=
  bs.map (fun b => (b.1 + header, b.2 - header))

def Same (m m' : Memory) (as : List (ℕ × ℕ)) : Prop :=
  ∀ b ∈ as, ∀ i, b.1 ≤ i → i < b.1 + b.2 → m' i = m i

/-- The areas are those of the buffers held, and the memory has their contents. -/
structure Holds (m : Memory) (as : List (ℕ × ℕ)) (held : Held) : Prop where
  ordered : Ordered as
  known : ∀ p, held p ≠ none ↔ ∃ n, (p, n) ∈ as
  room : ∀ p n d, (p, n) ∈ as → held p = some d → d.length ≤ n
  kept : ∀ p d, held p = some d → read m p d.length = d

/-- A buffer after a store of `data` at `off`. -/
def splice (d : List UInt8) (off : ℕ) (data : List UInt8) : List UInt8 :=
  d.take off ++ data ++ d.drop (off + data.length)

theorem length_splice {d data : List UInt8} {off : ℕ} (h : off + data.length ≤ d.length) :
    (splice d off data).length = d.length := by
  simp only [splice, List.length_append, List.length_take, List.length_drop]
  omega

theorem splice_all {d data : List UInt8} (h : data.length = d.length) : splice d 0 data = data := by
  simp [splice, h]

theorem take_read (m : Memory) (p k n : ℕ) : (read m p n).take k = read m p (min k n) := by
  rw [Bytes.read, ← List.map_take, List.take_range]
  rfl

theorem read_of_same {m m' : Memory} {p n : ℕ} {d : List UInt8} (h : read m p d.length = d)
    (hn : d.length ≤ n) (heq : ∀ i, p ≤ i → i < p + n → m' i = m i) : read m' p d.length = d := by
  rw [← h, read_length]
  exact read_congr fun i hi => heq (p + i) (Nat.le_add_right p i) (by omega)

/-- The first `k` bytes of a buffer, and of what lies behind it where it is shorter. -/
def resized (m : Memory) (p : ℕ) (d : List UInt8) (k : ℕ) : List UInt8 :=
  d.take k ++ read m (p + d.length) (k - d.length)

theorem read_resized {m : Memory} {p k : ℕ} {d : List UInt8}
    (h : read m p (min k d.length) = d.take k) : read m p k = resized m p d k := by
  obtain hle | hge := Nat.le_total k d.length
  · rw [Nat.min_eq_left hle] at h
    rw [resized, Nat.sub_eq_zero_of_le hle, h]
    exact (List.append_nil _).symm
  · rw [Nat.min_eq_right hge, List.take_of_length_le hge] at h
    have hk : d.length + (k - d.length) = k := Nat.add_sub_cancel' hge
    rw [resized, List.take_of_length_le hge]
    nth_rewrite 1 [← h]
    rw [← read_add, hk]

/-- A store into a buffer is read back with what surrounds it. -/
theorem read_splice {m : Memory} {p off : ℕ} {d data : List UInt8} (h : read m p d.length = d)
    (hoff : off + data.length ≤ d.length) :
    read (write m (p + off) data) p d.length = splice d off data := by
  obtain ⟨k, hk⟩ := Nat.exists_eq_add_of_le hoff
  have hd : read m p off ++ read m (p + off) data.length ++ read m (p + (off + data.length)) k
      = d := by
    rw [← read_add, ← read_add, ← hk, h]
  have hlow : read m p off = d.take off := by
    rw [← hd, List.append_assoc, List.take_append_of_le_length (by simp), List.take_of_length_le]
    simp
  have hhigh : read m (p + (off + data.length)) k = d.drop (off + data.length) := by
    rw [← hd, List.drop_left']
    simp
  rw [hk, read_add, read_write_append, read_write_apart _ _ (.inr (by omega)), hlow, hhigh, splice]

section Rules

variable {m m' : Memory} {as bs : List (ℕ × ℕ)} {held : Held} {p n : ℕ}

theorem Ordered.mid (h : Ordered (as ++ (p, n) :: bs)) {q l : ℕ} (hq : (q, l) ∈ as ++ bs) :
    q + l < p ∨ p + n < q := by
  rw [Ordered, List.pairwise_append, List.pairwise_cons] at h
  obtain ha | hb := List.mem_append.mp hq
  · exact .inl (h.2.2 (q, l) ha (p, n) List.mem_cons_self)
  · exact .inr (h.2.1.1 (q, l) hb)

theorem Ordered.remove (h : Ordered (as ++ (p, n) :: bs)) : Ordered (as ++ bs) :=
  List.Pairwise.sublist (List.Sublist.append_left (List.sublist_cons_self _ _) as) h

theorem mem_around {q l : ℕ} (h : (q, l) ∈ as ++ (p, n) :: bs) (hne : q ≠ p) :
    (q, l) ∈ as ++ bs := by
  rw [List.mem_append, List.mem_cons] at h
  rw [List.mem_append]
  obtain ha | heq | hb := h
  · exact .inl ha
  · exact absurd (congrArg Prod.fst heq) hne
  · exact .inr hb

theorem mem_of_around {q l : ℕ} (h : (q, l) ∈ as ++ bs) : (q, l) ∈ as ++ (p, n) :: bs := by
  rw [List.mem_append] at h
  rw [List.mem_append, List.mem_cons]
  exact h.imp_right .inr

/-- The rule of an allocation: the new area is apart from the others, which are left alone. -/
theorem Holds.alloc (h : Holds m (as ++ bs) held) (ho : Ordered (as ++ (p, n) :: bs))
    (hs : Same m m' (as ++ bs)) {d : List UInt8} (hd : d.length ≤ n)
    (hread : read m' p d.length = d) :
    Holds m' (as ++ (p, n) :: bs) (Function.update held p (some d)) := by
  constructor
  · exact ho
  · intro q
    by_cases hq : q = p
    · subst hq
      simp only [Function.update_self, ne_eq, reduceCtorEq, not_false_eq_true, true_iff]
      exact ⟨n, by simp⟩
    · rw [Function.update_of_ne hq, h.known]
      constructor
      · exact fun ⟨l, hl⟩ => ⟨l, mem_of_around hl⟩
      · exact fun ⟨l, hl⟩ => ⟨l, mem_around hl hq⟩
  · intro q l e hl he
    by_cases hq : q = p
    · subst hq
      rw [Function.update_self] at he
      cases he
      rw [List.mem_append, List.mem_cons] at hl
      by_cases hln : l = n
      · exact hln ▸ hd
      · obtain hmid := ho.mid (q := q) (l := l) (by
          rw [List.mem_append]
          obtain ha | heq | hb := hl
          · exact .inl ha
          · cases heq
            exact absurd rfl hln
          · exact .inr hb)
        omega
    · rw [Function.update_of_ne hq] at he
      exact h.room q l e (mem_around hl hq) he
  · intro q e he
    by_cases hq : q = p
    · subst hq
      rw [Function.update_self] at he
      cases he
      exact hread
    · rw [Function.update_of_ne hq] at he
      obtain ⟨l, hl⟩ := (h.known q).mp (by simp [he])
      exact read_of_same (h.kept q e he) (h.room q l e hl he) (hs (q, l) hl)

theorem Holds.release (h : Holds m (as ++ (p, n) :: bs) held) (hs : Same m m' (as ++ bs)) :
    Holds m' (as ++ bs) (Function.update held p none) := by
  constructor
  · exact h.ordered.remove
  · intro q
    by_cases hq : q = p
    · subst hq
      simp only [Function.update_self, ne_eq, not_true_eq_false, false_iff, not_exists]
      intro l hl
      obtain hlt | hgt := h.ordered.mid hl
      · omega
      · omega
    · rw [Function.update_of_ne hq, h.known]
      constructor
      · exact fun ⟨l, hl⟩ => ⟨l, mem_around hl hq⟩
      · exact fun ⟨l, hl⟩ => ⟨l, mem_of_around hl⟩
  · intro q l e hl he
    by_cases hq : q = p
    · subst hq
      simp at he
    · rw [Function.update_of_ne hq] at he
      exact h.room q l e (mem_of_around hl) he
  · intro q e he
    by_cases hq : q = p
    · subst hq
      simp at he
    · rw [Function.update_of_ne hq] at he
      obtain ⟨l, hl⟩ := (h.known q).mp (by simp [he])
      have hl' := mem_around hl hq
      exact read_of_same (h.kept q e he) (h.room q l e hl he) (hs (q, l) hl')

/-- The rule of a resize in place, as a release and an allocation of what is left. -/
theorem Holds.resize (h : Holds m (as ++ (p, n) :: bs) held) {l k : ℕ} (hln : l ≤ n)
    (hs : Same m m' (as ++ (p, l) :: bs)) {d : List UInt8} (hd : held p = some d) (hk : k ≤ l) :
    Holds m' (as ++ (p, l) :: bs) (Function.update held p (some (resized m' p d k))) := by
  have hout : Same m m' (as ++ bs) := fun b hb => hs b (mem_of_around hb)
  have hord : Ordered (as ++ (p, l) :: bs) := by
    have ho := h.ordered
    rw [Ordered, List.pairwise_append, List.pairwise_cons] at ho ⊢
    refine ⟨ho.1, ⟨fun c hc => ?_, ho.2.1.2⟩, fun b hb c hc => ?_⟩
    · have := ho.2.1.1 c hc
      dsimp only at this ⊢
      omega
    · obtain rfl | hc := List.mem_cons.mp hc
      · exact ho.2.2 b hb (p, n) List.mem_cons_self
      · exact ho.2.2 b hb c (List.mem_cons_of_mem _ hc)
  have hread : read m' p k = resized m' p d k := by
    apply read_resized
    have hsame : read m' p (min k d.length) = read m p (min k d.length) :=
      read_congr fun i hi => hs (p, l) (by simp) (p + i) (Nat.le_add_right p i)
        (by dsimp only; omega)
    rw [hsame, ← take_read, h.kept p d hd]
  have hreleased : Holds m' (as ++ bs) (Function.update held p none) := h.release hout
  have hlen : (resized m' p d k).length = k := by rw [← hread, read_length]
  have hback := hreleased.alloc hord (fun _ _ _ _ _ => rfl) (by rw [hlen]; exact hk)
    (by rw [hlen, hread])
  rw [Function.update_idem] at hback
  exact hback

theorem Holds.store (h : Holds m as held) {off : ℕ} {d data : List UInt8} (hd : held p = some d)
    (hoff : off + data.length ≤ d.length) :
    Holds (write m (p + off) data) as (Function.update held p (some (splice d off data))) := by
  obtain ⟨n, hn⟩ := (h.known p).mp (by simp [hd])
  obtain ⟨bs, cs, rfl⟩ := List.append_of_mem hn
  have hroom := h.room p n d hn hd
  have hout : Same m (write m (p + off) data) (bs ++ cs) := by
    rintro ⟨q, l⟩ hb i hlo hhi
    apply write_apart
    have hmid := h.ordered.mid hb
    dsimp only at hlo hhi
    omega
  have hstored := (h.release hout).alloc h.ordered (fun _ _ _ _ _ => rfl)
    (show (splice d off data).length ≤ n by rw [length_splice hoff]; exact hroom)
    (by rw [length_splice hoff]; exact read_splice (h.kept p d hd) hoff)
  rw [Function.update_idem] at hstored
  exact hstored

theorem Holds.apart (h : Holds m as held) {q : ℕ} {d e : List UInt8} (hd : held p = some d)
    (he : held q = some e) (hne : p ≠ q) : p + d.length < q ∨ q + e.length < p := by
  obtain ⟨n, hn⟩ := (h.known p).mp (by simp [hd])
  obtain ⟨l, hl⟩ := (h.known q).mp (by simp [he])
  have hroom := h.room p n d hn hd
  have hroom' := h.room q l e hl he
  obtain ⟨bs, cs, rfl⟩ := List.append_of_mem hn
  have hmid := h.ordered.mid (mem_around hl (Ne.symm hne))
  omega

end Rules

end EthDriver.Buffers

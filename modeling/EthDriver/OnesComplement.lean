import Mathlib.Data.Nat.ModEq
import EthDriver.Bytes

namespace EthDriver.OnesComplement

open EthDriver.Bytes

/-- Two accumulators stand for the same ones' complement number of sixteen bits:
they agree modulo `65535`, and one is zero exactly when the other is. Zero and
`65535` are kept apart, as they are by additions with an end-around carry. -/
def Same (a b : ℕ) : Prop := a % 65535 = b % 65535 ∧ (a = 0 ↔ b = 0)

theorem Same.refl (a : ℕ) : Same a a := ⟨rfl, Iff.rfl⟩

theorem Same.symm {a b : ℕ} (h : Same a b) : Same b a := ⟨h.1.symm, h.2.symm⟩

theorem Same.trans {a b c : ℕ} (h : Same a b) (h' : Same b c) : Same a c :=
  ⟨h.1.trans h'.1, h.2.trans h'.2⟩

theorem Same.add {a b c d : ℕ} (h : Same a b) (h' : Same c d) : Same (a + c) (b + d) := by
  obtain ⟨hmod, hzero⟩ := h
  obtain ⟨hmod', hzero'⟩ := h'
  exact ⟨by omega, by omega⟩

theorem Same.mul_left {a b : ℕ} (h : Same a b) (k : ℕ) : Same (k * a) (k * b) := by
  refine ⟨Nat.ModEq.mul_left k h.1, ?_⟩
  rw [Nat.mul_eq_zero, Nat.mul_eq_zero, h.2]

theorem Same.eq {a b : ℕ} (h : Same a b) (ha : a < 65536) (hb : b < 65536) : a = b := by
  obtain ⟨hmod, hzero⟩ := h
  omega

theorem same_fold (a : ℕ) : Same (a / 65536 + a % 65536) a := by
  constructor <;> omega

theorem same_swap {a : ℕ} (h : a < 65536) : Same (a % 256 * 256 + a / 256) (256 * a) := by
  constructor <;> omega

/-- The weight of a byte depends only on the parity of its place. -/
theorem same_weight_even (k a : ℕ) (h : k % 2 = 0) : Same (256 ^ k * a) a := by
  obtain ⟨j, rfl⟩ : ∃ j, k = 2 * j := ⟨k / 2, by omega⟩
  rw [pow_mul]
  refine ⟨?_, by simp⟩
  have hpow : (256 ^ 2) ^ j ≡ 1 ^ j [MOD 65535] := Nat.ModEq.pow j (by decide)
  have hmul := hpow.mul_right a
  rwa [one_pow, one_mul] at hmul

theorem same_weight_odd (k a : ℕ) (h : k % 2 = 1) : Same (256 ^ k * a) (256 * a) := by
  obtain ⟨j, rfl⟩ : ∃ j, k = j + 1 := ⟨k - 1, by omega⟩
  rw [pow_succ, mul_assoc]
  exact same_weight_even j _ (by omega)

def endAround (a b : ℕ) : ℕ := if a + b < 65536 then a + b else a + b - 65535

theorem same_endAround (a b : ℕ) : Same (endAround a b) (a + b) := by
  unfold endAround
  split
  · exact Same.refl _
  · constructor <;> omega

theorem endAround_lt {a b : ℕ} (ha : a < 65536) (hb : b < 65536) : endAround a b < 65536 := by
  unfold endAround
  split <;> omega

def word (lo hi : UInt8) : ℕ := lo.toNat + 256 * hi.toNat

theorem word_lt (lo hi : UInt8) : word lo hi < 65536 := by
  have hlo := lo.toNat_lt
  have hhi := hi.toNat_lt
  unfold word
  omega

/-- The Internet sum of a byte string: its words added with end-around carry,
an odd byte at the end padded with a zero byte. -/
def internetSum : List UInt8 → ℕ
  | [] => 0
  | [b] => word b 0
  | lo :: hi :: rest => endAround (word lo hi) (internetSum rest)

theorem internetSum_lt (data : List UInt8) : internetSum data < 65536 := by
  induction data using internetSum.induct with
  | case1 => decide
  | case2 b => exact word_lt b 0
  | case3 lo hi rest ih => exact endAround_lt (word_lt lo hi) ih

theorem same_ofLe_cons (lo hi : UInt8) (rest : List UInt8) :
    Same (word lo hi + ofLe rest) (ofLe (lo :: hi :: rest)) := by
  simp only [ofLe, word]
  constructor <;> omega

/-- The Internet sum is what the bytes stand for as one little-endian number. -/
theorem same_internetSum (data : List UInt8) : Same (internetSum data) (ofLe data) := by
  induction data using internetSum.induct with
  | case1 => exact Same.refl 0
  | case2 b => exact Same.refl _
  | case3 lo hi rest ih =>
    rw [internetSum]
    apply (same_endAround _ _).trans
    exact ((Same.refl _).add ih).trans (same_ofLe_cons lo hi rest)

theorem eq_internetSum {a : ℕ} {data : List UInt8} (h : Same a (ofLe data)) (ha : a < 65536) :
    a = internetSum data :=
  (h.trans (same_internetSum data).symm).eq ha (internetSum_lt data)

theorem ofLe_append (d e : List UInt8) : ofLe (d ++ e) = ofLe d + 256 ^ d.length * ofLe e := by
  induction d with
  | nil => simp [ofLe]
  | cons b d ih =>
    rw [List.cons_append, ofLe, ih, ofLe, List.length_cons, pow_succ', Nat.mul_add, Nat.add_assoc,
      Nat.mul_assoc]

def internetChecksum (data : List UInt8) : ℕ := 65535 - internetSum data

theorem internetChecksum_eq_zero (data : List UInt8) :
    internetChecksum data = 0 ↔ ofLe data % 65535 = 0 ∧ ofLe data ≠ 0 := by
  obtain ⟨hmod, hzero⟩ := same_internetSum data
  have hlt := internetSum_lt data
  unfold internetChecksum
  omega

theorem internetChecksum_lt (data : List UInt8) : internetChecksum data < 65536 := by
  unfold internetChecksum
  omega

theorem same_word {c : ℕ} (a b : List UInt8) (h : a.length % 2 = 0) (hc : c < 65536) :
    Same (ofLe (a ++ read (le c) 0 2 ++ b)) (c + ofLe (a ++ [0, 0] ++ b)) := by
  have hword : ofLe (read (le c) 0 2) = c := by
    rw [ofLe_read_le]
    exact Nat.mod_eq_of_lt hc
  have hzero : ofLe [0, 0] = 0 := rfl
  rw [ofLe_append, ofLe_append, ofLe_append, ofLe_append, hword, hzero, List.length_append,
    List.length_append, read_length, List.length_cons, List.length_cons, List.length_nil]
  generalize 256 ^ (a.length + (0 + 1 + 1)) * ofLe b = rest
  rw [Nat.mul_zero, Nat.add_zero, ← Nat.add_assoc]
  apply Same.add _ (Same.refl rest)
  rw [Nat.add_comm]
  exact (same_weight_even _ c h).add (Same.refl _)

/-- A checksum word is right exactly when it is the checksum of the other bytes,
where the two zeros are taken for each other. -/
theorem internetChecksum_word {c : ℕ} (a b : List UInt8) (h : a.length % 2 = 0) (hc : c < 65536) :
    internetChecksum (a ++ read (le c) 0 2 ++ b) = 0 ↔
      c = internetChecksum (a ++ [0, 0] ++ b) ∨
        internetChecksum (a ++ [0, 0] ++ b) = 0 ∧ c = 65535 := by
  obtain ⟨hmod, hzero⟩ := same_word a b h hc
  obtain ⟨hmod', hzero'⟩ := same_internetSum (a ++ [0, 0] ++ b)
  have hlt := internetSum_lt (a ++ [0, 0] ++ b)
  rw [internetChecksum_eq_zero]
  unfold internetChecksum
  omega

theorem internetChecksum_sealed (a b : List UInt8) (h : a.length % 2 = 0) :
    internetChecksum (a ++ read (le (internetChecksum (a ++ [0, 0] ++ b))) 0 2 ++ b) = 0 :=
  (internetChecksum_word a b h (internetChecksum_lt _)).mpr (.inl rfl)

end EthDriver.OnesComplement

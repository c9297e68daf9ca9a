import Mathlib.Data.List.Basic

namespace EthDriver.Bits

variable {w : ℕ}

/-- `x & m` read as a truth value. -/
def test (x m : BitVec w) : Bool := x &&& m != 0

theorem test_eq_false {x m : BitVec w} : test x m = false ↔ x &&& m = 0 := by
  simp [test]

@[simp] theorem test_or (x y m : BitVec w) : test (x ||| y) m = (test x m || test y m) := by
  rw [Bool.eq_iff_iff]
  simp only [test, BitVec.and_or_distrib_right, bne_iff_ne, ne_eq, Bool.or_eq_true]
  rw [BitVec.ofNat_eq_ofNat, BitVec.or_eq_zero_iff]
  tauto

theorem test_mask_or (x m k : BitVec w) : test x (m ||| k) = (test x m || test x k) := by
  rw [test, test, test, BitVec.and_comm x, BitVec.and_comm x, BitVec.and_comm x]
  exact test_or m k x

/-- Clearing the bits of `k` clears every bit of a mask below `k`. -/
theorem test_clear_of_le (x : BitVec w) {m k : BitVec w} (h : ~~~k &&& m = 0) :
    test (x &&& ~~~k) m = false := by
  rw [test_eq_false, BitVec.and_assoc, h, BitVec.ofNat_eq_ofNat, BitVec.and_zero]

theorem test_clear_of_disjoint (x : BitVec w) {m k : BitVec w} (h : ~~~k &&& m = m) :
    test (x &&& ~~~k) m = test x m := by
  rw [test, test, BitVec.and_assoc, h]

theorem test_clear_of_not (x : BitVec w) {m k : BitVec w} (h : test k m = false) :
    test (x &&& ~~~k) m = test x m := by
  apply test_clear_of_disjoint
  have hk : k &&& m = 0 := test_eq_false.mp h
  calc ~~~k &&& m = (~~~k &&& m) ||| (k &&& m) := by
        rw [hk, BitVec.ofNat_eq_ofNat, BitVec.or_zero]
    _ = m := by
        rw [← BitVec.and_or_distrib_right, BitVec.or_comm, BitVec.or_not_self, BitVec.allOnes_and]

theorem test_of_test_clear {x m k : BitVec w} (h : test (x &&& ~~~k) m = true) :
    test x m = true := by
  by_contra hx
  rw [Bool.not_eq_true, test_eq_false] at hx
  rw [test, BitVec.and_comm x, BitVec.and_assoc, hx] at h
  simp at h

@[simp] theorem test_zero (m : BitVec w) : test 0#w m = false := by
  simp [test]

theorem test_ite (c : Prop) [Decidable c] (x y m : BitVec w) :
    test (if c then x else y) m = if c then test x m else test y m := by
  split <;> rfl

end EthDriver.Bits

import Mathlib.Algebra.Order.Ring.Int

namespace EthDriver.Clocks

variable {w v : ℕ}

/-- What a counter of `w` bits shows at time `t`. -/
def reading (w : ℕ) (t : ℤ) : BitVec w := BitVec.ofInt w t

theorem reading_add (t : ℤ) (d : BitVec v) :
    reading w t + d.setWidth w = reading w (t + d.toNat) := by
  rw [reading, reading, BitVec.ofInt_add, BitVec.ofInt_natCast, BitVec.ofNat_toNat]

theorem reading_sub (t u : ℤ) : reading w t - reading w u = reading w (t - u) := by
  have h : reading w t = reading w (t - u) + reading w u := by
    rw [reading, reading, reading, ← BitVec.ofInt_add, sub_add_cancel]
  rw [h, BitVec.add_sub_cancel]

theorem toNat_reading (t : ℕ) : (reading w t).toNat = t % 2 ^ w := by
  rw [reading, BitVec.ofInt_natCast, BitVec.toNat_ofNat]

/-- The wrapping difference of two readings is the elapsed time, up to the period. -/
theorem toNat_reading_sub {t u : ℤ} (h : u ≤ t) :
    (reading w t - reading w u).toNat = (t - u).toNat % 2 ^ w := by
  rw [reading_sub, ← toNat_reading, Int.toNat_of_nonneg (Int.sub_nonneg.mpr h)]

end EthDriver.Clocks

import Mathlib.Algebra.Group.Nat.Defs
import Mathlib.Data.List.Basic

namespace EthDriver.Bytes

/-- A memory of bytes, addressed from the start of the array it stands for. -/
abbrev Memory := ℕ → UInt8

def read (m : Memory) (addr len : ℕ) : List UInt8 :=
  (List.range len).map (fun i => m (addr + i))

/-- `memcpy` of a whole byte string. -/
def write (m : Memory) (addr : ℕ) (data : List UInt8) : Memory :=
  fun i => if addr ≤ i then (data[i - addr]?).getD (m i) else m i

@[simp] theorem read_length (m : Memory) (addr len : ℕ) : (read m addr len).length = len := by
  simp [read]

theorem read_congr {m m' : Memory} {addr len : ℕ} (h : ∀ i < len, m (addr + i) = m' (addr + i)) :
    read m addr len = read m' addr len :=
  List.map_congr_left fun i hi => h i (List.mem_range.mp hi)

theorem write_apart (m : Memory) {addr i : ℕ} (data : List UInt8)
    (h : i < addr ∨ addr + data.length ≤ i) : write m addr data i = m i := by
  simp only [write]
  split
  · rw [List.getElem?_eq_none (by omega), Option.getD_none]
  · rfl

theorem write_inside (m : Memory) (addr : ℕ) (data : List UInt8) (i : ℕ) (h : i < data.length) :
    write m addr data (addr + i) = data[i] := by
  rw [write, if_pos (Nat.le_add_right _ _), Nat.add_sub_cancel_left, List.getElem?_eq_getElem h,
    Option.getD_some]

theorem read_write_apart (m : Memory) {addr base len : ℕ} (data : List UInt8)
    (h : base + len ≤ addr ∨ addr + data.length ≤ base) :
    read (write m addr data) base len = read m base len :=
  read_congr fun i hi => write_apart m data (by omega)

theorem read_add (m : Memory) (addr a b : ℕ) :
    read m addr (a + b) = read m addr a ++ read m (addr + a) b := by
  simp only [read, List.range_add, List.map_append, List.map_map, Function.comp_def, Nat.add_assoc]

theorem read_write (m : Memory) (addr : ℕ) (data : List UInt8) :
    read (write m addr data) addr data.length = data := by
  apply List.ext_getElem (by simp)
  intro i hi hd
  simp only [read, List.getElem_map, List.getElem_range]
  exact write_inside m addr data i hd

/-- Writing right behind what was read appends to it. -/
theorem read_write_append (m : Memory) (addr len : ℕ) (data : List UInt8) :
    read (write m (addr + len) data) addr (len + data.length) = read m addr len ++ data := by
  rw [read_add, read_write, read_write_apart m data (.inl (Nat.le_refl _))]

@[simp] theorem write_nil (m : Memory) (addr : ℕ) : write m addr [] = m := by
  funext i
  simp [write]

/-- Two copies in a row are one copy of both. -/
theorem write_write_append (m : Memory) (addr : ℕ) (d e : List UInt8) :
    write (write m addr d) (addr + d.length) e = write m addr (d ++ e) := by
  funext i
  obtain hlt | hge := Nat.lt_or_ge i (addr + d.length)
  · rw [write_apart _ e (.inl hlt)]
    simp only [write]
    split
    · rw [List.getElem?_append_left (by omega)]
    · rfl
  · rw [write, if_pos hge, write_apart m d (.inr hge), write, if_pos (by omega),
      List.getElem?_append_right (by omega), Nat.sub_add_eq]

/-- The bytes of a number, the least significant first. -/
def le (n : ℕ) : Memory := fun i => UInt8.ofNat (n / 256 ^ i)

/-- The number that a byte string stands for, the least significant byte first. -/
def ofLe : List UInt8 → ℕ
  | [] => 0
  | b :: bs => b.toNat + 256 * ofLe bs

theorem read_le_succ (n k : ℕ) :
    read (le n) 0 (k + 1) = UInt8.ofNat n :: read (le (n / 256)) 0 k := by
  simp only [read, List.range_succ_eq_map, List.map_cons, List.map_map, Nat.zero_add, le,
    Function.comp_def, Nat.pow_zero, Nat.div_one, Nat.div_div_eq_div_mul, Nat.pow_succ,
    Nat.mul_comm]

/-- A number is recovered from as many of its bytes as it needs. -/
theorem ofLe_read_le (n k : ℕ) : ofLe (read (le n) 0 k) = n % 256 ^ k := by
  induction k generalizing n with
  | zero => simp [read, ofLe, Nat.mod_one]
  | succ k ih =>
    have hbyte : (UInt8.ofNat n).toNat = n % 256 := UInt8.toNat_ofNat'
    rw [read_le_succ, ofLe, ih, hbyte, Nat.pow_succ, Nat.mul_comm (256 ^ k), Nat.mod_mul]

theorem ofLe_lt (l : List UInt8) : ofLe l < 256 ^ l.length := by
  induction l with
  | nil => exact Nat.one_pos
  | cons b l ih =>
    have hb := b.toNat_lt
    rw [ofLe, List.length_cons, Nat.pow_succ]
    omega

/-- A byte string is recovered from the number it stands for. -/
theorem read_le_ofLe (l : List UInt8) : read (le (ofLe l)) 0 l.length = l := by
  induction l with
  | nil => rfl
  | cons b l ih =>
    have hb := b.toNat_lt
    have hrest : (b.toNat + 256 * ofLe l) / 256 = ofLe l := by omega
    have hbyte : UInt8.ofNat (b.toNat + 256 * ofLe l) = b := by
      apply UInt8.toNat_inj.mp
      rw [UInt8.toNat_ofNat']
      omega
    rw [List.length_cons, read_le_succ, ofLe, hrest, ih, hbyte]

end EthDriver.Bytes

import Mathlib.Data.Nat.ModEq
import Mathlib.Data.Fin.Basic

namespace EthDriver.Cyclic

variable {n : ℕ} [NeZero n]

/-- The cell of a ring of `n` cells that position `k` of the unrolled ring
falls on. -/
def slot (n : ℕ) [NeZero n] (k : ℕ) : Fin n := Fin.ofNat n k

@[simp] theorem slot_val (k : ℕ) : (slot n k : ℕ) = k % n := rfl

theorem slot_eq_iff {j k : ℕ} : slot n j = slot n k ↔ j % n = k % n := Fin.ext_iff

@[simp] theorem slot_fin (i : Fin n) : slot n i = i := Fin.ext (Nat.mod_eq_of_lt i.isLt)

theorem slot_add_val (k j : ℕ) : slot n (slot n k + j) = slot n (k + j) :=
  slot_eq_iff.mpr (Nat.mod_add_mod k n j)

theorem slot_add_size (k : ℕ) : slot n (k + n) = slot n k :=
  slot_eq_iff.mpr (Nat.add_mod_right k n)

theorem slot_inj (lo : ℕ) {j k : ℕ} (hj : lo ≤ j) (hjn : j < lo + n) (hk : lo ≤ k)
    (hkn : k < lo + n)
    (h : slot n j = slot n k) : j = k := by
  have hmod : j ≡ k [MOD n] := slot_eq_iff.mp h
  exact hmod.eq_of_abs_lt (by rw [abs_lt]; omega)

theorem slot_sub (p : Fin n) {j : ℕ} (hj : j < n) : (slot n (p + j) - p).val = j := by
  have hp := p.isLt
  rw [Fin.sub_def]
  simp only [slot_val]
  rw [Nat.add_mod_mod, show n - p.val + (p.val + j) = j + n by omega, Nat.add_mod_right,
    Nat.mod_eq_of_lt hj]

theorem exists_slot (lo : ℕ) (i : Fin n) : ∃ j < n, slot n (lo + j) = i := by
  have hn : 0 < n := Nat.pos_of_neZero n
  have hlt := Nat.mod_lt lo hn
  refine ⟨(i + (n - lo % n)) % n, Nat.mod_lt _ hn, Fin.ext ?_⟩
  rw [slot_val, Nat.add_mod_mod, ← Nat.mod_add_mod,
    show lo % n + (i + (n - lo % n)) = i + n by omega, Nat.add_mod_right, Nat.mod_eq_of_lt i.isLt]

/-- In the unrolled ring the cells with `P` are exactly the positions from `lo`
up to `hi`. The counters never wrap: they tell an empty ring from a full one. -/
structure Window (P : Fin n → Prop) (lo hi : ℕ) : Prop where
  le : lo ≤ hi
  bound : hi ≤ lo + n
  inside : ∀ k, lo ≤ k → k < hi → P (slot n k)
  outside : ∀ k, hi ≤ k → k < lo + n → ¬ P (slot n k)

namespace Window

variable {P Q : Fin n → Prop} {lo hi : ℕ}

theorem congr (h : Window P lo hi) (hq : ∀ i, Q i ↔ P i) : Window Q lo hi :=
  ⟨h.le, h.bound, fun k hl hh => (hq _).mpr (h.inside k hl hh),
    fun k hl hh hp => h.outside k hl hh ((hq _).mp hp)⟩

theorem lt_of_not_hi (h : Window P lo hi) (hp : ¬ P (slot n hi)) : hi < lo + n := by
  obtain hlt | hge := Nat.lt_or_ge hi (lo + n)
  · exact hlt
  · have he : hi = lo + n := Nat.le_antisymm h.bound hge
    have hn : 0 < n := Nat.pos_of_neZero n
    rw [he, slot_add_size] at hp
    exact absurd (h.inside lo (Nat.le_refl _) (by omega)) hp

theorem not_hi (h : Window P lo hi) (hlt : hi < lo + n) : ¬ P (slot n hi) :=
  h.outside hi (Nat.le_refl _) hlt

theorem lt_of_lo (h : Window P lo hi) (hp : P (slot n lo)) : lo < hi := by
  obtain hlt | hge := Nat.lt_or_ge lo hi
  · exact hlt
  · exact absurd hp (h.outside lo hge (Nat.lt_add_of_pos_right (Nat.pos_of_neZero n)))

theorem push (h : Window P lo hi) (hlt : hi < lo + n)
    (hq : ∀ i, Q i ↔ P i ∨ i = slot n hi) : Window Q lo (hi + 1) where
  le := by have := h.le; omega
  bound := by omega
  inside k hl hh := by
    obtain hk | hk := Nat.lt_or_ge k hi
    · exact (hq _).mpr (.inl (h.inside k hl hk))
    · exact (hq _).mpr (.inr (by rw [show k = hi by omega]))
  outside k hl hh hp := by
    obtain hp | he := (hq _).mp hp
    · exact h.outside k (by omega) hh hp
    · have hk := slot_inj lo (by have := h.le; omega) hh h.le hlt he
      omega

theorem pop (h : Window P lo hi) (hlt : lo < hi)
    (hq : ∀ i, Q i ↔ P i ∧ i ≠ slot n lo) : Window Q (lo + 1) hi where
  le := hlt
  bound := by have := h.bound; omega
  inside k hl hh := by
    refine (hq _).mpr ⟨h.inside k (by omega) hh, fun he => ?_⟩
    have hb := h.bound
    have hk := slot_inj lo (by omega) (by omega) (Nat.le_refl _) (by omega) he
    omega
  outside k hl hh hp := by
    obtain ⟨hp, hne⟩ := (hq _).mp hp
    obtain hk | hk := Nat.lt_or_ge k (lo + n)
    · exact h.outside k hl hk hp
    · exact hne (by rw [show k = lo + n by omega, slot_add_size])

end Window

/-- The cells with `P` are exactly those met on the way round the ring from `p`
up to `q`, none or all of them when the two coincide. -/
def Segment (P : Fin n → Prop) (p q : Fin n) : Prop :=
  ∃ c ≤ n, q = slot n (p + c) ∧ ∀ j < n, (P (slot n (p + j)) ↔ j < c)

theorem Window.segment {P : Fin n → Prop} {lo hi : ℕ} (h : Window P lo hi) :
    Segment P (slot n lo) (slot n hi) := by
  have hle := h.le
  have hb := h.bound
  refine ⟨hi - lo, by omega, ?_, fun j hj => ?_⟩
  · rw [slot_add_val, show lo + (hi - lo) = hi by omega]
  · rw [slot_add_val]
    constructor
    · intro hp
      by_contra hc
      exact h.outside (lo + j) (by omega) (by omega) hp
    · intro hc
      exact h.inside (lo + j) (by omega) (by omega)

theorem Segment.start {P : Fin n → Prop} {p q i : Fin n} (h : Segment P p q) (hi : P i) : P p := by
  obtain ⟨c, -, -, hs⟩ := h
  obtain ⟨j, hj, rfl⟩ := exists_slot p i
  have hc : 0 < c := Nat.lt_of_le_of_lt (Nat.zero_le j) ((hs j hj).mp hi)
  have h0 := (hs 0 (Nat.pos_of_neZero n)).mpr hc
  rwa [Nat.add_zero, slot_fin] at h0

/-- Only the cell at the end has to be looked at to learn that the ring is full. -/
theorem Segment.end_iff {P : Fin n → Prop} {p q : Fin n} (h : Segment P p q) :
    P q ↔ ∀ i, P i := by
  obtain ⟨c, hc, rfl, hs⟩ := h
  refine ⟨fun hq i => ?_, fun hall => hall _⟩
  have hcn : c = n := by
    by_contra hne
    have hlt : c < n := by omega
    exact absurd ((hs c hlt).mp hq) (Nat.lt_irrefl c)
  obtain ⟨j, hj, rfl⟩ := exists_slot p i
  exact (hs j hj).mpr (by omega)

theorem Segment.end_eq {P : Fin n → Prop} {p q : Fin n} (h : Segment P p q) (hq : P q) : p = q := by
  have hall := h.end_iff.mp hq
  obtain ⟨c, hc, rfl, hs⟩ := h
  have hcn : c = n := by
    by_contra hne
    have hlt : c < n := by omega
    exact absurd ((hs c hlt).mp (hall _)) (Nat.lt_irrefl c)
  rw [hcn, slot_add_size, slot_fin]

end EthDriver.Cyclic

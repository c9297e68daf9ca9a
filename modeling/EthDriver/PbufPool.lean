import EthDriver.NetifInput

namespace EthDriver.PbufPool

open Pbufs NetifInput

def pbufPoolSize : ℕ := 10
def pbufPoolBufsize : ℕ := 512

/-- The loop of `pbuf_alloc` for `PBUF_POOL`: the lengths of the buffers linked when it ends,
and whether it ends with the whole length. -/
def poolLoop : ℕ → ℕ → List ℕ → List ℕ × Bool
  | 0, _, chain => (chain, false)
  | free + 1, remLen, chain =>
    let qlen := min remLen pbufPoolBufsize
    if 0 < remLen - qlen then poolLoop free (remLen - qlen) (chain ++ [qlen])
    else (chain ++ [qlen], true)

/-- The buffers `pbuf_alloc` takes from a pool with `free` of them, also those it gives back
when the pool runs out. -/
def poolTaken (free : ℕ) (len : BitVec 16) : ℕ := (poolLoop free len.toNat []).1.length

/-- `pbuf_alloc(PBUF_RAW, len, PBUF_POOL)`: the segment lengths of the chain, and the
buffers that are free afterwards. -/
def pbufAlloc (free : ℕ) (len : BitVec 16) : Option (List ℕ) × ℕ :=
  match poolLoop free len.toNat [] with
  | (chain, true) => (some chain, free - chain.length)
  | (_, false) => (none, free)

/-- The loop body runs once even for an empty frame. -/
def needed (remLen : ℕ) : ℕ := max 1 ((remLen + pbufPoolBufsize - 1) / pbufPoolBufsize)

theorem needed_le_iff {remLen k : ℕ} :
    needed remLen ≤ k ↔ 1 ≤ k ∧ remLen ≤ k * pbufPoolBufsize := by
  simp only [needed, pbufPoolBufsize]
  omega

theorem needed_of_le {remLen : ℕ} (h : remLen ≤ pbufPoolBufsize) : needed remLen = 1 := by
  have hle : needed remLen ≤ 1 := needed_le_iff.mpr ⟨Nat.le_refl 1, by omega⟩
  have hge : 1 ≤ needed remLen := Nat.le_max_left _ _
  omega

theorem needed_of_gt {remLen : ℕ} (h : pbufPoolBufsize < remLen) :
    needed remLen = needed (remLen - pbufPoolBufsize) + 1 := by
  simp only [needed, pbufPoolBufsize] at h ⊢
  omega

/-- The loop takes what it needs or all there is, and it completes the chain exactly if
there is enough. -/
theorem poolLoop_spec (free remLen : ℕ) (chain : List ℕ) :
    (poolLoop free remLen chain).1.length = chain.length + min free (needed remLen) ∧
    (poolLoop free remLen chain).2 = decide (needed remLen ≤ free) ∧
    ((poolLoop free remLen chain).2 = true →
      (poolLoop free remLen chain).1.sum = chain.sum + remLen) := by
  induction free generalizing remLen chain with
  | zero =>
    have hpos : 1 ≤ needed remLen := Nat.le_max_left _ _
    refine ⟨by simp [poolLoop], ?_, fun h => absurd h Bool.false_ne_true⟩
    simp only [poolLoop]
    exact (decide_eq_false (by omega)).symm
  | succ free ih =>
    simp only [poolLoop]
    obtain hgt | hle := Nat.lt_or_ge pbufPoolBufsize remLen
    · obtain ⟨hlen, hok, hsum⟩ := ih (remLen - pbufPoolBufsize) (chain ++ [pbufPoolBufsize])
      rw [Nat.min_eq_right (Nat.le_of_lt hgt), if_pos (by omega), needed_of_gt hgt]
      refine ⟨?_, ?_, ?_⟩
      · rw [hlen, List.length_append, List.length_singleton]
        omega
      · rw [hok, decide_eq_decide]
        omega
      · intro h
        rw [hsum h, List.sum_append, List.sum_singleton]
        omega
    · rw [Nat.min_eq_left hle, if_neg (by omega), needed_of_le hle]
      simp

theorem poolTaken_eq (free : ℕ) (len : BitVec 16) :
    poolTaken free len = min free (needed len.toNat) := by
  rw [poolTaken, (poolLoop_spec free len.toNat []).1, List.length_nil, Nat.zero_add]

theorem pbufAlloc_isSome (free : ℕ) (len : BitVec 16) :
    (pbufAlloc free len).1.isSome = decide (needed len.toNat ≤ free) := by
  rw [← (poolLoop_spec free len.toNat []).2.1, pbufAlloc]
  split
  · rename_i h
    rw [h, Option.isSome_some]
  · rename_i h
    rw [h, Option.isSome_none]

end EthDriver.PbufPool

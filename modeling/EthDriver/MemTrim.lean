import EthDriver.MemAlloc

namespace EthDriver.MemTrim

open Bytes MemAlloc MemHeap MemOps MemTiles Tiling

variable {h : Heap} {xs ys : List Tile} {n need : ℕ}

theorem firstFree_split (a b : ℕ) :
    firstFree (xs ++ ⟨a, true⟩ :: ⟨b, false⟩ :: ys) =
      min (firstFree (xs ++ ⟨a + b, true⟩ :: ys)) (total xs + a) := by
  by_cases hall : ∀ t ∈ xs, t.used
  · rw [firstFree_append_used hall, firstFree_append_used hall]
    simp [firstFree_cons]
    omega
  · have hle := firstFree_le xs
    rw [firstFree_append_free hall, firstFree_append_free hall]
    omega

theorem firstFree_move (k k' : ℕ) (hpos : 0 < n) :
    firstFree (xs ++ ⟨need, true⟩ :: ⟨k', false⟩ :: ys) =
      if firstFree (xs ++ ⟨n, true⟩ :: ⟨k, false⟩ :: ys) = total xs + n then total xs + need
      else firstFree (xs ++ ⟨n, true⟩ :: ⟨k, false⟩ :: ys) := by
  by_cases hall : ∀ t ∈ xs, t.used
  · simp [firstFree_append_used hall, firstFree_cons]
  · have hle := firstFree_le xs
    rw [firstFree_append_free hall, firstFree_append_free hall, if_neg (by omega)]

/-- The tail of `mem_trim`, which moves the header of the free rest to `ptr2`. -/
def trimmed (h : Heap) (ptr ptr2 next lfree : ℕ) : Heap :=
  ⟨setNextPrev (createMem2 h.ram ptr ptr2 next)
    (ptrToMem (createMem2 h.ram ptr ptr2 next) ptr2).next ptr2, lfree⟩

/-- The numbers `mem_trim` computes from the header of a used block. -/
theorem trim_sizes (hl : Laid h.ram (xs ++ ⟨n, true⟩ :: ys)) :
    (((total xs + sizeofStructMem : ℕ) : ℤ) - sizeofStructMem).toNat = total xs ∧
      (ptrToMem h.ram (total xs)).next = total xs + n ∧
      ((total xs + n + 65536 - total xs) % 65536 + 65536 - sizeofStructMem) % 65536 =
        n - sizeofStructMem := by
  obtain ⟨htot, hlen, -, -⟩ : total xs + n + total ys = memSizeAligned ∧ 20 ≤ n ∧
    n % 4 = 0 ∧ total xs % 4 = 0 := hl.bound
  have hheap : memSizeAligned = 6144 := rfl
  have height : sizeofStructMem = 8 := rfl
  refine ⟨by simp, by rw [hl.header], ?_⟩
  have hmod : (total xs + n + 65536 - total xs) % 65536 = n := by omega
  rw [hmod]
  omega

/-- What `mem_trim` comes down to where the block is one of the heap and large enough. -/
theorem memTrim_eq {newSize : UInt16} {s : ℕ} (hl : Laid h.ram (xs ++ ⟨n, true⟩ :: ys))
    (hs : alignedSize newSize = some s) (hfit : s + sizeofStructMem ≤ n) :
    memTrim h (total xs + sizeofStructMem : ℕ) newSize =
      if s = n - sizeofStructMem then .ok (some (total xs + sizeofStructMem : ℕ), h) else
      if (ptrToMem h.ram (total xs + n)).used = 0 then do
        lwipAssert "invalid next ptr" (total xs + n ≠ memSizeAligned)
        .ok (some (total xs + sizeofStructMem : ℕ), trimmed h (total xs)
          (total xs + sizeofStructMem + s) (ptrToMem h.ram (total xs + n)).next
          (if h.lfree = total xs + n then total xs + sizeofStructMem + s else h.lfree))
      else if s + sizeofStructMem + minSizeAligned ≤ n - sizeofStructMem then do
        lwipAssert "invalid next ptr" (total xs + n ≠ memSizeAligned)
        .ok (some (total xs + sizeofStructMem : ℕ), trimmed h (total xs)
          (total xs + sizeofStructMem + s) (total xs + n)
          (if total xs + sizeofStructMem + s < h.lfree then total xs + sizeofStructMem + s
            else h.lfree))
      else .ok (some (total xs + sizeofStructMem : ℕ), h) := by
  obtain ⟨htot, hlen, -, -⟩ : total xs + n + total ys = memSizeAligned ∧ 20 ≤ n ∧
    n % 4 = 0 ∧ total xs % 4 = 0 := hl.bound
  have hheap : memSizeAligned = 6144 := rfl
  have height : sizeofStructMem = 8 := rfl
  obtain ⟨hptr, hnext, hdata⟩ := trim_sizes hl
  have hptr2 : (total xs + sizeofStructMem + s) % 65536 = total xs + sizeofStructMem + s := by omega
  rw [memTrim, hs]
  dsimp only
  rw [hptr, hnext, hdata, hptr2]
  refine (assert_pass _ _ ?_).trans ?_
  · rw [Bool.and_eq_true]
    exact ⟨decide_eq_true (by omega), decide_eq_true (by omega)⟩
  refine (assert_pass _ _ ?_).trans ?_
  · apply decide_eq_true
    omega
  rfl

/-- A block does not grow: the comment of `mem_trim` promises NULL for a size above the
old one, but its assertion comes first. -/
theorem memTrim_grows {newSize : UInt16} {s : ℕ} (hl : Laid h.ram (xs ++ ⟨n, true⟩ :: ys))
    (hs : alignedSize newSize = some s) (hbig : n < s + sizeofStructMem) :
    memTrim h (total xs + sizeofStructMem : ℕ) newSize =
      .error (.assertion "mem_trim can only shrink memory") := by
  obtain ⟨htot, hlen, -, -⟩ : total xs + n + total ys = memSizeAligned ∧ 20 ≤ n ∧
    n % 4 = 0 ∧ total xs % 4 = 0 := hl.bound
  have height : sizeofStructMem = 8 := rfl
  obtain ⟨hptr, hnext, hdata⟩ := trim_sizes hl
  rw [memTrim, hs]
  dsimp only
  rw [hptr, hnext, hdata]
  refine (assert_pass _ _ ?_).trans ?_
  · rw [Bool.and_eq_true]
    exact ⟨decide_eq_true (by omega), decide_eq_true (by omega)⟩
  · exact assert_fail _ _ (decide_eq_false (by omega))

/-- The block and what is free behind it are divided anew, and no byte of the
block's own first part changes. -/
theorem trimmed_laid (mid : List Tile) (lfree : ℕ)
    (hl : Laid h.ram (xs ++ ((⟨n, true⟩ :: mid) ++ ys))) (hneed : 20 ≤ need) (hmod : need % 4 = 0)
    (hrest : need + 20 ≤ n + total mid) :
    Laid (trimmed h (total xs) (total xs + need) (total xs + (n + total mid)) lfree).ram
        (xs ++ ⟨need, true⟩ :: ⟨n + total mid - need, false⟩ :: ys) ∧
      ∀ i, i < total xs ∨ total xs + 8 ≤ i ∧ i < total xs + need ∨
          total xs + (n + total mid) + 8 ≤ i →
        (trimmed h (total xs) (total xs + need) (total xs + (n + total mid)) lfree).ram i =
          h.ram i := by
  have hhead : ptrToMem h.ram (total xs) = ⟨total xs + n, lastOf 0 0 xs, 1⟩ := hl.header
  have htot := hl.total_eq
  simp only [total_append, total_cons] at htot
  have hheap : memSizeAligned = 6144 := rfl
  obtain ⟨hfirst, hmem2⟩ := @createMem2_headers h.ram (total xs) (total xs + need)
    (total xs + (n + total mid)) (by omega) (by omega) (by omega)
  rw [hhead] at hfirst
  have hout : ∀ i, i < total xs ∨ total xs + 8 ≤ i ∧ i < total xs + need ∨
      total xs + need + 8 ≤ i →
      createMem2 h.ram (total xs) (total xs + need) (total xs + (n + total mid)) i = h.ram i :=
    fun i hi => createMem2_apart h.ram (by omega) (by omega)
  unfold trimmed
  dsimp only
  rw [hmem2]
  constructor
  · apply hl.split (⟨n, true⟩ :: mid) _ hfirst hmem2 hneed hrest hmod
    intro i hi
    rw [total_cons] at hi
    exact hout i (by dsimp only at hi; omega)
  · intro i hi
    rw [setNextPrev_apart _ (by dsimp only; omega), hout i (by omega)]

/-- The user data of every block in the trimmed heap is what it was. -/
theorem trimmed_intact (mid : List Tile) {ram' : Memory} {k : ℕ} (hno : ∀ a, blocks a mid = [])
    (heq : ∀ i, i < total xs ∨ total xs + 8 ≤ i ∧ i < total xs + need ∨
      total xs + (n + total mid) + 8 ≤ i → ram' i = h.ram i) (hk : need + k = n + total mid) :
    Intact h.ram ram' (xs ++ ⟨need, true⟩ :: ⟨k, false⟩ :: ys) ∧
      blocks 0 (xs ++ ⟨need, true⟩ :: ⟨k, false⟩ :: ys) =
        blocks 0 xs ++ (total xs, need) :: blocks (total xs + n) (mid ++ ys) := by
  have hblocks : blocks 0 (xs ++ ⟨need, true⟩ :: ⟨k, false⟩ :: ys) =
      blocks 0 xs ++ (total xs, need) :: blocks (total xs + n) (mid ++ ys) := by
    simp only [blocks_append, blocks_cons_used, blocks_cons_free, hno, List.nil_append,
      Nat.zero_add]
    rw [Nat.add_assoc, hk, Nat.add_assoc]
  refine ⟨?_, hblocks⟩
  rintro ⟨p, l⟩ hb i hlo hhi
  rw [hblocks, blocks_append, hno, List.nil_append, List.mem_append, List.mem_cons] at hb
  simp only [sizeofStructMem] at hlo hhi
  apply heq
  obtain hx | hp | hy := hb
  · have := (blocks_inside hx).2
    omega
  · cases hp
    omega
  · have := (blocks_inside hy).1
    omega

/-- `mem_trim` of a used block. The block stays where it is and keeps its first bytes. -/
theorem memTrim_tiled {newSize : UInt16} {s : ℕ} (ht : Tiled h (xs ++ ⟨n, true⟩ :: ys))
    (hs : alignedSize newSize = some s) (hfit : s + sizeofStructMem ≤ n)
    (hgo : ys ≠ [] ∨ n < s + sizeofStructMem + spare) :
    ∃ h' ts' n', memTrim h (total xs + sizeofStructMem : ℕ) newSize =
        .ok (some (total xs + sizeofStructMem : ℕ), h') ∧ Tiled h' ts' ∧
      s + sizeofStructMem ≤ n' ∧ n' ≤ n ∧ Intact h.ram h'.ram ts' ∧
      blocks 0 ts' = blocks 0 xs ++ (total xs, n') :: blocks (total xs + n) ys := by
  obtain ⟨hl, hset, hlf⟩ := ht
  obtain ⟨htot, hlen, hnmod, -⟩ : total xs + n + total ys = memSizeAligned ∧ 20 ≤ n ∧
    n % 4 = 0 ∧ total xs % 4 = 0 := hl.bound
  obtain ⟨-, hsmin, -, hsmod, -⟩ := alignedSize_eq hs
  obtain ⟨hsx, hsy⟩ := settled_around_used.mp hset
  have height : sizeofStructMem = 8 := rfl
  have hspare : spare = 20 := rfl
  have hmin : minSizeAligned = 12 := rfl
  have hsame : ∃ h' ts' n', Except.ok (some ((total xs + sizeofStructMem : ℕ) : ℤ), h) =
        (.ok (some ((total xs + sizeofStructMem : ℕ) : ℤ), h') : Except Stuck _) ∧ Tiled h' ts' ∧
      s + sizeofStructMem ≤ n' ∧ n' ≤ n ∧ Intact h.ram h'.ram ts' ∧
      blocks 0 ts' = blocks 0 xs ++ (total xs, n') :: blocks (total xs + n) ys := by
    refine ⟨h, _, n, rfl, ⟨hl, hset, hlf⟩, hfit, Nat.le_refl n, Intact.refl _ _, ?_⟩
    simp only [blocks_append, blocks_cons_used, Nat.zero_add]
  rw [memTrim_eq hl hs hfit, Nat.add_assoc, Nat.add_comm sizeofStructMem s]
  split
  · exact hsame
  · next hne =>
    split
    · next hfree =>
      obtain ⟨k, zs, rfl⟩ := hl.next_used.mp hfree
      have hnext : (ptrToMem h.ram (total xs + n)).next = total xs + (n + total [⟨k, false⟩]) := by
        have hlink := (linked_append.mp hl.linked).2
        rw [Nat.zero_add] at hlink
        rw [hlink.2.1, ← Nat.add_assoc]
        rfl
      have hwk := (wide_cons.mp (wide_cons.mp (wide_append.mp hl.wide).2).2).1.1
      have hk : total [⟨k, false⟩] = k := rfl
      rw [total_cons] at htot
      dsimp only at htot hwk
      obtain ⟨hlaid, heq⟩ := trimmed_laid [⟨k, false⟩]
        (if h.lfree = total xs + n then total xs + (s + sizeofStructMem) else h.lfree) hl
        (show 20 ≤ s + sizeofStructMem by omega) (by omega) (by omega)
      obtain ⟨hint, hblocks⟩ := @trimmed_intact h xs zs n (s + sizeofStructMem) [⟨k, false⟩] _
        (n + total [⟨k, false⟩] - (s + sizeofStructMem)) (fun _ => rfl) heq (by omega)
      refine ⟨_, _, s + sizeofStructMem, ?_, ⟨hlaid, ?_, ?_⟩, Nat.le_refl _, hfit, hint, hblocks⟩
      · rw [hnext]
        refine assert_pass _ _ ?_
        apply decide_eq_true
        omega
      · rw [settled_cons] at hsy
        exact settled_around_used.mpr ⟨hsx, settled_cons.mpr hsy⟩
      · rw [firstFree_move k _ (show 0 < n by omega), ← hlf]
        rfl
    · next hused =>
      split
      · next hbig =>
        have hys : ys ≠ [] := by
          obtain hys | hlt := hgo
          · exact hys
          · omega
        have hend : total xs + n ≠ memSizeAligned := by
          obtain ⟨y, ys, rfl⟩ := List.exists_cons_of_ne_nil hys
          have hy := (wide_cons.mp (wide_cons.mp (wide_append.mp hl.wide).2).2).1.1
          rw [total_cons] at htot
          omega
        obtain ⟨hlaid, heq⟩ := trimmed_laid []
          (if total xs + (s + sizeofStructMem) < h.lfree then total xs + (s + sizeofStructMem)
            else h.lfree) hl
          (show 20 ≤ s + sizeofStructMem by omega) (by omega) (by rw [total_nil]; omega)
        obtain ⟨hint, hblocks⟩ := @trimmed_intact h xs ys n (s + sizeofStructMem) [] _
          (n + total [] - (s + sizeofStructMem)) (fun _ => rfl) heq (by rw [total_nil]; omega)
        refine ⟨_, _, s + sizeofStructMem, ?_, ⟨hlaid, ?_, ?_⟩, Nat.le_refl _, hfit, hint, hblocks⟩
        · refine assert_pass _ _ ?_
          exact decide_eq_true hend
        · refine settled_around_used.mpr ⟨hsx, settled_cons.mpr ⟨?_, hsy⟩⟩
          rintro ⟨k, u⟩ hy
          cases u with
          | true => exact .inr rfl
          | false =>
            obtain ⟨zs, rfl⟩ := List.head?_eq_some_iff.mp hy
            exact absurd (hl.next_used.mpr ⟨k, zs, rfl⟩) hused
        · have hsum : s + sizeofStructMem + (n + total [] - (s + sizeofStructMem)) = n := by
            rw [total_nil]
            omega
          rw [firstFree_split, hsum, ← hlf]
          simp only [trimmed]
          split
          · omega
          · omega
      · exact hsame

/-- The block at the end of the heap cannot be trimmed by a whole block: the header
behind it is the end of the heap, which counts as used, and the assertion on it fails. -/
theorem memTrim_last {newSize : UInt16} {s : ℕ} (hl : Laid h.ram (xs ++ [⟨n, true⟩]))
    (hs : alignedSize newSize = some s) (hbig : s + sizeofStructMem + spare ≤ n) :
    memTrim h (total xs + sizeofStructMem : ℕ) newSize =
      .error (.assertion "invalid next ptr") := by
  have height : sizeofStructMem = 8 := rfl
  have hspare : spare = 20 := rfl
  have hmin : minSizeAligned = 12 := rfl
  obtain ⟨htot, -, -, -⟩ : total xs + n + 0 = memSizeAligned ∧ 20 ≤ n ∧
    n % 4 = 0 ∧ total xs % 4 = 0 := hl.bound
  have hused : ¬(ptrToMem h.ram (total xs + n)).used = 0 := by
    intro hfree
    obtain ⟨_, _, hnil⟩ := hl.next_used.mp hfree
    cases hnil
  rw [memTrim_eq hl hs (by omega), if_neg (by omega), if_neg hused, if_pos (by omega)]
  exact assert_fail _ _ (decide_eq_false (not_not.mpr htot))

end EthDriver.MemTrim

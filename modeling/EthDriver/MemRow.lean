import EthDriver.MemClient

namespace EthDriver.MemRow

open Buffers Bytes MemAlloc MemClient MemHeap MemOps MemTiles Runs Tiling

section Laid

variable {ram : Memory} {xs ys : List Tile}

/-- The loop of `mem_sanity` behind the tile `t`. -/
theorem memSanityFrom_laid {t : Tile} (hl : Laid ram (xs ++ t :: ys))
    (hs : Settled (xs ++ t :: ys)) {fuel : ℕ} (hfuel : ys.length < fuel) :
    memSanityFrom ram fuel (total xs + t.len) (flag t.used) = .ok () := by
  induction ys generalizing xs t fuel with
  | nil =>
    obtain ⟨fuel, rfl⟩ := Nat.exists_eq_succ_of_ne_zero (Nat.ne_of_gt hfuel)
    have htot := hl.bound.1
    rw [total_nil, Nat.add_zero] at htot
    rw [memSanityFrom, htot, hl.ramEnd]
    dsimp only
    rw [if_neg (by omega)]
    refine (assert_pass _ _ (decide_eq_true rfl)).trans ?_
    refine (assert_pass _ _ (decide_eq_true rfl)).trans ?_
    refine (assert_pass _ _ (decide_eq_true rfl)).trans ?_
    rw [decide_eq_true rfl]
    rfl
  | cons s ys ih =>
    obtain ⟨fuel, rfl⟩ := Nat.exists_eq_succ_of_ne_zero (Nat.ne_of_gt (Nat.zero_lt_of_lt hfuel))
    have hprev := hl.bound
    have happ : xs ++ t :: s :: ys = (xs ++ [t]) ++ s :: ys := by simp
    rw [happ] at hl hs
    have hrest := ih hl hs (Nat.lt_of_succ_lt_succ hfuel)
    have hhead := hl.header
    have hvalid := memLinkValid_laid hl
    obtain ⟨htot, hlen, hmod, hat⟩ := hl.bound
    rw [lastOf_concat, Nat.zero_add] at hhead
    have hsum : total (xs ++ [t]) = total xs + t.len := by simp
    rw [hsum] at hrest hhead hvalid htot hat
    rw [memSanityFrom, hhead]
    dsimp only
    rw [if_pos (by omega)]
    refine (assert_pass _ _ (decide_eq_true hat)).trans ?_
    refine (assert_pass _ _ (decide_eq_true (by omega))).trans ?_
    refine (assert_pass _ _ (decide_eq_true (by omega))).trans ?_
    have hend : (lwipAssert "heap element link valid" (memLinkValid ram (total xs + t.len)) >>=
        fun _ => memSanityFrom ram fuel (total xs + t.len + s.len) (flag s.used)) = .ok () :=
      (assert_pass _ _ hvalid).trans hrest
    have hbeside := (settled_append.mp hs).2.2 t (by simp) s rfl
    split
    · next hfree =>
      rw [flag_eq_zero] at hfree
      rw [hfree] at hbeside
      have hused : s.used = true := hbeside.resolve_left (by decide)
      refine (assert_pass _ _ (decide_eq_true ?_)).trans hend
      rw [hused]
      rfl
    · refine (assert_pass _ _ ?_).trans hend
      cases s.used
      · rfl
      · rfl

theorem memSanity_tiled {h : Heap} (ht : Tiled h ys) : memSanity h = .ok () := by
  obtain ⟨hl, hset, -⟩ := ht
  cases ys with
  | nil =>
    have htot := hl.total_eq
    cases htot
  | cons t ys =>
    have hfuel := Laid.fuel hl
    have hl' : Laid h.ram ([] ++ t :: ys) := hl
    obtain ⟨htot, -, -, -⟩ := hl'.bound
    have hrest := memSanityFrom_laid hl' hset (Nat.lt_of_succ_le hfuel)
    have hhead := hl'.header
    rw [total_nil, Nat.zero_add] at hhead htot hrest
    rw [memSanity, hhead]
    dsimp only
    refine (assert_pass _ _ ?_).trans ?_
    · cases t.used
      · rfl
      · rfl
    refine (assert_pass _ _ (decide_eq_true rfl)).trans ?_
    exact (assert_pass _ _ (decide_eq_true (by omega))).trans hrest

end Laid

variable {ram : Memory} {as : List Act} {w : World}

/-- `mem_sanity`, wherever it is called between two calls, finds nothing. -/
theorem sanity_holds (h : run step (start ram) as = .ok w) : memSanity w.heap = .ok () := by
  obtain ⟨ts, ht, -⟩ := inv_run h
  exact memSanity_tiled ht

theorem sanity_after_free : ∃ w,
    run step (start fun _ => 0)
        [.malloc 100, .malloc 20, .malloc 30, .free 8, .trim 116 13] = .ok w ∧
      memSanity w.heap = .ok () := by
  have hrun := @sanity_holds (fun _ => 0)
    [.malloc 100, .malloc 20, .malloc 30, .free 8, .trim 116 13] _ rfl
  exact ⟨_, rfl, hrun⟩

/-- `mem_malloc` is a first fit over all blocks of the heap, although it starts at the
lowest free one and stops before the end: it fails only where no free block is large enough. -/
theorem malloc_is_first_fit (h : run step (start ram) as = .ok w) {sizeIn : UInt16} {size : ℕ}
    (hpos : sizeIn ≠ 0) (hsize : alignedSize sizeIn = some size) :
    ∃ h', memMalloc w.heap sizeIn =
        .ok ((place (size + sizeofStructMem) spare (row w.heap)).map (·.1 + sizeofStructMem), h') ∧
      row h' =
        ((place (size + sizeofStructMem) spare (row w.heap)).map (·.2)).getD (row w.heap) := by
  obtain ⟨ts, ht, -⟩ := inv_run h
  obtain ⟨r, hok, hres⟩ := memMalloc_tiled ht sizeIn
  rw [row_tiled ht, hok]
  cases hres with
  | block s xs n ys h' pos aligned eq room first tiled intact =>
    rw [hsize] at aligned
    cases aligned
    subst eq
    have hfits : Tile.fits (size + sizeofStructMem) ⟨n, false⟩ = true := decide_eq_true room
    refine ⟨h', ?_, ?_⟩
    · rw [place_append _ _ first, place, if_pos hfits]
      rfl
    · rw [row_tiled tiled, place_append _ _ first, place, if_pos hfits]
      rfl
  | null no =>
    have hnone := place_none spare (no size hpos hsize)
    refine ⟨w.heap, ?_, ?_⟩
    · rw [hnone]
      rfl
    · rw [hnone, row_tiled ht]
      rfl

/-- A request of 90 bytes gets the hole of 100 in front, which is too small to be split. -/
theorem hole_is_reused : ∃ w h',
    run step (start fun _ => 0) [.malloc 100, .malloc 20, .free 8] = .ok w ∧
      memMalloc w.heap 90 = .ok (some 8, h') ∧
      row h' = [⟨108, true⟩, ⟨28, true⟩, ⟨6008, false⟩] := by
  obtain ⟨h', hok, hrow⟩ := malloc_is_first_fit
    (show run step (start fun _ => 0) [.malloc 100, .malloc 20, .free 8] = .ok _ from rfl)
    (show (90 : UInt16) ≠ 0 by decide) (show alignedSize 90 = some 92 from rfl)
  exact ⟨_, h', rfl, hok, hrow⟩

/-- Once all buffers are given back, in whatever order, the heap is one free block, and
everything that fits into it can be allocated again. -/
theorem freed_heap_is_whole (h : run step (start ram) as = .ok w)
    (hnone : ∀ p, w.held p = none) :
    row w.heap = [⟨memSizeAligned, false⟩] ∧ w.heap.lfree = 0 ∧
      ∀ sizeIn : UInt16, sizeIn ≠ 0 → sizeIn.toNat + sizeofStructMem ≤ memSizeAligned →
        ∃ h', memMalloc w.heap sizeIn = .ok (some sizeofStructMem, h') := by
  have hfit := fun sizeIn size => @malloc_is_first_fit ram as w h sizeIn size
  obtain ⟨ts, ht, hh⟩ := inv_run h
  have hempty : blocks 0 ts = [] := by
    apply List.eq_nil_iff_forall_not_mem.mpr
    rintro ⟨p, n⟩ hb
    apply (hh.known (p + sizeofStructMem)).mpr _ (hnone _)
    exact ⟨n - sizeofStructMem, List.mem_map.mpr ⟨(p, n), hb, rfl⟩⟩
  have hne : ts ≠ [] := by
    rintro rfl
    cases ht.total_eq
  have hsingle := eq_single ht.settled hempty hne
  rw [ht.total_eq] at hsingle
  have hrow : row w.heap = [⟨memSizeAligned, false⟩] := by
    rw [row_tiled ht, hsingle]
  refine ⟨hrow, ?_, ?_⟩
  · rw [ht.lfree_eq, hsingle]
    rfl
  · intro sizeIn hpos hle
    have height : sizeofStructMem = 8 := rfl
    have hheap : memSizeAligned = 6144 := rfl
    cases hs : alignedSize sizeIn with
    | none =>
      have := alignedSize_none hs
      omega
    | some size =>
      obtain ⟨-, -, -, hmod, hup⟩ := alignedSize_eq hs
      obtain ⟨h', hok, -⟩ := hfit sizeIn size hpos hs
      refine ⟨h', ?_⟩
      have hroom : Tile.fits (size + sizeofStructMem) ⟨memSizeAligned, false⟩ = true :=
        decide_eq_true (by dsimp only; omega)
      rw [hok, hrow, place, if_pos hroom]
      rfl

theorem whole_after_free : ∃ w,
    run step (start fun _ => 0)
        [.malloc 100, .malloc 20, .malloc 30, .free 116, .free 144, .free 8] = .ok w ∧
      row w.heap = [⟨memSizeAligned, false⟩] := by
  refine ⟨_, rfl, (@freed_heap_is_whole (fun _ => 0)
    [.malloc 100, .malloc 20, .malloc 30, .free 116, .free 144, .free 8] _ rfl fun p => ?_).1⟩
  by_cases hfirst : p = 8
  · rw [hfirst]
    rfl
  by_cases hsecond : p = 116
  · rw [hsecond]
    rfl
  by_cases hthird : p = 144
  · rw [hthird]
    rfl
  refine (Function.update_of_ne hfirst _ _).trans ?_
  refine (Function.update_of_ne hthird _ _).trans ?_
  refine (Function.update_of_ne hsecond _ _).trans ?_
  refine (Function.update_of_ne hthird _ _).trans ?_
  refine (Function.update_of_ne hsecond _ _).trans ?_
  exact Function.update_of_ne hfirst _ _

end EthDriver.MemRow

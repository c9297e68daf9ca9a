import EthDriver.MemOps

namespace EthDriver.MemAlloc

open Bytes MemHeap MemOps MemTiles Tiling

/-- A block is as large as asked for, and no larger than rounding makes it. -/
theorem alignedSize_eq {sizeIn : UInt16} {size : ℕ} (h : alignedSize sizeIn = some size) :
    sizeIn.toNat ≤ size ∧ 12 ≤ size ∧ size ≤ memSizeAligned ∧ size % 4 = 0 ∧
      size ≤ max 12 (sizeIn.toNat + 3) := by
  have hlt := sizeIn.toNat_lt
  unfold alignedSize lwipMemAlignSize memAlignment minSizeAligned at h
  dsimp only at h
  split at h
  all_goals
    split at h
    · exact absurd h (by simp)
    · have heq := Option.some.inj h
      omega

theorem alignedSize_none {sizeIn : UInt16} (h : alignedSize sizeIn = none) :
    memSizeAligned < sizeIn.toNat := by
  have hlt := sizeIn.toNat_lt
  have hsize : memSizeAligned = 6144 := rfl
  unfold alignedSize lwipMemAlignSize memAlignment minSizeAligned at h
  dsimp only at h
  split at h
  all_goals
    split at h
    · omega
    · exact absurd h (by simp)

/-- The first tile with room for `need` bytes, if there is one. -/
inductive FirstFit (need : ℕ) (ts : List Tile) : Option ℕ → Prop
  | found (xs : List Tile) (n : ℕ) (ys : List Tile) (eq : ts = xs ++ ⟨n, false⟩ :: ys)
      (room : need ≤ n) (first : ∀ t ∈ xs, t.fits need = false) : FirstFit need ts (some (total xs))
  | none (no : ∀ t ∈ ts, t.fits need = false) : FirstFit need ts none

theorem not_fits_of_used {need : ℕ} {t : Tile} (h : t.used) : t.fits need = false := by
  rw [Tile.fits, h]
  rfl

theorem not_fits_of_short {need : ℕ} {t : Tile} (h : t.len < need) : t.fits need = false := by
  rw [Tile.fits, decide_eq_false (Nat.not_le.mpr h), Bool.and_false]

theorem FirstFit.append {need : ℕ} {ts : List Tile} {r : Option ℕ} (h : FirstFit need ts r)
    (us : List Tile) (hus : ∀ t ∈ us, t.fits need = false) :
    FirstFit need (us ++ ts) (r.map (total us + ·)) := by
  cases h with
  | found xs n ys eq room first =>
    have happ : us ++ ts = (us ++ xs) ++ ⟨n, false⟩ :: ys := by rw [eq, List.append_assoc]
    have hres := FirstFit.found (us ++ xs) n ys happ room (List.forall_mem_append.mpr ⟨hus, first⟩)
    rw [total_append] at hres
    exact hres
  | none no => exact .none (List.forall_mem_append.mpr ⟨hus, no⟩)

section Scan

variable {ram : Memory} {size : ℕ}

/-- The scan finds the first fit in what lies before it. That it stops `size` bytes
before the end of the heap loses nothing. -/
theorem scan_laid (hsize : 12 ≤ size) {xs ys : List Tile} (hl : Laid ram (xs ++ ys)) {fuel : ℕ}
    (hfuel : ys.length < fuel) :
    ∃ r, FirstFit (size + sizeofStructMem) ys r ∧
      scan ram size fuel (total xs) = .ok (r.map (total xs + ·)) := by
  induction ys generalizing xs fuel with
  | nil =>
    obtain ⟨fuel, rfl⟩ := Nat.exists_eq_succ_of_ne_zero (Nat.ne_of_gt hfuel)
    have htot := hl.total_eq
    rw [List.append_nil] at htot
    refine ⟨none, .none (by simp), ?_⟩
    rw [scan, if_neg (by omega)]
    rfl
  | cons t ys ih =>
    obtain ⟨fuel, rfl⟩ := Nat.exists_eq_succ_of_ne_zero (Nat.ne_of_gt (Nat.zero_lt_of_lt hfuel))
    obtain ⟨htot, hlen, -, -⟩ := hl.bound
    obtain ⟨n, u⟩ := t
    simp only at htot hlen
    rw [scan]
    by_cases hend : total xs < memSizeAligned - size
    · rw [if_pos hend, userDataSize_laid hl, hl.header]
      by_cases hfit : flag u = 0 ∧ size ≤ n - sizeofStructMem
      · rw [if_pos hfit]
        rw [flag_eq_zero] at hfit
        obtain ⟨rfl, hroom⟩ := hfit
        refine ⟨some 0, .found [] n ys rfl ?_ (by simp), rfl⟩
        simp only [sizeofStructMem] at hroom ⊢
        omega
      · rw [if_neg hfit]
        have hno : Tile.fits (size + sizeofStructMem) ⟨n, u⟩ = false := by
          cases u with
          | true => exact not_fits_of_used rfl
          | false =>
            apply not_fits_of_short
            simp only [sizeofStructMem] at hfit ⊢
            by_contra hge
            exact hfit ⟨rfl, by omega⟩
        have happ : xs ++ ⟨n, u⟩ :: ys = (xs ++ [⟨n, u⟩]) ++ ys := by simp
        rw [happ] at hl
        obtain ⟨r, hr, hscan⟩ := ih hl (Nat.lt_of_succ_lt_succ hfuel)
        refine ⟨r.map (n + ·), hr.append [⟨n, u⟩] (by simpa using hno), ?_⟩
        rw [total_append] at hscan
        rw [show total xs + n = total xs + total [⟨n, u⟩] from rfl, hscan, Option.map_map]
        congr 2
        funext k
        simp [Nat.add_assoc]
    · rw [if_neg hend]
      refine ⟨none, .none fun s hs => ?_, rfl⟩
      obtain ⟨as, bs, hsplit⟩ := List.append_of_mem hs
      have hsum : n + total ys = total (as ++ s :: bs) := by rw [← hsplit, total_cons]
      rw [total_append, total_cons] at hsum
      apply not_fits_of_short
      simp only [sizeofStructMem]
      omega

theorem nextFree_laid {xs ys : List Tile} (hl : Laid ram (xs ++ ys)) {fuel : ℕ}
    (hfuel : ys.length < fuel) :
    nextFree ram fuel (total xs) = .ok (total xs + firstFree ys) := by
  induction ys generalizing xs fuel with
  | nil =>
    obtain ⟨fuel, rfl⟩ := Nat.exists_eq_succ_of_ne_zero (Nat.ne_of_gt hfuel)
    have htot := hl.total_eq
    rw [List.append_nil] at htot
    rw [nextFree, if_neg fun hc => hc.2 htot]
    rfl
  | cons t ys ih =>
    obtain ⟨fuel, rfl⟩ := Nat.exists_eq_succ_of_ne_zero (Nat.ne_of_gt (Nat.zero_lt_of_lt hfuel))
    obtain ⟨htot, hlen, -, -⟩ := hl.bound
    rw [nextFree, hl.header, firstFree_cons]
    cases hu : t.used with
    | true =>
      rw [if_pos ⟨(by decide : flag true ≠ 0), by omega⟩, if_pos rfl]
      have happ : xs ++ t :: ys = (xs ++ [t]) ++ ys := by simp
      rw [happ] at hl
      have hnext := ih hl (Nat.lt_of_succ_lt_succ hfuel)
      rw [total_append, total_cons, total_nil, Nat.add_zero] at hnext
      rw [hnext, Nat.add_assoc]
    | false =>
      rw [if_neg fun hc => hc.1 rfl, if_neg (by decide)]
      rfl

end Scan

/-- What is left of a block, header included, where a block of `need` bytes is cut from it. -/
def spare : ℕ := sizeofStructMem + minSizeAligned

section Take

variable {ram : Memory} {xs ys : List Tile} {n size : ℕ}

theorem takeBlock_laid (hl : Laid ram (xs ++ ⟨n, false⟩ :: ys)) (hsize : 12 ≤ size)
    (hmod : size % 4 = 0) (hroom : size + sizeofStructMem ≤ n) :
    ∃ ram', takeBlock ram (total xs) size = .ok ram' ∧
      Laid ram' (xs ++ (carve (size + sizeofStructMem) spare ⟨n, false⟩ ++ ys)) ∧
      Intact ram ram' (xs ++ ⟨n, false⟩ :: ys) := by
  have hhead : ptrToMem ram (total xs) = ⟨total xs + n, lastOf 0 0 xs, 0⟩ := hl.header
  obtain ⟨htot, hlen, hnmod, -⟩ : total xs + n + total ys = memSizeAligned ∧ 20 ≤ n ∧
    n % 4 = 0 ∧ total xs % 4 = 0 := hl.bound
  have hheap : memSizeAligned = 6144 := rfl
  have height : sizeofStructMem = 8 := rfl
  have hspare : spare = 20 := rfl
  have hmin : minSizeAligned = 12 := rfl
  have hdata : userDataSize ram (total xs) = n - sizeofStructMem := userDataSize_laid hl
  unfold takeBlock carve
  rw [hdata, hhead]
  by_cases hbig : size + sizeofStructMem + minSizeAligned ≤ n - sizeofStructMem
  · have hptr2 : (total xs + sizeofStructMem + size) % 65536 =
        total xs + (size + sizeofStructMem) := by omega
    rw [if_pos hbig, if_pos (by simp only; omega), hptr2]
    obtain ⟨hfirst, hmem2⟩ := @createMem2_headers ram (total xs)
      (total xs + (size + sizeofStructMem)) (total xs + n) (by omega) (by omega) (by omega)
    rw [hhead] at hfirst
    dsimp only
    generalize hram : createMem2 ram (total xs) (total xs + (size + sizeofStructMem))
      (total xs + n) = ram₁ at *
    have hmem2' : ptrToMem (setUsed ram₁ (total xs) 1) (total xs + (size + sizeofStructMem)) =
        ⟨total xs + n, total xs, 0⟩ := by
      rw [ptrToMem_setUsed_apart _ (by omega), hmem2]
    have hout : ∀ i, i < total xs ∨ total xs + n ≤ i →
        setUsed ram₁ (total xs) 1 i = ram i := by
      intro i hi
      rw [setUsed_apart _ (by omega), ← hram, createMem2_apart ram (by omega) (by omega)]
    refine ⟨_, assert_pass _ _ ?_, ?_, ?_⟩
    · apply decide_eq_true
      omega
    · rw [hmem2']
      apply hl.split [⟨n, false⟩] hout _ hmem2' (by omega) _ (by omega)
      · rw [ptrToMem_setUsed, hfirst]
        rfl
      · simp only [total_cons, total_nil]
        omega
    · rw [hmem2']
      apply @intact_of_apart _ _ xs [⟨n, false⟩] ys (fun _ => rfl)
      intro i hi
      simp only [total_cons, total_nil] at hi
      exact (setNextPrev_apart _ (by dsimp only; omega)).trans (hout i (by omega))
  · rw [if_neg hbig, if_neg (by simp only; omega)]
    refine ⟨_, rfl, hl.mark true, ?_⟩
    apply @intact_of_apart _ _ xs [⟨n, false⟩] ys (fun _ => rfl)
    intro i hi
    exact setUsed_apart ram (by omega)

theorem settled_carve {need : ℕ} (h : Settled (xs ++ ⟨n, false⟩ :: ys)) :
    Settled (xs ++ (carve need spare ⟨n, false⟩ ++ ys)) := by
  obtain ⟨hx, hy, -⟩ := settled_append.mp h
  rw [settled_cons] at hy
  rw [carve]
  split
  · exact settled_around_used.mpr ⟨hx, settled_cons.mpr hy⟩
  · exact settled_around_used.mpr ⟨hx, hy.2⟩

/-- The lowest free header stays the lowest: it moves on when its own block is taken,
which is when every block in front is used. -/
theorem adjustLfree_laid {us zs : List Tile} {t : Tile} (hl : Laid ram (us ++ (zs ++ (t :: ys))))
    (hus : ∀ s ∈ us, s.used) (hzs : ∀ s ∈ zs.head?, s.used = false) :
    adjustLfree ram (total us) (total us + total zs) =
      .ok (if zs = [] then total us + firstFree (t :: ys)
        else firstFree (us ++ (zs ++ (t :: ys)))) := by
  have hlen := length_le_total hl.wide
  rw [hl.total_eq] at hlen
  have hheap : memSizeAligned = 6144 := rfl
  rw [adjustLfree]
  cases zs with
  | nil =>
    rw [List.nil_append] at hl hlen
    have hfuel : (t :: ys).length < memSizeAligned := by
      rw [List.length_append] at hlen
      omega
    rw [total_nil, Nat.add_zero, if_pos rfl, if_pos rfl, nextFree_laid hl hfuel]
    refine (assert_pass _ _ ?_).trans rfl
    rw [Bool.or_eq_true, decide_eq_true_iff, decide_eq_true_iff]
    obtain ⟨ws, vs, hsplit, -, hfirst, hhead⟩ := exists_firstFree (t :: ys)
    rw [hfirst, ← total_append]
    rw [hsplit, ← List.append_assoc] at hl
    cases vs with
    | nil =>
      have htot := hl.total_eq
      rw [List.append_nil] at htot
      exact .inl htot
    | cons v vs =>
      rw [hl.header, flag_eq_zero]
      exact .inr (hhead v rfl)
  | cons z zs =>
    have hz := (wide_cons.mp (wide_append.mp (wide_append.mp hl.wide).2).1).1.1
    have hmoved : ¬ total us + total (z :: zs) = total us := by
      rw [total_cons]
      omega
    rw [if_neg hmoved, if_neg (by simp), List.cons_append, firstFree_append_used hus,
      firstFree_cons, hzs z rfl]
    rfl

end Take

/-- The results that `mem_malloc` can have in a heap of the tiles `ts`: the first
free block that is large enough is taken, or there is none. -/
inductive Result (h : Heap) (ts : List Tile) (sizeIn : UInt16) : Option ℕ × Heap → Prop
  | block (size : ℕ) (xs : List Tile) (n : ℕ) (ys : List Tile) (h' : Heap)
      (pos : sizeIn ≠ 0) (aligned : alignedSize sizeIn = some size)
      (eq : ts = xs ++ ⟨n, false⟩ :: ys) (room : size + sizeofStructMem ≤ n)
      (first : ∀ t ∈ xs, t.fits (size + sizeofStructMem) = false)
      (tiled : Tiled h' (xs ++ (carve (size + sizeofStructMem) spare ⟨n, false⟩ ++ ys)))
      (intact : Intact h.ram h'.ram ts) :
      Result h ts sizeIn (some (total xs + sizeofStructMem), h')
  | null (no : ∀ size, sizeIn ≠ 0 → alignedSize sizeIn = some size →
      ∀ t ∈ ts, t.fits (size + sizeofStructMem) = false) : Result h ts sizeIn (none, h)

theorem memMalloc_tiled {h : Heap} {ts : List Tile} (ht : Tiled h ts) (sizeIn : UInt16) :
    ∃ r, memMalloc h sizeIn = .ok r ∧ Result h ts sizeIn r := by
  rw [memMalloc]
  by_cases hpos : sizeIn = 0
  · rw [if_pos hpos]
    exact ⟨_, rfl, .null fun _ hne => absurd hpos hne⟩
  rw [if_neg hpos]
  cases ha : alignedSize sizeIn with
  | none => exact ⟨_, rfl, .null fun size _ hs => by rw [ha] at hs; cases hs⟩
  | some size =>
    obtain ⟨-, hsize, -, hmod, -⟩ := alignedSize_eq ha
    obtain ⟨us, vs, rfl, hus, hlow, hvs⟩ := exists_firstFree ts
    obtain ⟨hl, hset, hlf⟩ := ht
    rw [hlow] at hlf
    have hlen := length_le_total hl.wide
    have hheap : memSizeAligned = 6144 := rfl
    have height : sizeofStructMem = 8 := rfl
    rw [hl.total_eq, List.length_append] at hlen
    obtain ⟨r, hfit, hscan⟩ := scan_laid hsize hl (show vs.length < memSizeAligned by omega)
    have hfront : ∀ t ∈ us, t.fits (size + sizeofStructMem) = false :=
      fun t ht => not_fits_of_used (hus t ht)
    dsimp only
    rw [hlf, hscan]
    cases hfit with
    | none no =>
      refine ⟨_, rfl, .null fun s _ hs => ?_⟩
      rw [ha] at hs
      cases hs
      exact List.forall_mem_append.mpr ⟨hfront, no⟩
    | found zs n ys heq hroom hfirst =>
      subst heq
      have hl' := hl
      have hset' := hset
      rw [← List.append_assoc] at hl' hset'
      have hat : total (us ++ zs) = total us + total zs := total_append us zs
      obtain ⟨ram', htake, hlaid, hint⟩ := takeBlock_laid hl' hsize hmod hroom
      obtain ⟨htot, -, -, hmod4⟩ := hl'.bound
      obtain ⟨c, cs, hcarve, hc⟩ : ∃ c cs,
          carve (size + sizeofStructMem) spare ⟨n, false⟩ ++ ys = c :: cs ∧ c.used = true := by
        rw [carve]
        split
        · exact ⟨_, _, rfl, rfl⟩
        · exact ⟨_, _, rfl, rfl⟩
      have hzs : ∀ s ∈ zs.head?, s.used = false := by
        intro s hs
        apply hvs s
        obtain ⟨ws, rfl⟩ := List.head?_eq_some_iff.mp hs
        rfl
      have hadj : adjustLfree ram' (total us) (total us + total zs) = .ok (firstFree
          (us ++ zs ++ (carve (size + sizeofStructMem) spare ⟨n, false⟩ ++ ys))) := by
        rw [hcarve, List.append_assoc] at hlaid ⊢
        rw [adjustLfree_laid hlaid hus hzs]
        split
        · next hnil => rw [hnil, List.nil_append, firstFree_append_used hus]
        · rfl
      rw [hat] at htake htot hmod4
      refine ⟨_, ?_, .block size (us ++ zs) n ys ⟨ram', _⟩ hpos ha (List.append_assoc us zs _).symm
        hroom (List.forall_mem_append.mpr ⟨hfront, hfirst⟩) ⟨hlaid, settled_carve hset', rfl⟩
        (List.append_assoc us zs _ ▸ hint)⟩
      rw [ok_bind]
      simp only [Option.map_some]
      rw [htake, ok_bind, hadj, ok_bind]
      refine (assert_pass _ _ ?_).trans ?_
      · apply decide_eq_true
        simp only at htot
        omega
      refine (assert_pass _ _ ?_).trans ?_
      · apply decide_eq_true
        simp only [memAlignment]
        omega
      refine (assert_pass _ _ ?_).trans ?_
      · apply decide_eq_true
        simp only [memAlignment]
        omega
      rw [hat]
      rfl

end EthDriver.MemAlloc

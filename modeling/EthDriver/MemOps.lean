import EthDriver.MemTiles

namespace EthDriver.MemOps

open Bytes MemHeap MemTiles Tiling

theorem assert_pass (message : String) {holds : Bool} {α : Type} (rest : Unit → Except Stuck α)
    (h : holds = true) : (lwipAssert message holds >>= rest) = rest () := by
  rw [h]
  rfl

theorem assert_fail (message : String) {holds : Bool} {α : Type} (rest : Unit → Except Stuck α)
    (h : holds = false) : (lwipAssert message holds >>= rest) = .error (.assertion message) := by
  rw [h]
  rfl

theorem ok_bind {α β : Type} (a : α) (rest : α → Except Stuck β) :
    (Except.ok a >>= rest) = rest a := rfl

section Laid

variable {ram : Memory} {xs ys : List Tile} {t : Tile}

theorem userDataSize_laid (h : Laid ram (xs ++ t :: ys)) :
    userDataSize ram (total xs) = t.len - sizeofStructMem := by
  have hbound := h.bound
  have hsize : memSizeAligned = 6144 := rfl
  rw [userDataSize, h.header]
  simp only [sizeofStructMem]
  omega

/-- The header in front of a tile points to it. -/
theorem next_lastOf (h : Laid ram (xs ++ ys)) (hne : xs ≠ []) :
    lastOf 0 0 xs < total xs ∧ (ptrToMem ram (lastOf 0 0 xs)).next = total xs := by
  obtain ⟨ws, t, rfl⟩ := List.eq_nil_or_concat' xs |>.resolve_left hne
  rw [List.append_assoc] at h
  have hbound := h.bound
  rw [lastOf_concat, Nat.zero_add, h.header, total_append, total_cons, total_nil]
  constructor
  · omega
  · rfl

theorem memLinkValid_laid (h : Laid ram (xs ++ t :: ys)) : memLinkValid ram (total xs) = true := by
  obtain ⟨htot, -, -, -⟩ := h.bound
  have hnext : total xs + t.len ≤ memSizeAligned := by omega
  have hprev : lastOf 0 0 xs ≤ total xs := by
    have := lastOf_le 0 0 xs (Nat.le_refl 0)
    omega
  have hback : lastOf 0 0 xs = total xs ∨ (ptrToMem ram (lastOf 0 0 xs)).next = total xs := by
    by_cases hne : xs = []
    · rw [hne]
      exact .inl rfl
    · exact .inr (next_lastOf h hne).2
  have hforth : total xs + t.len = memSizeAligned ∨
      (ptrToMem ram (total xs + t.len)).prev = total xs := by
    cases ys with
    | nil => exact .inl htot
    | cons s zs =>
      have hlink := (linked_append.mp h.linked).2
      rw [Nat.zero_add] at hlink
      rw [hlink.2.1]
      exact .inr rfl
  rw [memLinkValid, h.header]
  simp only [Bool.not_eq_true', Bool.or_eq_false_iff, decide_eq_false_iff_not,
    Bool.and_eq_false_imp, decide_eq_true_eq, Nat.not_lt, not_not]
  refine ⟨⟨⟨hnext, by omega⟩, ?_⟩, ?_⟩
  · exact hback.resolve_left
  · exact hforth.resolve_left

end Laid

section Release

variable {h : Heap} {xs ys : List Tile} {m : ℕ}

/-- The hole behind a freed tile is plugged. -/
theorem plugForward_laid (hl : Laid h.ram (xs ++ ⟨m, false⟩ :: ys)) (hf : h.lfree ≤ total xs)
    (hs : Settled ys) :
    ∃ m' zs, Laid (plugForward h (total xs)).ram (xs ++ ⟨m', false⟩ :: zs) ∧
      (plugForward h (total xs)).lfree = h.lfree ∧ Settled (⟨m', false⟩ :: zs) ∧
      coalesce (xs ++ ⟨m', false⟩ :: zs) = coalesce (xs ++ ⟨m, false⟩ :: ys) ∧
      Intact h.ram (plugForward h (total xs)).ram (xs ++ ⟨m, false⟩ :: ys) := by
  have hhead : ptrToMem h.ram (total xs) = ⟨total xs + m, lastOf 0 0 xs, 0⟩ := hl.header
  obtain ⟨htot, hlen, -, -⟩ : total xs + m + total ys = memSizeAligned ∧ 20 ≤ m ∧
    m % 4 = 0 ∧ total xs % 4 = 0 := hl.bound
  by_cases hfree : (ptrToMem h.ram (total xs + m)).used = 0
  · obtain ⟨n, zs, rfl⟩ := hl.next_used.mp hfree
    have hn : ptrToMem h.ram (total xs + m) = ⟨total xs + m + n, total xs, 0⟩ := by
      have hlink := (linked_append.mp hl.linked).2
      rw [Nat.zero_add] at hlink
      exact hlink.2.1
    have hwn := (wide_cons.mp (wide_cons.mp (wide_append.mp hl.wide).2).2).1
    rw [total_cons] at htot
    simp only at hwn htot
    have hplug : plugForward h (total xs) = ⟨setNextPrev (setNext h.ram (total xs)
        (total xs + m + n)) (total xs + m + n) (total xs), h.lfree⟩ := by
      unfold plugForward
      simp only [hhead, hn, ptrToMem_setNext_apart h.ram
        (show total xs + m + 5 ≤ total xs ∨ total xs + 5 ≤ total xs + m by omega)]
      rw [if_pos ⟨by omega, trivial, by omega⟩, if_neg (by omega)]
    rw [hplug]
    refine ⟨m + n, zs, hl.merge, rfl, ?_, coalesce_merge xs zs m n, ?_⟩
    · rw [settled_cons] at hs ⊢
      exact hs
    · apply @intact_of_apart _ _ xs [⟨m, false⟩, ⟨n, false⟩] zs (fun _ => rfl)
      intro i hi
      simp only [total_cons, total_nil] at hi
      exact (setNextPrev_apart _ (by omega)).trans (setNext_apart _ (by omega))
  · have hplug : plugForward h (total xs) = h := by
      unfold plugForward
      simp only [hhead]
      exact if_neg fun hc => hfree hc.2.1
    rw [hplug]
    refine ⟨m, ys, hl, rfl, settled_cons.mpr ⟨?_, hs⟩, rfl, Intact.refl _ _⟩
    rintro ⟨n, u⟩ hy
    cases u with
    | true => exact .inr rfl
    | false =>
      obtain ⟨zs, rfl⟩ := List.head?_eq_some_iff.mp hy
      exact absurd (hl.next_used.mpr ⟨n, zs, rfl⟩) hfree

/-- The hole in front of it is plugged, and none is left. -/
theorem plugBackward_laid (hl : Laid h.ram (xs ++ ⟨m, false⟩ :: ys))
    (hf : h.lfree = firstFree (xs ++ ⟨m, false⟩ :: ys)) (hs : Settled xs)
    (hs' : Settled (⟨m, false⟩ :: ys)) :
    Tiled (plugBackward h (total xs)) (coalesce (xs ++ ⟨m, false⟩ :: ys)) ∧
      Intact h.ram (plugBackward h (total xs)).ram (xs ++ ⟨m, false⟩ :: ys) := by
  have hhead : ptrToMem h.ram (total xs) = ⟨total xs + m, lastOf 0 0 xs, 0⟩ := hl.header
  have hnone : ∀ ts : List Tile, ts = xs ++ ⟨m, false⟩ :: ys → Settled ts →
      plugBackward h (total xs) = h →
      Tiled (plugBackward h (total xs)) (coalesce ts) ∧
        Intact h.ram (plugBackward h (total xs)).ram ts := by
    rintro ts rfl hset hplug
    rw [hplug, coalesce_of_settled hset]
    exact ⟨⟨hl, hset, hf⟩, Intact.refl _ _⟩
  obtain rfl | ⟨ws, ⟨p, u⟩, rfl⟩ := List.eq_nil_or_concat' xs
  · apply hnone _ rfl hs'
    unfold plugBackward
    simp only [hhead]
    exact if_neg fun hc => hc.1 rfl
  · have happ : ws ++ [⟨p, u⟩] ++ ⟨m, false⟩ :: ys = ws ++ ⟨p, u⟩ :: ⟨m, false⟩ :: ys := by simp
    rw [happ] at hl hf ⊢
    have hp : ptrToMem h.ram (total ws) = ⟨total ws + p, lastOf 0 0 ws, flag u⟩ := hl.header
    obtain ⟨htot, hlen, -, -⟩ : total ws + p + (m + total ys) = memSizeAligned ∧ 20 ≤ p ∧
      p % 4 = 0 ∧ total ws % 4 = 0 := hl.bound
    have hat : total (ws ++ [⟨p, u⟩]) = total ws + p := by simp
    rw [lastOf_concat, Nat.zero_add, hat] at hhead
    rw [hat] at hnone ⊢
    cases u with
    | true =>
      apply hnone _ happ.symm
      · exact settled_around_used.mpr ⟨(settled_append.mp hs).1, hs'⟩
      · unfold plugBackward
        simp only [hhead, hp]
        exact if_neg fun hc => absurd hc.2 (by decide)
    | false =>
      have hfle : h.lfree ≤ total ws := by
        rw [hf, firstFree_release]
        exact Nat.min_le_right _ _
      have hplug : plugBackward h (total ws + p) = ⟨setNextPrev (setNext h.ram (total ws)
          (total ws + p + m)) (total ws + p + m) (total ws), h.lfree⟩ := by
        unfold plugBackward
        simp only [hhead, hp, ptrToMem_setNext_apart h.ram
          (show total ws + p + 5 ≤ total ws ∨ total ws + 5 ≤ total ws + p by omega)]
        rw [if_pos ⟨by omega, rfl⟩, if_neg (by omega)]
      have hset : Settled (ws ++ ⟨p + m, false⟩ :: ys) := by
        rw [settled_append, settled_cons] at *
        exact ⟨hs.1, ⟨hs'.1, hs'.2⟩, fun x hx y hy => hs.2.2 x hx ⟨p, false⟩ rfl |>.elim
          .inl fun hno => absurd hno (by simp)⟩
      rw [hplug, ← coalesce_merge, coalesce_of_settled hset]
      refine ⟨⟨hl.merge, hset, ?_⟩, ?_⟩
      · rw [hf, ← firstFree_coalesce, ← coalesce_merge, firstFree_coalesce]
      · apply @intact_of_apart _ _ ws [⟨p, false⟩, ⟨m, false⟩] ys (fun _ => rfl)
        intro i hi
        simp only [total_cons, total_nil] at hi
        exact (setNextPrev_apart _ (by omega)).trans (setNext_apart _ (by omega))

/-- `mem_free` of a used block: no assertion fails, and its neighbours take it in. -/
theorem memFree_tiled (ht : Tiled h (xs ++ ⟨m, true⟩ :: ys)) :
    ∃ h', memFree h (some ((total xs + sizeofStructMem : ℕ) : ℤ)) = .ok h' ∧
      Tiled h' (coalesce (xs ++ ⟨m, false⟩ :: ys)) ∧
      Intact h.ram h'.ram (xs ++ ⟨m, false⟩ :: ys) := by
  obtain ⟨hl, hs, hf⟩ := ht
  have hhead : ptrToMem h.ram (total xs) = ⟨total xs + m, lastOf 0 0 xs, 1⟩ := hl.header
  obtain ⟨htot, hlen, hmod, hat⟩ : total xs + m + total ys = memSizeAligned ∧ 20 ≤ m ∧
    m % 4 = 0 ∧ total xs % 4 = 0 := hl.bound
  obtain ⟨hsx, hsy⟩ := settled_around_used.mp hs
  have hmark : Laid (setUsed h.ram (total xs) 0) (xs ++ ⟨m, false⟩ :: ys) := hl.mark false
  have hlow := firstFree_release xs ys m
  rw [← hf] at hlow
  have hmin : (if total xs < h.lfree then total xs else h.lfree) =
      firstFree (xs ++ ⟨m, false⟩ :: ys) := by
    rw [hlow]
    split
    · omega
    · omega
  obtain ⟨m', zs, hl', hlf, hs', hco, hint⟩ := plugForward_laid
    (h := ⟨setUsed h.ram (total xs) 0, firstFree (xs ++ ⟨m, false⟩ :: ys)⟩) hmark
    (by rw [hlow]; exact Nat.min_le_right _ _) hsy
  have hlf' := hlf.trans (by rw [← firstFree_coalesce, ← hco, firstFree_coalesce] :
    firstFree (xs ++ ⟨m, false⟩ :: ys) = firstFree (xs ++ ⟨m', false⟩ :: zs))
  obtain ⟨htiled, hint'⟩ := plugBackward_laid hl' hlf' hsx hs'
  refine ⟨_, ?_, hco ▸ htiled, ?_⟩
  · have hptr : (((total xs + sizeofStructMem : ℕ) : ℤ) - sizeofStructMem).toNat = total xs := by
      simp
    have hwide : total xs + sizeofStructMem + minSizeAligned ≤ memSizeAligned := by
      simp only [sizeofStructMem, minSizeAligned]
      omega
    unfold memFree plugHoles
    simp only [hptr, hhead, hmin]
    refine (assert_pass _ _ ?_).trans ?_
    · apply decide_eq_true
      simp only [memAlignment, sizeofStructMem]
      omega
    refine (assert_pass _ _ ?_).trans ?_
    · simp only [Bool.and_eq_true, decide_eq_true_eq]
      omega
    refine (assert_pass _ _ rfl).trans ?_
    refine (assert_pass _ _ (memLinkValid_laid hl)).trans ?_
    refine (assert_pass _ _ ?_).trans ?_
    · simp only [decide_eq_true_eq]
      omega
    have hmem : ptrToMem (setUsed h.ram (total xs) 0) (total xs) =
        ⟨total xs + m, lastOf 0 0 xs, 0⟩ := by rw [ptrToMem_setUsed, hhead]
    simp only [hmem]
    refine (assert_pass _ _ rfl).trans ?_
    refine (assert_pass _ _ ?_).trans rfl
    simp only [decide_eq_true_eq]
    omega
  · have hfirst : Intact h.ram (setUsed h.ram (total xs) 0) (xs ++ ⟨m, false⟩ :: ys) := by
      apply @intact_of_apart _ _ xs [⟨m, false⟩] ys (fun _ => rfl)
      intro i hi
      exact setUsed_apart h.ram (by omega)
    apply (hfirst.trans hint rfl).trans hint'
    rw [← blocks_coalesce, hco, blocks_coalesce]

end Release

end EthDriver.MemOps

import EthDriver.Buffers
import EthDriver.MemTrim
import EthDriver.Runs

namespace EthDriver.MemClient

open Buffers Bytes MemAlloc MemHeap MemOps MemTiles MemTrim Runs Tiling

/-- The heap, and the buffers that those who called it hold. -/
structure World where
  heap : Heap
  held : Held

inductive Act
  | malloc (size : UInt16)
  | calloc (count size : UInt16)
  | free (p : ℕ)
  | trim (p : ℕ) (size : UInt16)
  | store (p off : ℕ) (data : List UInt8)

/-- One call to the heap, or one write to a buffer. -/
def call (w : World) : Act → Except Stuck World
  | .malloc size => do
    match ← memMalloc w.heap size with
    | (none, h) => pure { w with heap := h }
    | (some p, h) => pure ⟨h, Function.update w.held p (some (read h.ram p size.toNat))⟩
  | .calloc count size => do
    match ← memCalloc w.heap count size with
    | (none, h) => pure { w with heap := h }
    | (some p, h) =>
      let zeros := List.replicate (count.toNat * size.toNat) 0
      pure ⟨h, Function.update w.held p (some zeros)⟩
  | .free p => do
    let h ← memFree w.heap (some p)
    pure ⟨h, Function.update w.held p none⟩
  | .trim p size => do
    match ← memTrim w.heap p size with
    | (none, h) => pure { w with heap := h }
    | (some q, h) =>
      let held := Function.update w.held p none
      let d := resized h.ram q.toNat ((w.held p).getD []) size.toNat
      pure ⟨h, Function.update held q.toNat (some d)⟩
  | .store p off data =>
    let heap := { w.heap with ram := write w.heap.ram (p + off) data }
    pure ⟨heap, Function.update w.held p (some (splice ((w.held p).getD []) off data))⟩

/-- Callers free, trim and write to what they hold, and write inside it. They may trim it
to any size. -/
def Legal (w : World) : Act → Prop
  | .malloc _ | .calloc _ _ => True
  | .free p | .trim p _ => w.held p ≠ none
  | .store p off data => w.held p ≠ none ∧ off + data.length ≤ ((w.held p).getD []).length

instance decidableLegal (w : World) : ∀ a, Decidable (Legal w a)
  | .malloc _ | .calloc _ _ => inferInstanceAs (Decidable True)
  | .free _ | .trim _ _ => inferInstanceAs (Decidable (_ ≠ _))
  | .store _ _ _ => inferInstanceAs (Decidable (_ ∧ _))

/-- A call is made where it is legal. -/
def act (w : World) (a : Act) : Except Stuck World := if Legal w a then call w a else pure w

/-- Nothing is done any more once a call does not return. -/
def step (w : Except Stuck World) (a : Act) : Except Stuck World := w >>= fun w => act w a

/-- The heap after `mem_init`, whatever the memory contained. -/
def start (ram : Memory) : Except Stuck World := .ok ⟨memInit ram, fun _ => none⟩

/-- The assertion of `mem_trim` that a call fails: the size is above that of the block,
or the block is the last of the heap and what it gives up would be a block. -/
def trimAssertion (w : World) : Act → Option String
  | .trim p size =>
    match w.held p, alignedSize size with
    | some _, some s =>
      let next := (ptrToMem w.heap.ram (p - sizeofStructMem)).next
      if next < p + s then some "mem_trim can only shrink memory"
      else if next = memSizeAligned ∧ p + s + spare ≤ next then some "invalid next ptr"
      else none
    | _, _ => none
  | _ => none

/-- The areas that the heap has given out are the buffers held. -/
def Inv (w : World) : Prop :=
  ∃ ts, Tiled w.heap ts ∧ Holds w.heap.ram (areas sizeofStructMem (blocks 0 ts)) w.held

theorem areas_append (header : ℕ) (bs cs : List (ℕ × ℕ)) :
    areas header (bs ++ cs) = areas header bs ++ areas header cs := List.map_append

theorem blocks_wide {ts : List Tile} (h : Wide ts) {p n : ℕ} (hb : (p, n) ∈ blocks 0 ts) :
    20 ≤ n := by
  obtain ⟨xs, ys, rfl, rfl⟩ := mem_blocks.mp hb
  exact (wide_cons.mp (wide_append.mp h).2).1.1

theorem ordered_areas {ts : List Tile} (h : Wide ts) :
    Ordered (areas sizeofStructMem (blocks 0 ts)) := by
  rw [Ordered, areas, List.pairwise_map]
  apply (blocks_ordered 0 ts).imp_of_mem
  rintro ⟨p, n⟩ ⟨q, l⟩ hb _ hle
  have hwide := blocks_wide h hb
  simp only [sizeofStructMem] at hle ⊢
  omega

theorem mem_areas {ts : List Tile} (h : Wide ts) {p n : ℕ}
    (hm : (p, n) ∈ areas sizeofStructMem (blocks 0 ts)) :
    ∃ xs ys, ts = xs ++ ⟨n + sizeofStructMem, true⟩ :: ys ∧ p = total xs + sizeofStructMem := by
  obtain ⟨⟨q, l⟩, hb, heq⟩ := List.mem_map.mp hm
  have hlen := blocks_wide h hb
  obtain ⟨xs, ys, rfl, rfl⟩ := mem_blocks.mp hb
  cases heq
  have height : sizeofStructMem = 8 := rfl
  dsimp only
  refine ⟨xs, ys, ?_, by rw [Nat.zero_add]⟩
  rw [Nat.sub_add_cancel (by omega)]

theorem Intact.same {ram ram' : Memory} {ts : List Tile} (h : Intact ram ram' ts) (hw : Wide ts) :
    Same ram ram' (areas sizeofStructMem (blocks 0 ts)) := by
  rintro ⟨p, n⟩ hm i hlo hhi
  obtain ⟨xs, ys, rfl, rfl⟩ := mem_areas hw hm
  apply h (total xs, n + sizeofStructMem) (mem_blocks.mpr ⟨xs, ys, rfl, by simp⟩) i hlo
  dsimp only at hhi ⊢
  omega

/-- A write inside the user data of a block changes no header. -/
theorem Tiled.store {h : Heap} {xs ys : List Tile} {n p : ℕ} {data : List UInt8}
    (ht : Tiled h (xs ++ ⟨n, true⟩ :: ys)) (hlo : total xs + sizeofStructMem ≤ p)
    (hhi : p + data.length ≤ total xs + n) :
    Tiled { h with ram := write h.ram p data } (xs ++ ⟨n, true⟩ :: ys) := by
  obtain ⟨hl, hset, hlf⟩ := ht
  obtain ⟨htot, -, -, -⟩ : total xs + n + total ys = memSizeAligned ∧ 20 ≤ n ∧
    n % 4 = 0 ∧ total xs % 4 = 0 := hl.bound
  have height : sizeofStructMem = 8 := rfl
  have hsame : ∀ i, i < p ∨ p + data.length ≤ i → write h.ram p data i = h.ram i :=
    fun i hi => write_apart h.ram data hi
  refine ⟨hl.rebuild [⟨n, true⟩] [⟨n, true⟩] ?_ ?_ ?_ ?_ rfl ?_, hset, hlf⟩
  · exact fun i hi => hsame i (by omega)
  · refine ⟨?_, trivial⟩
    rw [← hl.header]
    exact ptrToMem_congr fun i _ hi => hsame i (by omega)
  · have hlink := (linked_append.mp hl.linked).2
    rw [Nat.zero_add] at hlink
    apply hlink.2.frame (wide_cons.mp (wide_append.mp hl.wide).2).2
    intro i hi _
    exact hsame i (by dsimp only at hi; omega)
  · exact ptrToMem_congr fun i hi _ => hsame i (by omega)
  · exact fun t ht => hl.wide t (by simp_all)

theorem memInit_tiled (ram : Memory) : Tiled (memInit ram) [⟨memSizeAligned, false⟩] := by
  have hheap : memSizeAligned = 6144 := rfl
  have hfirst : ptrToMem (memInit ram).ram 0 = ⟨memSizeAligned, 0, 0⟩ := by
    unfold memInit
    rw [ptrToMem_setPrev_apart _ (by omega), ptrToMem_setNext_apart _ (by omega),
      ptrToMem_setUsed_apart _ (by omega), ptrToMem_setUsed, ptrToMem_setPrev _ (by omega),
      ptrToMem_setNext _ (by omega)]
  have hend : ptrToMem (memInit ram).ram memSizeAligned =
      ⟨memSizeAligned, memSizeAligned, 1⟩ := by
    unfold memInit
    rw [ptrToMem_setPrev _ (by omega), ptrToMem_setNext _ (by omega), ptrToMem_setUsed]
  refine ⟨⟨⟨?_, trivial⟩, rfl, ?_, hend⟩, List.isChain_singleton _, rfl⟩
  · rw [hfirst, Nat.zero_add]
    rfl
  · exact wide_cons.mpr ⟨by dsimp only; omega, fun _ h => by cases h⟩

theorem start_inv (ram : Memory) : Inv ⟨memInit ram, fun _ => none⟩ := by
  refine ⟨_, memInit_tiled ram, List.Pairwise.nil, ?_, ?_, ?_⟩
  · intro p
    simp [areas]
  · intro p n d hm
    cases hm
  · intro p d hd
    cases hd

variable {w : World}

/-- The allocated area is new to the holders of all others. -/
theorem malloc_inv (hi : Inv w) {size : UInt16} {p : ℕ} {h : Heap}
    (hr : memMalloc w.heap size = .ok (some p, h)) :
    Inv ⟨h, Function.update w.held p (some (read h.ram p size.toNat))⟩ := by
  obtain ⟨ts, ht, hh⟩ := hi
  obtain ⟨r, hok, hres⟩ := memMalloc_tiled ht size
  rw [hr] at hok
  cases hok
  cases hres with
  | block s xs n ys h' pos aligned eq room first tiled intact =>
    subst eq
    obtain ⟨n', hroom, -, hblocks⟩ := blocks_carve (total xs) spare ys room
    have hsame := Intact.same intact ht.wide
    have hord := ordered_areas tiled.wide
    have hnew : areas sizeofStructMem
        (blocks 0 (xs ++ (carve (s + sizeofStructMem) spare ⟨n, false⟩ ++ ys))) =
        areas sizeofStructMem (blocks 0 xs) ++
          (total xs + sizeofStructMem, n' - sizeofStructMem) ::
            areas sizeofStructMem (blocks (total xs + n) ys) := by
      rw [blocks_append, Nat.zero_add, hblocks, areas_append]
      rfl
    have hold : areas sizeofStructMem (blocks 0 (xs ++ ⟨n, false⟩ :: ys)) =
        areas sizeofStructMem (blocks 0 xs) ++
          areas sizeofStructMem (blocks (total xs + n) ys) := by
      rw [blocks_append, Nat.zero_add, areas_append]
      rfl
    refine ⟨_, tiled, ?_⟩
    rw [hnew] at hord ⊢
    rw [hold] at hh hsame
    have hsize := (alignedSize_eq aligned).1
    refine hh.alloc hord hsame ?_ ?_
    · rw [read_length]
      omega
    · rw [read_length]

theorem free_inv (hi : Inv w) {p : ℕ} (hp : w.held p ≠ none) :
    ∃ h, memFree w.heap (some (p : ℤ)) = .ok h ∧ Inv ⟨h, Function.update w.held p none⟩ := by
  obtain ⟨ts, ht, hh⟩ := hi
  obtain ⟨n, hm⟩ := (hh.known p).mp hp
  obtain ⟨xs, ys, rfl, rfl⟩ := mem_areas ht.wide hm
  obtain ⟨h', hok, ht', hint⟩ := memFree_tiled ht
  refine ⟨h', hok, _, ht', ?_⟩
  have hwide : Wide (xs ++ ⟨n + sizeofStructMem, false⟩ :: ys) := by
    have hw := ht.wide
    rw [wide_append, wide_cons] at hw ⊢
    exact hw
  have hsame := Intact.same hint hwide
  rw [blocks_append, Nat.zero_add, blocks_cons_free, areas_append] at hsame
  rw [blocks_coalesce, blocks_append, Nat.zero_add, blocks_cons_free, areas_append]
  rw [blocks_append, Nat.zero_add, blocks_cons_used, areas_append] at hh
  exact Holds.release hh hsame

/-- What `trimAssertion` says of a block in the row of tiles. -/
theorem trimAssertion_tiled {xs ys : List Tile} {n s : ℕ} {size : UInt16} {d : List UInt8}
    (ht : Tiled w.heap (xs ++ ⟨n + sizeofStructMem, true⟩ :: ys))
    (hd : w.held (total xs + sizeofStructMem) = some d) (hs : alignedSize size = some s) :
    trimAssertion w (.trim (total xs + sizeofStructMem) size) =
      if n < s then some "mem_trim can only shrink memory"
      else if ys = [] ∧ s + spare ≤ n then some "invalid next ptr"
      else none := by
  have htot := ht.bound.1
  dsimp only at htot
  have hnext : (ptrToMem w.heap.ram (total xs + sizeofStructMem - sizeofStructMem)).next =
      total xs + (n + sizeofStructMem) := by
    rw [Nat.add_sub_cancel, ht.header]
  have hend : total xs + (n + sizeofStructMem) = memSizeAligned ↔ ys = [] := by
    constructor
    · intro hend
      cases ys with
      | nil => rfl
      | cons y ys =>
        have hy := (wide_cons.mp (wide_cons.mp (wide_append.mp ht.wide).2).2).1.1
        rw [total_cons] at htot
        omega
    · rintro rfl
      exact htot
  have hgrow : total xs + (n + sizeofStructMem) < total xs + sizeofStructMem + s ↔ n < s := by
    omega
  have hroom : total xs + sizeofStructMem + s + spare ≤ total xs + (n + sizeofStructMem) ↔
      s + spare ≤ n := by omega
  rw [trimAssertion, hd, hs]
  dsimp only
  rw [hnext]
  simp only [hend, hgrow, hroom]

/-- A trim fails one of two assertions, or the buffer keeps its first bytes, or is not
touched where the heap cannot have a block of the size. -/
theorem trim_inv (hi : Inv w) {p : ℕ} {d : List UInt8} (hd : w.held p = some d) (size : UInt16) :
    (∃ m, trimAssertion w (.trim p size) = some m ∧
        memTrim w.heap p size = .error (.assertion m)) ∨
      trimAssertion w (.trim p size) = none ∧
        (memTrim w.heap p size = .ok (none, w.heap) ∨
          ∃ h, memTrim w.heap p size = .ok (some (p : ℤ), h) ∧
            Inv ⟨h, Function.update w.held p (some (resized h.ram p d size.toNat))⟩) := by
  obtain ⟨ts, ht, hh⟩ := hi
  obtain ⟨n, hm⟩ := (hh.known p).mp (by simp [hd])
  obtain ⟨xs, ys, rfl, rfl⟩ := mem_areas ht.wide hm
  cases hs : alignedSize size with
  | none =>
    refine .inr ⟨by rw [trimAssertion, hd, hs], .inl ?_⟩
    rw [memTrim, hs]
    rfl
  | some s =>
    rw [trimAssertion_tiled ht hd hs]
    by_cases hgrow : n < s
    · refine .inl ⟨_, if_pos hgrow, ?_⟩
      exact memTrim_grows ht.toLaid hs (by omega)
    rw [if_neg hgrow]
    by_cases hlast : ys = [] ∧ s + spare ≤ n
    · obtain ⟨rfl, hbig⟩ := hlast
      refine .inl ⟨_, if_pos ⟨rfl, hbig⟩, ?_⟩
      exact memTrim_last ht.toLaid hs (by omega)
    · refine .inr ⟨if_neg hlast, .inr ?_⟩
      have hgo : ys ≠ [] ∨ n + sizeofStructMem < s + sizeofStructMem + spare := by
        obtain hys | hsmall := not_and_or.mp hlast
        · exact .inl hys
        · exact .inr (by omega)
      obtain ⟨h', ts', n', hok, ht', hlow, hhigh, hint, hblocks⟩ :=
        memTrim_tiled ht hs (by omega) hgo
      refine ⟨h', hok, ts', ht', ?_⟩
      have hsame := Intact.same hint ht'.wide
      have hsize := (alignedSize_eq hs).1
      rw [hblocks, areas_append] at hsame ⊢
      rw [blocks_append, Nat.zero_add, blocks_cons_used, areas_append] at hh
      exact hh.resize (n := n + sizeofStructMem - sizeofStructMem) (by omega) hsame hd (by omega)

theorem store_inv (hi : Inv w) {p off : ℕ} {d data : List UInt8} (hd : w.held p = some d)
    (hoff : off + data.length ≤ d.length) :
    Inv ⟨{ w.heap with ram := write w.heap.ram (p + off) data },
      Function.update w.held p (some (splice d off data))⟩ := by
  obtain ⟨ts, ht, hh⟩ := hi
  obtain ⟨n, hm⟩ := (hh.known p).mp (by simp [hd])
  have hroom := hh.room p n d hm hd
  obtain ⟨xs, ys, rfl, rfl⟩ := mem_areas ht.wide hm
  exact ⟨_, Tiled.store ht (Nat.le_add_right _ _) (by omega), hh.store hd hoff⟩

/-- `mem_malloc` returns, and where it fails the heap is as before. -/
theorem malloc_ok (hi : Inv w) (size : UInt16) :
    ∃ r, memMalloc w.heap size = .ok r ∧ (r.1 = none → r.2 = w.heap) := by
  obtain ⟨ts, ht, -⟩ := hi
  obtain ⟨r, hok, hres⟩ := memMalloc_tiled ht size
  refine ⟨r, hok, ?_⟩
  cases hres with
  | block => exact fun h => by cases h
  | null => exact fun _ => rfl

/-- What one legal call does: it keeps the invariant, or it is a trim that does not return. -/
theorem call_cases (hi : Inv w) {a : Act} (hl : Legal w a) :
    (∃ m, trimAssertion w a = some m ∧ call w a = .error (.assertion m)) ∨
      trimAssertion w a = none ∧ ∃ w', call w a = .ok w' ∧ Inv w' := by
  cases a with
  | malloc size =>
    refine .inr ⟨rfl, ?_⟩
    obtain ⟨⟨p, h⟩, hok, hsame⟩ := malloc_ok hi size
    rw [call, hok, ok_bind]
    cases p with
    | none =>
      have heq : h = w.heap := hsame rfl
      exact ⟨_, rfl, heq ▸ hi⟩
    | some p => exact ⟨_, rfl, malloc_inv hi hok⟩
  | calloc count size =>
    refine .inr ⟨rfl, ?_⟩
    rw [call, memCalloc]
    split
    · exact ⟨_, rfl, hi⟩
    · next hfits =>
      rw [not_not] at hfits
      have hsize : (UInt16.ofNat (count.toNat * size.toNat)).toNat = count.toNat * size.toNat :=
        UInt16.toNat_ofNat'.trans hfits
      obtain ⟨⟨p, h⟩, hok, hsame⟩ := malloc_ok hi (UInt16.ofNat (count.toNat * size.toNat))
      rw [hok, ok_bind]
      cases p with
      | none =>
        have heq : h = w.heap := hsame rfl
        exact ⟨_, rfl, heq ▸ hi⟩
      | some p =>
        have hgot := malloc_inv hi hok
        rw [hsize] at hgot
        have hzero := @store_inv _ hgot p 0 _ (List.replicate (count.toNat * size.toNat) 0)
          (Function.update_self _ _ _) (by simp)
        rw [Function.update_idem, splice_all (by simp)] at hzero
        exact ⟨_, rfl, hzero⟩
  | free p =>
    obtain ⟨h, hok, hinv⟩ := free_inv hi hl
    refine .inr ⟨rfl, _, ?_, hinv⟩
    rw [call, hok]
    rfl
  | trim p size =>
    obtain ⟨d, hd⟩ := Option.ne_none_iff_exists'.mp hl
    rw [call, hd]
    obtain ⟨m, hm, hstop⟩ | ⟨hm, hnull | ⟨h, hok, hinv⟩⟩ := trim_inv hi hd size
    · exact .inl ⟨m, hm, by rw [hstop]; rfl⟩
    · exact .inr ⟨hm, w, by rw [hnull]; rfl, hi⟩
    · refine .inr ⟨hm, _, by rw [hok]; rfl, ?_⟩
      rw [Int.toNat_natCast, Function.update_idem]
      exact hinv
  | store p off data =>
    obtain ⟨hheld, hoff⟩ := hl
    obtain ⟨d, hd⟩ := Option.ne_none_iff_exists'.mp hheld
    rw [hd] at hoff
    refine .inr ⟨rfl, _, rfl, ?_⟩
    rw [hd]
    exact store_inv hi hd hoff

theorem act_cases (hi : Inv w) (a : Act) :
    (∃ m, trimAssertion w a = some m ∧ act w a = .error (.assertion m)) ∨
      trimAssertion w a = none ∧ ∃ w', act w a = .ok w' ∧ Inv w' := by
  by_cases hl : Legal w a
  · rw [act, if_pos hl]
    exact call_cases hi hl
  · refine .inr ⟨?_, w, if_neg hl, hi⟩
    cases a with
    | trim p size => rw [trimAssertion, not_not.mp hl]
    | _ => rfl

theorem run_error (e : Stuck) (as : List Act) : run step (.error e) as = .error e := by
  induction as with
  | nil => rfl
  | cons a as ih => exact ih

/-- A run keeps the invariant to its end, or to the trim that does not return. -/
theorem run_cases (hi : Inv w) (as : List Act) :
    (∃ w', run step (.ok w) as = .ok w' ∧ Inv w') ∨
      ∃ bs a cs w' m, as = bs ++ a :: cs ∧ run step (.ok w) bs = .ok w' ∧ Inv w' ∧
        trimAssertion w' a = some m ∧ run step (.ok w) as = .error (.assertion m) := by
  induction as generalizing w with
  | nil => exact .inl ⟨w, rfl, hi⟩
  | cons a as ih =>
    obtain ⟨m, hm, hstop⟩ | ⟨-, w', hok, hinv⟩ := act_cases hi a
    · have hstep : step (.ok w) a = .error (.assertion m) := hstop
      refine .inr ⟨[], a, as, w, m, rfl, rfl, hi, hm, ?_⟩
      rw [run_cons, hstep, run_error]
    · have hstep : step (.ok w) a = .ok w' := hok
      rw [run_cons, hstep]
      obtain hend | ⟨bs, b, cs, v, m, rfl, hbs, hv, hm, herr⟩ := ih hinv
      · exact .inl hend
      · refine .inr ⟨a :: bs, b, cs, v, m, rfl, ?_, hv, hm, herr⟩
        rw [run_cons, hstep, hbs]

theorem inv_run {ram : Memory} {as : List Act} {w : World} (h : run step (start ram) as = .ok w) :
    Inv w := by
  obtain ⟨w', hok, hinv⟩ | ⟨_, _, _, _, m, -, -, -, -, herr⟩ := run_cases (start_inv ram) as
  · cases hok.symm.trans h
    exact hinv
  · cases herr.symm.trans h

/-- What the holders of buffers can rely on. -/
structure Sound (w : World) : Prop where
  aligned : ∀ p d, w.held p = some d → p % memAlignment = 0
  inside : ∀ p d, w.held p = some d → sizeofStructMem ≤ p ∧ p + d.length ≤ memSizeAligned
  apart : ∀ p q d e, w.held p = some d → w.held q = some e → p ≠ q →
    p + d.length < q ∨ q + e.length < p
  block : ∀ p d, w.held p = some d → ∃ xs n ys, row w.heap = xs ++ ⟨n, true⟩ :: ys ∧
    p = total xs + sizeofStructMem ∧ sizeofStructMem + d.length ≤ n
  header : ∀ p d xs ys, w.held p = some d → row w.heap = xs ++ ys →
    total xs + sizeofStructMem ≤ p ∨ p + d.length ≤ total xs
  kept : ∀ p d, w.held p = some d → read w.heap.ram p d.length = d

theorem Inv.block {w : World} (h : Inv w) {p : ℕ} {d : List UInt8} (hd : w.held p = some d) :
    ∃ xs n ys, row w.heap = xs ++ ⟨n, true⟩ :: ys ∧ p = total xs + sizeofStructMem ∧
      sizeofStructMem + d.length ≤ n ∧ p % memAlignment = 0 ∧ total xs + n ≤ memSizeAligned := by
  obtain ⟨ts, ht, hh⟩ := h
  obtain ⟨n, hm⟩ := (hh.known p).mp (by simp [hd])
  have hroom := hh.room p n d hm hd
  obtain ⟨xs, ys, rfl, rfl⟩ := mem_areas ht.wide hm
  obtain ⟨htot, -, -, hmod⟩ : total xs + (n + sizeofStructMem) + total ys = memSizeAligned ∧
    20 ≤ n + sizeofStructMem ∧ (n + sizeofStructMem) % 4 = 0 ∧ total xs % 4 = 0 := ht.bound
  have height : sizeofStructMem = 8 := rfl
  have hfour : memAlignment = 4 := rfl
  exact ⟨xs, _, ys, row_tiled ht, rfl, by omega, by rw [hfour]; omega, by omega⟩

theorem Inv.sound {w : World} (h : Inv w) : Sound w := by
  constructor
  · intro p d hd
    obtain ⟨xs, n, ys, -, -, -, hmod, -⟩ := h.block hd
    exact hmod
  · intro p d hd
    obtain ⟨xs, n, ys, -, hp, hroom, -, hend⟩ := h.block hd
    omega
  · obtain ⟨ts, -, hh⟩ := h
    exact fun p q d e hd he hne => hh.apart hd he hne
  · intro p d hd
    obtain ⟨xs, n, ys, hrow, hp, hroom, -, -⟩ := h.block hd
    exact ⟨xs, n, ys, hrow, hp, hroom⟩
  · intro p d ws zs hd hcut
    obtain ⟨xs, n, ys, hrow, hp, hroom, -, -⟩ := h.block hd
    have hapart := boundary_apart (hrow.symm.trans hcut)
    dsimp only at hapart
    omega
  · obtain ⟨ts, -, hh⟩ := h
    exact hh.kept

/-- Whatever is allocated, freed, trimmed and written, in any order: every buffer held is
aligned, inside the heap, in a block of its own and apart from all others and from all
headers, and contains what its holder put there. Where the run does not get to its end, it
got to a trim that an assertion of `mem_trim` forbids. -/
theorem buffers_sound (ram : Memory) (as : List Act) :
    (∃ w, run step (start ram) as = .ok w ∧ Sound w) ∨
      ∃ bs a cs w m, as = bs ++ a :: cs ∧ run step (start ram) bs = .ok w ∧ Sound w ∧
        trimAssertion w a = some m ∧ run step (start ram) as = .error (.assertion m) := by
  obtain ⟨w, hok, hinv⟩ | ⟨bs, a, cs, w, m, has, hbs, hinv, hm, herr⟩ :=
    run_cases (start_inv ram) as
  · exact .inl ⟨w, hok, hinv.sound⟩
  · exact .inr ⟨bs, a, cs, w, m, has, hbs, hinv.sound, hm, herr⟩

/-- The calls as they come, legal or not. -/
def callStep (w : Except Stuck World) (a : Act) : Except Stuck World := w >>= fun w => call w a

def LegalIn : Except Stuck World → Act → Prop
  | .ok w, a => Legal w a
  | .error _, _ => True

instance decidableLegalIn : ∀ s a, Decidable (LegalIn s a)
  | .ok w, a => decidableLegal w a
  | .error _, _ => inferInstanceAs (Decidable True)

/-- One block over the whole heap cannot be trimmed, and no block can grow. -/
example : [[Act.malloc 6136, .trim 8 100], [.malloc 20, .trim 8 200]].map
    (fun as => (run step (start fun _ => 0) as).map fun _ => ()) =
      [.error (.assertion "invalid next ptr"),
        .error (.assertion "mem_trim can only shrink memory")] := by
  decide +kernel

end EthDriver.MemClient

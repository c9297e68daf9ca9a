import EthDriver.MemHeap
import EthDriver.Tiling

namespace EthDriver.MemTiles

open Bytes MemHeap Tiling

section Headers

variable (ram : Memory) {p x i v : ℕ}

theorem setNext_apart (h : i < p ∨ p + 2 ≤ i) : setNext ram p v i = ram i := by
  apply write_apart
  simpa using h

theorem setPrev_apart (h : i < p + 2 ∨ p + 4 ≤ i) : setPrev ram p v i = ram i := by
  apply write_apart
  simpa using h

theorem setUsed_apart {u : UInt8} (h : i < p + 4 ∨ p + 5 ≤ i) : setUsed ram p u i = ram i :=
  write_apart ram [u] h

theorem ptrToMem_congr {ram ram' : Memory} (h : ∀ i, x ≤ i → i < x + 5 → ram' i = ram i) :
    ptrToMem ram' x = ptrToMem ram x := by
  unfold ptrToMem
  rw [read_congr fun i hi => h (x + i) (by omega) (by omega),
    read_congr fun i hi => h (x + 2 + i) (by omega) (by omega), h (x + 4) (by omega) (by omega)]

theorem ptrToMem_setNext_apart (h : x + 5 ≤ p ∨ p + 5 ≤ x) :
    ptrToMem (setNext ram p v) x = ptrToMem ram x :=
  ptrToMem_congr fun _ _ _ => setNext_apart ram (by omega)

theorem ptrToMem_setPrev_apart (h : x + 5 ≤ p ∨ p + 5 ≤ x) :
    ptrToMem (setPrev ram p v) x = ptrToMem ram x :=
  ptrToMem_congr fun _ _ _ => setPrev_apart ram (by omega)

theorem ptrToMem_setUsed_apart {u : UInt8} (h : x + 5 ≤ p ∨ p + 5 ≤ x) :
    ptrToMem (setUsed ram p u) x = ptrToMem ram x :=
  ptrToMem_congr fun _ _ _ => setUsed_apart ram (by omega)

theorem ofLe_read_write (h : v < 65536) : ofLe (read (write ram p (read (le v) 0 2)) p 2) = v := by
  have hread := read_write ram p (read (le v) 0 2)
  rw [read_length] at hread
  rw [hread, ofLe_read_le]
  exact Nat.mod_eq_of_lt h

theorem ptrToMem_setNext (h : v < 65536) :
    ptrToMem (setNext ram p v) p = { ptrToMem ram p with next := v } := by
  unfold ptrToMem
  rw [read_congr fun i hi => setNext_apart ram (i := p + 2 + i) (by omega),
    setNext_apart ram (by omega), setNext, ofLe_read_write ram h]

theorem ptrToMem_setPrev (h : v < 65536) :
    ptrToMem (setPrev ram p v) p = { ptrToMem ram p with prev := v } := by
  unfold ptrToMem
  rw [read_congr fun i hi => setPrev_apart ram (i := p + i) (by omega),
    setPrev_apart ram (by omega), setPrev, ofLe_read_write ram h]

theorem ptrToMem_setUsed (u : UInt8) :
    ptrToMem (setUsed ram p u) p = { ptrToMem ram p with used := u } := by
  unfold ptrToMem
  rw [read_congr fun i hi => setUsed_apart ram (i := p + i) (by omega),
    read_congr fun i hi => setUsed_apart ram (i := p + 2 + i) (by omega)]
  have hbyte := write_inside ram (p + 4) [u] 0 (by simp)
  rw [Nat.add_zero] at hbyte
  rw [setUsed, hbyte]
  rfl

theorem setNextPrev_apart (h : i < p + 2 ∨ p + 4 ≤ i) : setNextPrev ram p v i = ram i := by
  rw [setNextPrev]
  split
  · exact setPrev_apart ram h
  · rfl

theorem ptrToMem_setNextPrev_apart (h : x + 5 ≤ p ∨ p + 5 ≤ x) :
    ptrToMem (setNextPrev ram p v) x = ptrToMem ram x :=
  ptrToMem_congr fun _ _ _ => setNextPrev_apart ram (by omega)

end Headers

/-- The header of `mem2` and what becomes of the one in front of it. -/
theorem createMem2_headers (ram : Memory) {ptr ptr2 next : ℕ} (h : ptr + 8 ≤ ptr2)
    (hptr2 : ptr2 < 65536) (hnext : next < 65536) :
    ptrToMem (createMem2 ram ptr ptr2 next) ptr = { ptrToMem ram ptr with next := ptr2 } ∧
      ptrToMem (createMem2 ram ptr ptr2 next) ptr2 = ⟨next, ptr, 0⟩ := by
  unfold createMem2
  constructor
  · rw [ptrToMem_setNext _ hptr2, ptrToMem_setPrev_apart _ (by omega),
      ptrToMem_setNext_apart _ (by omega), ptrToMem_setUsed_apart _ (by omega)]
  · rw [ptrToMem_setNext_apart _ (by omega), ptrToMem_setPrev _ (by omega),
      ptrToMem_setNext _ hnext, ptrToMem_setUsed]

theorem createMem2_apart (ram : Memory) {ptr ptr2 next i : ℕ} (h : ptr + 8 ≤ ptr2)
    (hi : i < ptr ∨ ptr + 8 ≤ i ∧ i < ptr2 ∨ ptr2 + 8 ≤ i) :
    createMem2 ram ptr ptr2 next i = ram i := by
  rw [createMem2, setNext_apart _ (by omega), setPrev_apart _ (by omega),
    setNext_apart _ (by omega), setUsed_apart _ (by omega)]

def flag (used : Bool) : UInt8 := if used then 1 else 0

theorem flag_eq_zero {u : Bool} : flag u = 0 ↔ u = false := by
  cases u <;> decide

/-- The headers of `ts`, which start at `a`, where the header in front is at `prev`. -/
def Linked (ram : Memory) : ℕ → ℕ → List Tile → Prop
  | _, _, [] => True
  | prev, a, t :: ts =>
    ptrToMem ram a = ⟨a + t.len, prev, flag t.used⟩ ∧ Linked ram a (a + t.len) ts

/-- The header in front of what follows `ts`. -/
def lastOf : ℕ → ℕ → List Tile → ℕ
  | prev, _, [] => prev
  | _, a, t :: ts => lastOf a (a + t.len) ts

theorem lastOf_concat (prev a : ℕ) (ts : List Tile) (t : Tile) :
    lastOf prev a (ts ++ [t]) = a + total ts := by
  induction ts generalizing prev a with
  | nil => rfl
  | cons s ts ih => rw [List.cons_append, lastOf, ih, total_cons, Nat.add_assoc]

theorem lastOf_le (prev a : ℕ) (ts : List Tile) (h : prev ≤ a) :
    lastOf prev a ts ≤ a + total ts := by
  induction ts generalizing prev a with
  | nil => exact h
  | cons s ts ih =>
    rw [lastOf, total_cons, ← Nat.add_assoc]
    exact ih a (a + s.len) (Nat.le_add_right a s.len)

theorem linked_append {ram : Memory} {prev a : ℕ} {xs ys : List Tile} :
    Linked ram prev a (xs ++ ys) ↔
      Linked ram prev a xs ∧ Linked ram (lastOf prev a xs) (a + total xs) ys := by
  induction xs generalizing prev a with
  | nil => simp [Linked, lastOf]
  | cons x xs ih => simp only [List.cons_append, Linked, lastOf, total_cons, ih, and_assoc,
      Nat.add_assoc]

/-- What a block has at least, its header included, and what its length is a multiple of. -/
def Wide (ts : List Tile) : Prop := ∀ t ∈ ts, 20 ≤ t.len ∧ t.len % 4 = 0

theorem wide_append {xs ys : List Tile} : Wide (xs ++ ys) ↔ Wide xs ∧ Wide ys :=
  List.forall_mem_append

theorem wide_cons {t : Tile} {ts : List Tile} :
    Wide (t :: ts) ↔ (20 ≤ t.len ∧ t.len % 4 = 0) ∧ Wide ts :=
  List.forall_mem_cons

theorem total_mod {ts : List Tile} (h : Wide ts) : total ts % 4 = 0 := by
  induction ts with
  | nil => rfl
  | cons t ts ih =>
    obtain ⟨⟨-, hmod⟩, hts⟩ := wide_cons.mp h
    have hrest := ih hts
    rw [total_cons]
    omega

theorem length_le_total {ts : List Tile} (h : Wide ts) : ts.length * 20 ≤ total ts := by
  induction ts with
  | nil => exact Nat.le_refl 0
  | cons t ts ih =>
    obtain ⟨⟨hlen, -⟩, hts⟩ := wide_cons.mp h
    have hrest := ih hts
    rw [total_cons, List.length_cons]
    omega

theorem Linked.frame {ram ram' : Memory} {prev a : ℕ} {ts : List Tile}
    (h : Linked ram prev a ts) (hw : Wide ts)
    (heq : ∀ i, a ≤ i → i < a + total ts → ram' i = ram i) : Linked ram' prev a ts := by
  induction ts generalizing prev a with
  | nil => trivial
  | cons t ts ih =>
    obtain ⟨⟨hlen, -⟩, hts⟩ := wide_cons.mp hw
    rw [total_cons] at heq
    constructor
    · rw [← h.1]
      exact ptrToMem_congr fun i hlo hhi => heq i hlo (by omega)
    · exact ih h.2 hts fun i hlo hhi => heq i (by omega) (by omega)

/-- The row up to the end of the heap once its first header names another one in front. -/
theorem Linked.setNextPrev {ram : Memory} {prev a p : ℕ} {ts : List Tile}
    (h : Linked ram prev a ts) (hw : Wide ts) (hend : a + total ts = memSizeAligned)
    (hp : p < 65536) : Linked (setNextPrev ram a p) p a ts := by
  cases ts with
  | nil => trivial
  | cons t ts =>
    obtain ⟨⟨hlen, -⟩, hts⟩ := wide_cons.mp hw
    rw [total_cons] at hend
    rw [MemHeap.setNextPrev, if_pos (by omega)]
    constructor
    · rw [ptrToMem_setPrev ram hp, h.1]
    · exact h.2.frame hts fun i hlo _ => setPrev_apart ram (by omega)

/-- The headers in the memory lay the row `ts` over the whole heap. -/
structure Laid (ram : Memory) (ts : List Tile) : Prop where
  linked : Linked ram 0 0 ts
  total_eq : total ts = memSizeAligned
  wide : Wide ts
  ramEnd : ptrToMem ram memSizeAligned = ⟨memSizeAligned, memSizeAligned, 1⟩

/-- What holds between two calls. -/
structure Tiled (h : Heap) (ts : List Tile) : Prop extends Laid h.ram ts where
  settled : Settled ts
  lfree_eq : h.lfree = firstFree ts

/-- The user data of the used tiles is the same in both memories. -/
def Intact (ram ram' : Memory) (ts : List Tile) : Prop :=
  ∀ b ∈ blocks 0 ts, ∀ i, b.1 + sizeofStructMem ≤ i → i < b.1 + b.2 → ram' i = ram i

theorem Intact.refl (ram : Memory) (ts : List Tile) : Intact ram ram ts :=
  fun _ _ _ _ _ => rfl

theorem Intact.trans {ram ram' ram'' : Memory} {ts ts' : List Tile} (h : Intact ram ram' ts)
    (h' : Intact ram' ram'' ts') (heq : blocks 0 ts' = blocks 0 ts) : Intact ram ram'' ts := by
  intro b hb i hlo hhi
  rw [h' b (heq ▸ hb) i hlo hhi, h b hb i hlo hhi]

/-- Writes between the header of a free stretch and the header behind it touch no user data. -/
theorem intact_of_apart {ram ram' : Memory} {xs mid ys : List Tile} (hno : ∀ a, blocks a mid = [])
    (heq : ∀ i, i < total xs ∨ total xs + total mid + 8 ≤ i → ram' i = ram i) :
    Intact ram ram' (xs ++ (mid ++ ys)) := by
  rintro ⟨p, n⟩ hb i hlo hhi
  rw [blocks_append, blocks_append, hno, List.nil_append, List.mem_append] at hb
  apply heq
  obtain hx | hy := hb
  · have := (blocks_inside hx).2
    simp only at hhi
    omega
  · have := (blocks_inside hy).1
    simp only [sizeofStructMem] at hlo
    omega

section Laid

variable {ram ram' : Memory} {xs ys : List Tile} {t : Tile}

theorem Laid.header (h : Laid ram (xs ++ t :: ys)) :
    ptrToMem ram (total xs) = ⟨total xs + t.len, lastOf 0 0 xs, flag t.used⟩ := by
  have hrest := (linked_append.mp h.linked).2
  rw [Nat.zero_add] at hrest
  exact hrest.1

theorem Laid.bound (h : Laid ram (xs ++ t :: ys)) :
    total xs + t.len + total ys = memSizeAligned ∧ 20 ≤ t.len ∧ t.len % 4 = 0 ∧
      total xs % 4 = 0 := by
  obtain ⟨hwx, hwt⟩ := wide_append.mp h.wide
  have htot := h.total_eq
  rw [total_append, total_cons, ← Nat.add_assoc] at htot
  obtain ⟨hlen, -⟩ := wide_cons.mp hwt
  exact ⟨htot, hlen.1, hlen.2, total_mod hwx⟩

/-- The header behind a tile is that of a free tile, or it counts as used. -/
theorem Laid.next_used (h : Laid ram (xs ++ t :: ys)) :
    (ptrToMem ram (total xs + t.len)).used = 0 ↔ ∃ n zs, ys = ⟨n, false⟩ :: zs := by
  cases ys with
  | nil =>
    have htot := h.bound.1
    rw [total_nil, Nat.add_zero] at htot
    rw [htot, h.ramEnd]
    simp
  | cons s zs =>
    have happ : xs ++ t :: s :: zs = (xs ++ [t]) ++ s :: zs := by simp
    rw [happ] at h
    have hhead := h.header
    rw [total_append, total_cons, total_nil, Nat.add_zero] at hhead
    rw [hhead, flag_eq_zero]
    obtain ⟨n, u⟩ := s
    simp

/-- The tiles `mid` give way to `mid'`. -/
theorem Laid.rebuild (mid mid' : List Tile) (h : Laid ram (xs ++ (mid ++ ys)))
    (hlow : ∀ i < total xs, ram' i = ram i)
    (hmid : Linked ram' (lastOf 0 0 xs) (total xs) mid')
    (htail : Linked ram' (lastOf (lastOf 0 0 xs) (total xs) mid') (total xs + total mid) ys)
    (hend : ptrToMem ram' memSizeAligned = ptrToMem ram memSizeAligned)
    (htot : total mid' = total mid) (hwide : Wide mid') : Laid ram' (xs ++ (mid' ++ ys)) := by
  obtain ⟨hwx, hwm⟩ := wide_append.mp h.wide
  constructor
  · rw [linked_append, linked_append]
    refine ⟨?_, ?_, ?_⟩
    · apply (linked_append.mp h.linked).1.frame hwx
      intro i _ hi
      exact hlow i (by omega)
    · rw [Nat.zero_add]
      exact hmid
    · rw [Nat.zero_add, htot]
      exact htail
  · have := h.total_eq
    simp only [total_append] at this ⊢
    rw [htot]
    exact this
  · exact wide_append.mpr ⟨hwx, wide_append.mpr ⟨hwide, (wide_append.mp hwm).2⟩⟩
  · rw [hend, h.ramEnd]

/-- The same when the header behind `mid` is told of the change. -/
theorem Laid.rebuild_told (mid mid' : List Tile) (h : Laid ram (xs ++ (mid ++ ys)))
    (hout : ∀ i, i < total xs ∨ total xs + total mid ≤ i → ram' i = ram i)
    (hmid : Linked ram' (lastOf 0 0 xs) (total xs) mid') (htot : total mid' = total mid)
    (hwide : Wide mid') :
    Laid (setNextPrev ram' (total xs + total mid) (lastOf (lastOf 0 0 xs) (total xs) mid'))
      (xs ++ (mid' ++ ys)) := by
  obtain ⟨hwx, hwm⟩ := wide_append.mp h.wide
  obtain ⟨-, hwy⟩ := wide_append.mp hwm
  obtain ⟨-, hlink⟩ := linked_append.mp h.linked
  obtain ⟨-, hys⟩ := linked_append.mp hlink
  rw [Nat.zero_add] at hys
  have hbound := h.total_eq
  simp only [total_append, ← Nat.add_assoc] at hbound
  have hlast : lastOf (lastOf 0 0 xs) (total xs) mid' ≤ total xs + total mid := by
    rw [← htot]
    apply lastOf_le
    have := lastOf_le 0 0 xs (Nat.le_refl 0)
    omega
  have hsize : memSizeAligned = 6144 := rfl
  apply h.rebuild mid mid' _ _ _ _ htot hwide
  · intro i hi
    rw [setNextPrev_apart _ (by omega), hout i (.inl hi)]
  · apply hmid.frame hwide
    intro i _ hi
    exact setNextPrev_apart _ (by omega)
  · have htold := hys.frame hwy fun i hi _ => hout i (.inr hi)
    exact htold.setNextPrev hwy hbound (by omega)
  · by_cases hempty : total xs + total mid = memSizeAligned
    · rw [setNextPrev, if_neg (not_not.mpr hempty)]
      exact ptrToMem_congr fun i hi _ => hout i (.inr (by omega))
    · have hy : 20 ≤ total ys := by
        cases ys with
        | nil => exact absurd hbound hempty
        | cons y ys =>
          have := (wide_cons.mp hwy).1.1
          rw [total_cons]
          omega
      rw [ptrToMem_setNextPrev_apart _ (by omega)]
      exact ptrToMem_congr fun i hi _ => hout i (.inr (by omega))

/-- A tile is marked as used or as free. -/
theorem Laid.mark {n : ℕ} {u : Bool} (v : Bool) (h : Laid ram (xs ++ ⟨n, u⟩ :: ys)) :
    Laid (setUsed ram (total xs) (flag v)) (xs ++ ⟨n, v⟩ :: ys) := by
  have hhead : ptrToMem ram (total xs) = ⟨total xs + n, lastOf 0 0 xs, flag u⟩ := h.header
  obtain ⟨htot, hlen, hmod, -⟩ : total xs + n + total ys = memSizeAligned ∧ 20 ≤ n ∧
    n % 4 = 0 ∧ total xs % 4 = 0 := h.bound
  obtain ⟨-, hlink⟩ := linked_append.mp h.linked
  rw [Nat.zero_add] at hlink
  have hwy := (wide_cons.mp (wide_append.mp h.wide).2).2
  apply h.rebuild [⟨n, u⟩] [⟨n, v⟩]
  · intro i hi
    exact setUsed_apart ram (by omega)
  · refine ⟨?_, trivial⟩
    rw [ptrToMem_setUsed, hhead]
  · apply hlink.2.frame hwy
    intro i hi _
    exact setUsed_apart ram (.inr (by simp only at hi; omega))
  · exact ptrToMem_setUsed_apart ram (by omega)
  · rfl
  · exact wide_cons.mpr ⟨⟨hlen, hmod⟩, fun _ h => by cases h⟩

/-- Two free tiles become one. -/
theorem Laid.merge {m n : ℕ} (h : Laid ram (xs ++ ⟨m, false⟩ :: ⟨n, false⟩ :: ys)) :
    Laid (setNextPrev (setNext ram (total xs) (total xs + m + n)) (total xs + m + n) (total xs))
      (xs ++ ⟨m + n, false⟩ :: ys) := by
  have hhead : ptrToMem ram (total xs) = ⟨total xs + m, lastOf 0 0 xs, 0⟩ := h.header
  obtain ⟨htot, hlen, hmod, -⟩ : total xs + m + (n + total ys) = memSizeAligned ∧ 20 ≤ m ∧
    m % 4 = 0 ∧ total xs % 4 = 0 := h.bound
  have hwn : 20 ≤ n ∧ n % 4 = 0 := (wide_cons.mp (wide_cons.mp (wide_append.mp h.wide).2).2).1
  have hsize : memSizeAligned = 6144 := rfl
  have hmid : total [⟨m, false⟩, ⟨n, false⟩] = m + n := rfl
  have htold := @Laid.rebuild_told ram (setNext ram (total xs) (total xs + m + n)) xs ys
    [⟨m, false⟩, ⟨n, false⟩] [⟨m + n, false⟩] h
  rw [hmid, ← Nat.add_assoc] at htold
  apply htold
  · intro i hi
    exact setNext_apart ram (by omega)
  · refine ⟨?_, trivial⟩
    rw [ptrToMem_setNext ram (by omega), hhead, Nat.add_assoc]
    rfl
  · rfl
  · exact wide_cons.mpr ⟨by simp only; omega, fun _ h => by cases h⟩

/-- A stretch is split into a first tile of `need` bytes and a free one behind it. -/
theorem Laid.split (mid : List Tile) {need : ℕ} {u : Bool} (h : Laid ram (xs ++ (mid ++ ys)))
    (hout : ∀ i, i < total xs ∨ total xs + total mid ≤ i → ram' i = ram i)
    (hfirst : ptrToMem ram' (total xs) = ⟨total xs + need, lastOf 0 0 xs, flag u⟩)
    (hmem2 : ptrToMem ram' (total xs + need) = ⟨total xs + total mid, total xs, 0⟩)
    (hneed : 20 ≤ need) (hrest : need + 20 ≤ total mid) (hmod : need % 4 = 0) :
    Laid (setNextPrev ram' (total xs + total mid) (total xs + need))
      (xs ++ ⟨need, u⟩ :: ⟨total mid - need, false⟩ :: ys) := by
  have hmod' := total_mod (wide_append.mp (wide_append.mp h.wide).2).1
  apply h.rebuild_told mid [⟨need, u⟩, ⟨total mid - need, false⟩] hout
  · refine ⟨hfirst, ?_, trivial⟩
    have hend : total xs + need + (total mid - need) = total xs + total mid := by omega
    rw [hend]
    exact hmem2
  · simp only [total_cons, total_nil]
    omega
  · refine wide_cons.mpr ⟨⟨hneed, hmod⟩, wide_cons.mpr ⟨?_, fun _ h => by cases h⟩⟩
    simp only
    omega

end Laid

/-- The blocks as a walk over the headers finds them. -/
def rowFrom (ram : Memory) : ℕ → ℕ → List Tile
  | 0, _ => []
  | fuel + 1, ptr =>
    if ptr < memSizeAligned then
      ⟨(ptrToMem ram ptr).next - ptr, (ptrToMem ram ptr).used ≠ 0⟩ ::
        rowFrom ram fuel (ptrToMem ram ptr).next
    else []

def row (h : Heap) : List Tile := rowFrom h.ram memSizeAligned 0

section Row

variable {ram : Memory} {xs ys : List Tile}

theorem rowFrom_laid (hl : Laid ram (xs ++ ys)) {fuel : ℕ} (hfuel : ys.length ≤ fuel) :
    rowFrom ram fuel (total xs) = ys := by
  induction ys generalizing xs fuel with
  | nil =>
    have htot := hl.total_eq
    rw [List.append_nil] at htot
    cases fuel with
    | zero => rfl
    | succ fuel => rw [rowFrom, if_neg (by omega)]
  | cons t ys ih =>
    obtain ⟨fuel, rfl⟩ := Nat.exists_eq_succ_of_ne_zero (Nat.ne_of_gt (Nat.zero_lt_of_lt hfuel))
    obtain ⟨htot, hlen, -, -⟩ := hl.bound
    have happ : xs ++ t :: ys = (xs ++ [t]) ++ ys := by simp
    have hhead := hl.header
    rw [happ] at hl
    have hrest := ih hl (Nat.le_of_succ_le_succ hfuel)
    rw [total_append, total_cons, total_nil, Nat.add_zero] at hrest
    rw [rowFrom, if_pos (by omega), hhead, hrest]
    obtain ⟨n, u⟩ := t
    cases u with
    | true => simp [flag]
    | false => simp [flag]

theorem Laid.fuel (hl : Laid ram ys) : ys.length ≤ memSizeAligned := by
  have hlen := length_le_total hl.wide
  rw [hl.total_eq] at hlen
  omega

theorem row_tiled {h : Heap} (ht : Tiled h ys) : row h = ys :=
  @rowFrom_laid h.ram [] ys ht.toLaid memSizeAligned (Laid.fuel ht.toLaid)

end Row

end EthDriver.MemTiles

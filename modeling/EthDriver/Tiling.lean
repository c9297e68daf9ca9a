import Mathlib.Data.List.Chain
import Mathlib.Data.List.Basic
import Mathlib.Algebra.Order.Group.Nat

namespace EthDriver.Tiling

/-- One piece of a row that is cut into pieces without gaps. -/
structure Tile where
  len : ℕ
  used : Bool
  deriving DecidableEq

def total : List Tile → ℕ
  | [] => 0
  | t :: ts => t.len + total ts

/-- Where the first tile starts that is not used, and the end of the row if all are. -/
def firstFree : List Tile → ℕ
  | [] => 0
  | t :: ts => if t.used then t.len + firstFree ts else 0

/-- The used tiles of a row that starts at `a`, each with its start and its length. -/
def blocks : ℕ → List Tile → List (ℕ × ℕ)
  | _, [] => []
  | a, t :: ts => (if t.used then [(a, t.len)] else []) ++ blocks (a + t.len) ts

/-- No two tiles that are not used lie side by side. -/
def Settled (ts : List Tile) : Prop := ts.IsChain (fun s t => s.used ∨ t.used)

/-- The settled row that has the same used tiles. -/
def coalesce : List Tile → List Tile
  | [] => []
  | t :: ts =>
    match coalesce ts with
    | [] => [t]
    | n :: ns => if t.used || n.used then t :: n :: ns else ⟨t.len + n.len, false⟩ :: ns

/-- What becomes of a free tile of which `need` are taken: what is left over is a
tile of its own where it is at least `spare`. -/
def carve (need spare : ℕ) (t : Tile) : List Tile :=
  if need + spare ≤ t.len then [⟨need, true⟩, ⟨t.len - need, false⟩] else [⟨t.len, true⟩]

def Tile.fits (need : ℕ) (t : Tile) : Bool := !t.used && need ≤ t.len

/-- The first tile that fits gives way to its parts: where it starts, and the row afterwards. -/
def place (need spare : ℕ) : List Tile → Option (ℕ × List Tile)
  | [] => none
  | t :: ts =>
    if t.fits need then some (0, carve need spare t ++ ts)
    else (place need spare ts).map (fun r => (t.len + r.1, t :: r.2))

@[simp] theorem total_nil : total [] = 0 := rfl

@[simp] theorem total_cons (t : Tile) (ts : List Tile) : total (t :: ts) = t.len + total ts := rfl

@[simp] theorem total_append (xs ys : List Tile) : total (xs ++ ys) = total xs + total ys := by
  induction xs with
  | nil => simp
  | cons x xs ih => simp [ih, Nat.add_assoc]

@[simp] theorem blocks_nil (a : ℕ) : blocks a [] = [] := rfl

theorem blocks_cons (a : ℕ) (t : Tile) (ts : List Tile) :
    blocks a (t :: ts) = (if t.used then [(a, t.len)] else []) ++ blocks (a + t.len) ts := rfl

@[simp] theorem blocks_cons_used (a n : ℕ) (ts : List Tile) :
    blocks a (⟨n, true⟩ :: ts) = (a, n) :: blocks (a + n) ts := rfl

@[simp] theorem blocks_cons_free (a n : ℕ) (ts : List Tile) :
    blocks a (⟨n, false⟩ :: ts) = blocks (a + n) ts := rfl

@[simp] theorem blocks_append (a : ℕ) (xs ys : List Tile) :
    blocks a (xs ++ ys) = blocks a xs ++ blocks (a + total xs) ys := by
  induction xs generalizing a with
  | nil => simp
  | cons x xs ih => simp [blocks, ih, Nat.add_assoc]

theorem mem_blocks {a p n : ℕ} {ts : List Tile} :
    (p, n) ∈ blocks a ts ↔ ∃ xs ys, ts = xs ++ ⟨n, true⟩ :: ys ∧ p = a + total xs := by
  constructor
  · intro h
    induction ts generalizing a with
    | nil => cases h
    | cons t ts ih =>
      rw [blocks, List.mem_append] at h
      obtain here | later := h
      · obtain ⟨n', u⟩ := t
        cases u with
        | false => cases here
        | true =>
          cases List.mem_singleton.mp here
          exact ⟨[], ts, rfl, rfl⟩
      · obtain ⟨xs, ys, hts, hp⟩ := ih later
        exact ⟨t :: xs, ys, by rw [hts, List.cons_append], by rw [hp, total_cons, Nat.add_assoc]⟩
  · rintro ⟨xs, ys, rfl, rfl⟩
    simp

/-- No place where two tiles meet is inside a tile. -/
theorem boundary_apart {xs ys ws zs : List Tile} {t : Tile} (h : xs ++ t :: ys = ws ++ zs) :
    total ws ≤ total xs ∨ total xs + t.len ≤ total ws := by
  obtain ⟨cs, rfl, hcs⟩ | ⟨cs, rfl, -⟩ := List.append_eq_append_iff.mp h
  · cases cs with
    | nil => exact .inl (by simp)
    | cons c cs =>
      obtain ⟨rfl, -⟩ := List.cons.inj hcs
      refine .inr ?_
      rw [total_append, total_cons]
      omega
  · exact .inl (by simp)

theorem blocks_inside {a p n : ℕ} {ts : List Tile} (h : (p, n) ∈ blocks a ts) :
    a ≤ p ∧ p + n ≤ a + total ts := by
  obtain ⟨xs, ys, rfl, rfl⟩ := mem_blocks.mp h
  simp only [total_append, total_cons]
  omega

/-- The used tiles are in the order of their addresses, and apart. -/
theorem blocks_ordered (a : ℕ) (ts : List Tile) :
    (blocks a ts).Pairwise (fun b c => b.1 + b.2 ≤ c.1) := by
  induction ts generalizing a with
  | nil => exact List.Pairwise.nil
  | cons t ts ih =>
    rw [blocks]
    split
    · apply List.Pairwise.cons _ (ih _)
      rintro ⟨q, m⟩ hq
      exact (blocks_inside hq).1
    · exact ih _

theorem firstFree_cons (t : Tile) (ts : List Tile) :
    firstFree (t :: ts) = if t.used then t.len + firstFree ts else 0 := rfl

theorem firstFree_le (ts : List Tile) : firstFree ts ≤ total ts := by
  induction ts with
  | nil => exact Nat.le_refl 0
  | cons t ts ih =>
    rw [firstFree, total_cons]
    split
    · exact Nat.add_le_add_left ih t.len
    · exact Nat.zero_le _

theorem exists_firstFree (ts : List Tile) :
    ∃ xs ys, ts = xs ++ ys ∧ (∀ t ∈ xs, t.used) ∧ firstFree ts = total xs ∧
      ∀ t ∈ ys.head?, t.used = false := by
  induction ts with
  | nil => exact ⟨[], [], rfl, by simp, rfl, by simp⟩
  | cons t ts ih =>
    cases hu : t.used with
    | false => exact ⟨[], t :: ts, rfl, by simp, by simp [firstFree, hu], by simp [hu]⟩
    | true =>
      obtain ⟨xs, ys, hts, hall, hff, hhead⟩ := ih
      refine ⟨t :: xs, ys, by rw [hts, List.cons_append], ?_, ?_, hhead⟩
      · intro s hs
        obtain rfl | hs := List.mem_cons.mp hs
        · exact hu
        · exact hall s hs
      · rw [firstFree, if_pos hu, hff, total_cons]

theorem firstFree_append_used {xs ys : List Tile} (h : ∀ t ∈ xs, t.used) :
    firstFree (xs ++ ys) = total xs + firstFree ys := by
  induction xs with
  | nil => simp
  | cons x xs ih =>
    rw [List.cons_append, firstFree, if_pos (h x List.mem_cons_self),
      ih (fun t ht => h t (List.mem_cons_of_mem x ht)), total_cons, Nat.add_assoc]

/-- A free tile in front decides, whatever follows it. -/
theorem firstFree_append_free {xs : List Tile} (h : ¬∀ t ∈ xs, t.used) (ys : List Tile) :
    firstFree (xs ++ ys) = firstFree xs := by
  induction xs with
  | nil => simp at h
  | cons x xs ih =>
    rw [List.cons_append, firstFree, firstFree]
    split
    · next hx =>
      rw [ih]
      intro hall
      apply h
      intro t ht
      obtain rfl | ht := List.mem_cons.mp ht
      · exact hx
      · exact hall t ht
    · rfl

theorem firstFree_release (xs ys : List Tile) (n : ℕ) :
    firstFree (xs ++ ⟨n, false⟩ :: ys) = min (firstFree (xs ++ ⟨n, true⟩ :: ys)) (total xs) := by
  by_cases h : ∀ t ∈ xs, t.used
  · rw [firstFree_append_used h, firstFree_append_used h]
    simp [firstFree]
  · rw [firstFree_append_free h, firstFree_append_free h, Nat.min_eq_left (firstFree_le xs)]

theorem settled_append {xs ys : List Tile} :
    Settled (xs ++ ys) ↔
      Settled xs ∧ Settled ys ∧ ∀ x ∈ xs.getLast?, ∀ y ∈ ys.head?, x.used ∨ y.used :=
  List.isChain_append

theorem settled_cons {t : Tile} {ts : List Tile} :
    Settled (t :: ts) ↔ (∀ y ∈ ts.head?, t.used ∨ y.used) ∧ Settled ts :=
  List.isChain_cons

theorem settled_around_used {xs ys : List Tile} {n : ℕ} :
    Settled (xs ++ ⟨n, true⟩ :: ys) ↔ Settled xs ∧ Settled ys := by
  rw [settled_append, settled_cons]
  simp

theorem coalesce_of_settled {ts : List Tile} (h : Settled ts) : coalesce ts = ts := by
  induction ts with
  | nil => rfl
  | cons t ts ih =>
    obtain ⟨hhead, htail⟩ := settled_cons.mp h
    rw [coalesce, ih htail]
    cases ts with
    | nil => rfl
    | cons n ns => exact if_pos (by simpa using hhead n rfl)

/-- Two free tiles side by side count as one. -/
theorem coalesce_merge (xs ys : List Tile) (m n : ℕ) :
    coalesce (xs ++ ⟨m + n, false⟩ :: ys) = coalesce (xs ++ ⟨m, false⟩ :: ⟨n, false⟩ :: ys) := by
  induction xs with
  | nil =>
    simp only [List.nil_append]
    rw [coalesce, coalesce, coalesce]
    cases coalesce ys with
    | nil => simp
    | cons z zs => cases hz : z.used <;> simp [hz, Nat.add_assoc]
  | cons x xs ih => rw [List.cons_append, coalesce, ih, List.cons_append, coalesce]

@[simp] theorem blocks_coalesce (a : ℕ) (ts : List Tile) :
    blocks a (coalesce ts) = blocks a ts := by
  induction ts generalizing a with
  | nil => rfl
  | cons t ts ih =>
    have hnext := ih (a + t.len)
    rw [coalesce]
    split
    · next hco => rw [blocks_cons, blocks_cons, ← hnext, hco]
    · next n ns hco =>
      rw [hco] at hnext
      split
      · rw [blocks_cons, blocks_cons a t ts, hnext]
      · next hu =>
        simp only [Bool.or_eq_true, not_or, Bool.not_eq_true] at hu
        rw [blocks_cons, hu.2] at hnext
        rw [blocks_cons, blocks_cons a t ts, hu.1, ← hnext, Nat.add_assoc]
        rfl

@[simp] theorem firstFree_coalesce (ts : List Tile) : firstFree (coalesce ts) = firstFree ts := by
  induction ts with
  | nil => rfl
  | cons t ts ih =>
    rw [coalesce]
    split
    · next hco => rw [firstFree_cons, firstFree_cons, ← ih, hco]
    · next n ns hco =>
      rw [hco] at ih
      split
      · rw [firstFree_cons, firstFree_cons t ts, ih]
      · next hu =>
        simp only [Bool.or_eq_true, not_or] at hu
        rw [firstFree_cons, firstFree_cons, if_neg hu.1]
        rfl

/-- A settled row without a used tile is a single tile. -/
theorem eq_single {ts : List Tile} (hs : Settled ts) (hno : blocks 0 ts = []) (hne : ts ≠ []) :
    ts = [⟨total ts, false⟩] := by
  have hfree : ∀ t ∈ ts, t.used = false := by
    intro t ht
    obtain ⟨xs, ys, rfl⟩ := List.append_of_mem ht
    obtain ⟨n, u⟩ := t
    cases u with
    | false => rfl
    | true => simp at hno
  match ts, hs, hfree, hne with
  | [⟨n, u⟩], _, hfree, _ =>
    have hu : u = false := hfree ⟨n, u⟩ List.mem_cons_self
    rw [hu]
    rfl
  | s :: t :: ts, hs, hfree, _ =>
    have hor := (settled_cons.mp hs).1 t rfl
    simp [hfree s (by simp), hfree t (by simp)] at hor

theorem place_append (need spare : ℕ) {xs : List Tile} (h : ∀ t ∈ xs, t.fits need = false)
    (ys : List Tile) : place need spare (xs ++ ys) =
      (place need spare ys).map (fun r => (total xs + r.1, xs ++ r.2)) := by
  induction xs with
  | nil => simp
  | cons x xs ih =>
    rw [List.cons_append, place, h x List.mem_cons_self,
      ih fun t ht => h t (List.mem_cons_of_mem x ht), if_neg (by decide), Option.map_map]
    congr 1
    funext r
    simp [Nat.add_assoc]

theorem place_none {need : ℕ} (spare : ℕ) {ts : List Tile} (h : ∀ t ∈ ts, t.fits need = false) :
    place need spare ts = none := by
  have happ := place_append need spare h []
  rw [List.append_nil] at happ
  exact happ

theorem blocks_carve (a spare : ℕ) {need n : ℕ} (ys : List Tile) (h : need ≤ n) :
    ∃ n', need ≤ n' ∧ n' ≤ n ∧
      blocks a (carve need spare ⟨n, false⟩ ++ ys) = (a, n') :: blocks (a + n) ys := by
  rw [carve]
  split
  · refine ⟨need, Nat.le_refl need, h, ?_⟩
    have hsum : a + need + (n - need) = a + n := by omega
    simp [hsum]
  · exact ⟨n, h, Nat.le_refl n, rfl⟩

end EthDriver.Tiling

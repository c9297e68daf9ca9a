import EthDriver.Cyclic
import EthDriver.Queues
import EthDriver.Runs

namespace EthDriver.QueueDeque

open Bytes Cyclic Queues Runs

/-- Cell `k` of a storage area at `head` with cells of `size` bytes. -/
def cell (head size k : ℕ) : ℕ := head + k * size

@[simp] theorem cell_zero (head size : ℕ) : cell head size 0 = head := by
  simp [cell]

theorem cell_succ (head size k : ℕ) : cell head size (k + 1) = cell head size k + size := by
  simp only [cell, Nat.succ_mul]
  omega

theorem cell_le_iff {head size : ℕ} (hs : size ≠ 0) {j k : ℕ} :
    cell head size j ≤ cell head size k ↔ j ≤ k := by
  rw [cell, cell, Nat.add_le_add_iff_left]
  exact Nat.mul_le_mul_right_iff (Nat.pos_of_ne_zero hs)

/-- Different cells do not overlap. -/
theorem cells_apart (head size : ℕ) {j k : ℕ} (h : j ≠ k) :
    cell head size j + size ≤ cell head size k ∨ cell head size k + size ≤ cell head size j := by
  rw [← cell_succ, ← cell_succ]
  obtain hlt | hgt := Nat.lt_or_gt_of_ne h
  · exact .inl (Nat.add_le_add_left (Nat.mul_le_mul_right _ hlt) _)
  · exact .inr (Nat.add_le_add_left (Nat.mul_le_mul_right _ hgt) _)

section Pointers

variable {head size len r : ℕ}

/-- The step to the next cell, as both pointers take it. -/
theorem next_cell (hs : size ≠ 0) (hr : r < len) :
    (if cell head size len ≤ cell head size r + size then head else cell head size r + size) =
      cell head size ((r + 1) % len) := by
  rw [← cell_succ]
  by_cases hl : len ≤ r + 1
  · have he : r + 1 = len := by omega
    rw [if_pos ((cell_le_iff hs).mpr hl), he, Nat.mod_self, cell_zero]
  · rw [if_neg fun h => hl ((cell_le_iff hs).mp h), Nat.mod_eq_of_lt (by omega)]

/-- The step back that `queueSEND_TO_FRONT` takes with the read pointer. -/
theorem prev_cell (hs : size ≠ 0) (hr : r < len) :
    (if (cell head size r : ℤ) - size < head then cell head size len - size
      else cell head size r - size) = cell head size ((r + (len - 1)) % len) := by
  cases r with
  | zero =>
    have hlast := cell_succ head size (len - 1)
    rw [show len - 1 + 1 = len by omega] at hlast
    rw [cell_zero, if_pos (by omega), hlast, Nat.add_sub_cancel, Nat.zero_add,
      Nat.mod_eq_of_lt (by omega)]
  | succ r =>
    have hle : head ≤ cell head size r := Nat.le_add_right _ _
    rw [cell_succ, if_neg (by omega), Nat.add_sub_cancel,
      show r + 1 + (len - 1) = r + len by omega, Nat.add_mod_right, Nat.mod_eq_of_lt (by omega)]

theorem mod_ne {i j : ℕ} (lo : ℕ) (hi : i < len) (hj : j < len) (h : i ≠ j) :
    (lo + i) % len ≠ (lo + j) % len := by
  have : NeZero len := ⟨by omega⟩
  intro he
  have hlo := slot_inj lo (by omega) (by omega) (by omega) (by omega) (slot_eq_iff.mpr he)
  omega

end Pointers

/-- The cells behind cell `r` hold `items`, once round the storage area at most. -/
structure Stored (mem : Memory) (head size len r : ℕ) (items : List (List UInt8)) : Prop where
  start : r < len
  bound : items.length ≤ len
  sized : ∀ x ∈ items, x.length = size
  cells : ∀ i (h : i < items.length),
    read mem (cell head size ((r + 1 + i) % len)) size = items[i]

namespace Stored

variable {mem : Memory} {head size len r : ℕ} {items : List (List UInt8)} {x : List UInt8}

theorem nil (mem : Memory) (head size : ℕ) (hr : r < len) : Stored mem head size len r [] where
  start := hr
  bound := Nat.zero_le _
  sized _ hx := absurd hx List.not_mem_nil
  cells _ hi := absurd hi (Nat.not_lt_zero _)

theorem append (h : Stored mem head size len r items) (hroom : items.length < len)
    (hx : x.length = size) :
    Stored (write mem (cell head size ((r + 1 + items.length) % len)) x) head size len r
      (items ++ [x]) where
  start := h.start
  bound := by rwa [List.length_append, List.length_singleton]
  sized y hy := by
    rcases List.mem_append.mp hy with hy | hy
    · exact h.sized y hy
    · rw [List.mem_singleton.mp hy, hx]
  cells i hi := by
    rw [List.length_append, List.length_singleton] at hi
    obtain hlt | hge := Nat.lt_or_ge i items.length
    · have hne := mod_ne (r + 1) (Nat.lt_trans hlt hroom) hroom (Nat.ne_of_lt hlt)
      rw [read_write_apart _ _ (by rw [hx]; exact cells_apart head size hne), h.cells i hlt,
        List.getElem_append_left hlt]
    · obtain rfl : i = items.length := by omega
      have hback := read_write mem (cell head size ((r + 1 + items.length) % len)) x
      rw [hx] at hback
      rw [hback, List.getElem_append_right (Nat.le_refl _)]
      simp

/-- The cell that is read next holds the oldest item. -/
theorem head_eq (h : Stored mem head size len r (x :: items)) :
    read mem (cell head size ((r + 1) % len)) size = x :=
  h.cells 0 (Nat.succ_pos _)

theorem tail (h : Stored mem head size len r (x :: items)) :
    Stored mem head size len ((r + 1) % len) items where
  start := Nat.mod_lt _ (Nat.zero_lt_of_lt h.start)
  bound := Nat.le_of_succ_le h.bound
  sized y hy := h.sized y (List.mem_cons_of_mem x hy)
  cells i hi := by
    have hnext := h.cells (i + 1) (Nat.succ_lt_succ hi)
    rw [List.getElem_cons_succ] at hnext
    rw [← hnext, Nat.add_assoc, Nat.mod_add_mod, Nat.add_comm i 1]

theorem cons (h : Stored mem head size len r items) (hroom : items.length < len)
    (hx : x.length = size) :
    Stored (write mem (cell head size r) x) head size len ((r + (len - 1)) % len)
      (x :: items) where
  start := Nat.mod_lt _ (Nat.zero_lt_of_lt h.start)
  bound := hroom
  sized y hy := by
    rcases List.mem_cons.mp hy with hy | hy
    · rw [hy, hx]
    · exact h.sized y hy
  cells i hi := by
    have hr := h.start
    have hback : ((r + (len - 1)) % len + 1 + i) % len = (r + i) % len := by
      rw [Nat.add_assoc, Nat.mod_add_mod, show r + (len - 1) + (1 + i) = r + i + len by omega,
        Nat.add_mod_right]
    rw [hback]
    cases i with
    | zero =>
      have hfront := read_write mem (cell head size r) x
      rw [hx] at hfront
      rw [Nat.add_zero, Nat.mod_eq_of_lt hr, hfront, List.getElem_cons_zero]
    | succ i =>
      have hlt : i < items.length := Nat.lt_of_succ_lt_succ hi
      have hi' : i + 1 < len := Nat.lt_of_le_of_lt hlt hroom
      have hne := mod_ne r hi' (Nat.zero_lt_of_lt hi') (Nat.succ_ne_zero i)
      rw [Nat.add_zero r, Nat.mod_eq_of_lt hr] at hne
      rw [read_write_apart _ _ (by rw [hx]; exact cells_apart head size hne),
        List.getElem_cons_succ, ← h.cells i hlt, Nat.add_comm i 1, Nat.add_assoc]

end Stored

/-- The queue holds `items`, the oldest first: they fill the cells behind the one that
`pcReadFrom` points to, and `pcWriteTo` points to the next cell behind them. -/
def Holds (q : Queue) (items : List (List UInt8)) : Prop :=
  ∃ r, Stored q.mem q.pcHead q.uxItemSize q.uxLength r items ∧
    q.uxMessagesWaiting = items.length ∧
    q.pcTail = cell q.pcHead q.uxItemSize q.uxLength ∧
    q.pcReadFrom = cell q.pcHead q.uxItemSize r ∧
    q.pcWriteTo = cell q.pcHead q.uxItemSize ((r + 1 + items.length) % q.uxLength)

namespace Holds

variable {q : Queue} {items : List (List UInt8)} {x : List UInt8} (hs : q.uxItemSize ≠ 0)

theorem count (h : Holds q items) : q.uxMessagesWaiting = items.length := by
  obtain ⟨r, -, hcount, -⟩ := h
  exact hcount

theorem bound (h : Holds q items) : items.length ≤ q.uxLength := by
  obtain ⟨r, hst, -⟩ := h
  exact hst.bound

theorem room_iff (h : Holds q items) :
    q.uxMessagesWaiting < q.uxLength ↔ items.length < q.uxLength := by
  rw [h.count]

/-- A queue that was reset is empty, and the first item goes into its first cell. -/
theorem reset (q : Queue) (hl : 0 < q.uxLength) : Holds (reset q) [] := by
  refine ⟨q.uxLength - 1, Stored.nil _ _ _ (Nat.sub_lt hl Nat.one_pos), rfl, rfl, rfl, ?_⟩
  rw [List.length_nil, Nat.add_zero, Nat.sub_add_cancel hl]
  change q.pcHead = cell q.pcHead q.uxItemSize (q.uxLength % q.uxLength)
  rw [Nat.mod_self, cell_zero]

include hs

theorem sendToBack (h : Holds q items) (hroom : items.length < q.uxLength) (item : Memory) :
    Holds (prvCopyDataToQueue q item .sendToBack) (items ++ [read item 0 q.uxItemSize]) := by
  obtain ⟨r, hst, hcount, htail, hread, hwrite⟩ := h
  have hw : (r + 1 + items.length) % q.uxLength < q.uxLength :=
    Nat.mod_lt _ (Nat.zero_lt_of_lt hst.start)
  rw [prvCopyDataToQueue, if_neg hs, if_pos rfl, hwrite, htail, next_cell hs hw, hcount]
  refine ⟨r, hst.append hroom (read_length item 0 _), ?_, rfl, hread, ?_⟩
  · rw [List.length_append, List.length_singleton]
  · rw [List.length_append, List.length_singleton, Nat.mod_add_mod, Nat.add_assoc]

theorem sendToFront (h : Holds q items) (hroom : items.length < q.uxLength) (item : Memory) :
    Holds (prvCopyDataToQueue q item .sendToFront) (read item 0 q.uxItemSize :: items) := by
  obtain ⟨r, hst, hcount, htail, hread, hwrite⟩ := h
  rw [prvCopyDataToQueue, if_neg hs, if_neg Position.noConfusion, hread, htail,
    prev_cell hs hst.start, hcount, if_neg fun h => Position.noConfusion h.1]
  refine ⟨_, hst.cons hroom (read_length item 0 _), rfl, rfl, rfl, ?_⟩
  have hr := hst.start
  rw [hwrite, List.length_cons, Nat.add_assoc, Nat.add_assoc, Nat.mod_add_mod,
    show r + (q.uxLength - 1) + (1 + (items.length + 1)) =
      r + (1 + items.length) + q.uxLength by omega, Nat.add_mod_right]

/-- In a queue of one item both pointers stay on the only cell, and the count is put right
whether or not there was an item. -/
theorem overwrite (h : Holds q items) (hone : q.uxLength = 1) (item : Memory) :
    Holds (prvCopyDataToQueue q item .overwrite) [read item 0 q.uxItemSize] := by
  obtain ⟨r, hst, hcount, htail, hread, hwrite⟩ := h
  have hr := hst.start
  have hle := hst.bound
  have hempty := Stored.nil q.mem q.pcHead q.uxItemSize hr
  rw [prvCopyDataToQueue, if_neg hs, if_neg Position.noConfusion, hread, htail,
    prev_cell hs hr, hcount]
  refine ⟨_, hempty.cons (by rw [hone]; exact Nat.one_pos) (read_length item 0 _), ?_, rfl, rfl, ?_⟩
  · simp only [true_and, List.length_singleton]
    split <;> omega
  · rw [hwrite]
    simp [hone, Nat.mod_one]

/-- `prvCopyDataFromQueue` copies the oldest item and moves the read pointer on. -/
theorem copyDataFromQueue (h : Holds q (x :: items)) :
    (prvCopyDataFromQueue q).2 = x ∧
      Holds { (prvCopyDataFromQueue q).1 with uxMessagesWaiting := items.length } items := by
  obtain ⟨r, hst, hcount, htail, hread, hwrite⟩ := h
  simp only [prvCopyDataFromQueue, if_neg hs, hread, htail, next_cell hs hst.start]
  refine ⟨hst.head_eq, _, hst.tail, rfl, rfl, rfl, ?_⟩
  rw [hwrite, List.length_cons, Nat.add_assoc ((r + 1) % q.uxLength), Nat.mod_add_mod,
    Nat.add_comm 1]

end Holds

section Frame

theorem write_outside {mem : Memory} {head size len k a : ℕ} {x : List UInt8} (hk : k < len)
    (hx : x.length = size) (ha : a < head ∨ cell head size len ≤ a) :
    write mem (cell head size k) x a = mem a := by
  apply write_apart
  have hlo : head ≤ cell head size k := Nat.le_add_right _ _
  have hhi : cell head size k + x.length ≤ cell head size len := by
    rw [hx, ← cell_succ]
    exact Nat.add_le_add_left (Nat.mul_le_mul_right size hk) head
  omega

variable {q : Queue} (item : Memory) (pos : Position) {items : List (List UInt8)}

/-- An item goes into one of the cells. -/
theorem Holds.copyTo_mem (h : Holds q items) (hs : q.uxItemSize ≠ 0) {a : ℕ}
    (ha : a < q.pcHead ∨ cell q.pcHead q.uxItemSize q.uxLength ≤ a) :
    (prvCopyDataToQueue q item pos).mem a = q.mem a := by
  obtain ⟨r, hst, -, -, hread, hwrite⟩ := h
  rw [prvCopyDataToQueue, if_neg hs]
  split
  · change write q.mem q.pcWriteTo _ a = _
    rw [hwrite]
    exact write_outside (Nat.mod_lt _ (Nat.zero_lt_of_lt hst.start)) (read_length item 0 _) ha
  · change write q.mem q.pcReadFrom _ a = _
    rw [hread]
    exact write_outside hst.start (read_length item 0 _) ha

end Frame

/-- The calls on a queue, with a block time of zero. -/
inductive Act
  | send (item : Memory) (xCopyPosition : Position)
  | receive
  | peek
  | reset

/-- `pdPASS`, without or with the item that was copied, or `errQUEUE_FULL` and
`errQUEUE_EMPTY`. -/
inductive Reply
  | passed
  | item (bytes : List UInt8)
  | refused
  deriving DecidableEq

/-- A call on the queue. Where it stops the program on a `configASSERT` it is `none`. -/
def call (q : Queue) : Act → Option (Queue × Reply)
  | .send item xCopyPosition =>
    if xCopyPosition = .overwrite ∧ q.uxLength ≠ 1 then none
    else
      match send q item xCopyPosition with
      | some q' => some (q', .passed)
      | none => some (q, .refused)
  | .receive =>
    match receive q with
    | some (q', bytes) => some (q', .item bytes)
    | none => some (q, .refused)
  | .peek =>
    match peek q with
    | some (q', bytes) => some (q', .item bytes)
    | none => some (q, .refused)
  | .reset => (xQueueGenericReset q).map fun q' => (q', .passed)

/-- The same calls on a list of at most `len` items of `size` bytes. -/
def dequeCall (len size : ℕ) (items : List (List UInt8)) : Act → Option (List (List UInt8) × Reply)
  | .send item .sendToBack =>
    some (if items.length < len then (items ++ [read item 0 size], .passed) else (items, .refused))
  | .send item .sendToFront =>
    some (if items.length < len then (read item 0 size :: items, .passed) else (items, .refused))
  | .send item .overwrite => if len = 1 then some ([read item 0 size], .passed) else none
  | .receive =>
    match items with
    | [] => some ([], .refused)
    | x :: items => some (items, .item x)
  | .peek =>
    match items with
    | [] => some ([], .refused)
    | x :: items => some (x :: items, .item x)
  | .reset => some ([], .passed)

/-- The queue with its storage area at `head` holds `items`, and outside of that area the
memory is still `mem`. -/
structure Represents (head len size : ℕ) (mem : Memory) (q : Queue) (items : List (List UInt8)) :
    Prop where
  holds : Holds q items
  pcHead : q.pcHead = head
  uxLength : q.uxLength = len
  uxItemSize : q.uxItemSize = size
  outside : ∀ a, a < head ∨ cell head size len ≤ a → q.mem a = mem a

namespace Represents

variable {head len size : ℕ} {mem : Memory} {q : Queue} {items : List (List UInt8)}
  (hs : size ≠ 0)

include hs

theorem sent (h : Represents head len size mem q items) {item : Memory} {pos : Position}
    {items' : List (List UInt8)} (hq : Holds (prvCopyDataToQueue q item pos) items') :
    Represents head len size mem (prvCopyDataToQueue q item pos) items' where
  holds := hq
  pcHead := by rw [copyTo_pcHead, h.pcHead]
  uxLength := by rw [copyTo_uxLength, h.uxLength]
  uxItemSize := by rw [copyTo_uxItemSize, h.uxItemSize]
  outside a ha := by
    rw [← h.pcHead, ← h.uxItemSize, ← h.uxLength] at ha
    rw [h.holds.copyTo_mem item pos (by rwa [h.uxItemSize]) ha]
    apply h.outside
    rwa [← h.pcHead, ← h.uxItemSize, ← h.uxLength]

theorem call_send (h : Represents head len size mem q items) (item : Memory) (pos : Position) :
    Option.Rel (fun p p' => Represents head len size mem p.1 p'.1 ∧ p.2 = p'.2)
      (call q (.send item pos)) (dequeCall len size items (.send item pos)) := by
  obtain rfl := h.uxItemSize
  obtain rfl := h.uxLength
  have hroom := h.holds.room_iff
  rw [call, Queues.send]
  cases pos with
  | sendToBack =>
    rw [if_neg fun h => Position.noConfusion h.1, dequeCall]
    by_cases hlt : items.length < q.uxLength
    · rw [if_pos (.inl (hroom.mpr hlt)), if_pos hlt]
      exact .some ⟨h.sent hs (h.holds.sendToBack hs hlt item), rfl⟩
    · rw [if_neg (by simpa [hroom] using hlt), if_neg hlt]
      exact .some ⟨h, rfl⟩
  | sendToFront =>
    rw [if_neg fun h => Position.noConfusion h.1, dequeCall]
    by_cases hlt : items.length < q.uxLength
    · rw [if_pos (.inl (hroom.mpr hlt)), if_pos hlt]
      exact .some ⟨h.sent hs (h.holds.sendToFront hs hlt item), rfl⟩
    · rw [if_neg (by simpa [hroom] using hlt), if_neg hlt]
      exact .some ⟨h, rfl⟩
  | overwrite =>
    rw [dequeCall]
    by_cases hone : q.uxLength = 1
    · rw [if_neg fun h => h.2 hone, if_pos (.inr rfl), if_pos hone]
      exact .some ⟨h.sent hs (h.holds.overwrite hs hone item), rfl⟩
    · rw [if_pos ⟨rfl, hone⟩, if_neg hone]
      exact .none

theorem call_receive (h : Represents head len size mem q items) :
    Option.Rel (fun p p' => Represents head len size mem p.1 p'.1 ∧ p.2 = p'.2)
      (call q .receive) (dequeCall len size items .receive) := by
  have hs' : q.uxItemSize ≠ 0 := by rwa [h.uxItemSize]
  have hcount := h.holds.count
  rw [call, Queues.receive]
  cases items with
  | nil =>
    rw [if_neg (by rw [hcount]; exact Nat.lt_irrefl 0)]
    exact .some ⟨h, rfl⟩
  | cons x items =>
    obtain ⟨hx, hrest⟩ := h.holds.copyDataFromQueue hs'
    rw [if_pos (by rw [hcount]; exact Nat.succ_pos _), hcount, List.length_cons,
      Nat.add_sub_cancel, hx]
    refine .some ⟨⟨hrest, ?_, ?_, ?_, ?_⟩, rfl⟩
    all_goals rw [copyFrom_eq]
    · exact h.pcHead
    · exact h.uxLength
    · exact h.uxItemSize
    · exact h.outside

omit hs in
/-- Only what is copied depends on the read pointer that `xQueuePeek` moves and puts back. -/
theorem peek_eq (q : Queue) :
    { (prvCopyDataFromQueue q).1 with pcReadFrom := q.pcReadFrom } = q := by
  rw [copyFrom_eq]

theorem call_peek (h : Represents head len size mem q items) :
    Option.Rel (fun p p' => Represents head len size mem p.1 p'.1 ∧ p.2 = p'.2)
      (call q .peek) (dequeCall len size items .peek) := by
  have hs' : q.uxItemSize ≠ 0 := by rwa [h.uxItemSize]
  have hcount := h.holds.count
  rw [call, Queues.peek]
  cases items with
  | nil =>
    rw [if_neg (by rw [hcount]; exact Nat.lt_irrefl 0)]
    exact .some ⟨h, rfl⟩
  | cons x items =>
    obtain ⟨hx, -⟩ := h.holds.copyDataFromQueue hs'
    rw [if_pos (by rw [hcount]; exact Nat.succ_pos _), peek_eq, hx]
    exact .some ⟨h, rfl⟩

omit hs in
theorem call_reset (h : Represents head len size mem q items) (hl : 0 < len)
    (hmax : size ≤ sizeMax / len) :
    Option.Rel (fun p p' => Represents head len size mem p.1 p'.1 ∧ p.2 = p'.2)
      (call q .reset) (dequeCall len size items .reset) := by
  rw [← h.uxLength] at hl
  rw [call, xQueueGenericReset, if_pos ⟨hl, by rwa [h.uxItemSize, h.uxLength]⟩]
  exact .some ⟨⟨Holds.reset q hl, h.pcHead, h.uxLength, h.uxItemSize, h.outside⟩, rfl⟩

theorem call_simulates (hl : 0 < len) (hmax : size ≤ sizeMax / len) (q : Queue)
    (items : List (List UInt8)) (a : Act) (h : Represents head len size mem q items) :
    Option.Rel (fun p p' => Represents head len size mem p.1 p'.1 ∧ p.2 = p'.2)
      (call q a) (dequeCall len size items a) := by
  cases a with
  | send item pos => exact h.call_send hs item pos
  | receive => exact h.call_receive hs
  | peek => exact h.call_peek hs
  | reset => exact h.call_reset hl hmax

end Represents

/-- A queue of `len` items of `size` bytes that was just created is a double-ended list of
at most `len` items: in every sequence of calls each call answers as it does on the list, the
program stops at the same call if it stops at all, and no byte outside the storage area behind
the `Queue_t` changes. -/
theorem created_queue_is_bounded_deque {len size block : ℕ} {mem : Memory} {q : Queue}
    (hs : size ≠ 0) (hq : xQueueGenericCreate len size (some block) mem = some q)
    (as : List Act) :
    outputs (callStep call) (callReply call) (some q) as =
        outputs (callStep (dequeCall len size)) (callReply (dequeCall len size)) (some []) as ∧
      (run (callStep call) (some q) as).isSome =
        (run (callStep (dequeCall len size)) (some []) as).isSome ∧
      ∀ q' ∈ run (callStep call) (some q) as, ∀ a,
        a < block + sizeofQueue ∨ block + sizeofQueue + len * size ≤ a → q'.mem a = mem a := by
  rw [xQueueGenericCreate] at hq
  split at hq
  · rename_i hok
    obtain ⟨hl, hmax, -⟩ := hok
    obtain rfl := Option.some.inj hq
    have hnew : Represents (block + sizeofQueue) len size mem
        (prvInitialiseNewQueue len size block mem) [] :=
      ⟨Holds.reset _ hl, if_neg hs, rfl, rfl, fun _ _ => rfl⟩
    obtain ⟨hend, hout⟩ :=
      calls_simulate (Represents.call_simulates hs hl hmax) (.some hnew) as
    refine ⟨hout, ?_, ?_⟩
    · generalize run _ _ as = s at hend ⊢
      generalize run _ _ as = t at hend ⊢
      cases hend <;> rfl
    · intro q' hq' a ha
      rw [Option.mem_def.mp hq'] at hend
      generalize run _ _ as = t at hend
      cases hend with
      | some h => exact h.outside a ha
  · cases hq

/-- The mailbox of the stack, sixteen pointers: a message comes out again and the mailbox is
empty. -/
theorem mailbox_returns_message : ∃ q,
    xQueueGenericCreate 16 4 (some 536870912) (fun _ => 0) = some q ∧
      outputs (callStep call) (callReply call) (some q)
        [.send (fun _ => 7) .sendToBack, .receive, .receive] =
          [.passed, .item [7, 7, 7, 7], .refused] := by
  have hq : xQueueGenericCreate 16 4 (some 536870912) (fun _ => 0) =
      some (prvInitialiseNewQueue 16 4 536870912 fun _ => 0) := rfl
  refine ⟨_, hq, ?_⟩
  rw [(created_queue_is_bounded_deque (by decide) hq _).1]
  rfl

end EthDriver.QueueDeque

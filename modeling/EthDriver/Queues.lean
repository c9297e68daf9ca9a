import EthDriver.Bytes
import Mathlib.Data.Int.Basic

namespace EthDriver.Queues

open Bytes

/-- `Queue_t` without its event lists, beside the memory it lives in. Addresses are
numbers; `pcTail` and `pcReadFrom` are the members of the union that a queue uses. -/
structure Queue where
  pcHead : ℕ
  pcWriteTo : ℕ
  pcTail : ℕ
  pcReadFrom : ℕ
  uxMessagesWaiting : ℕ
  uxLength : ℕ
  uxItemSize : ℕ
  mem : Memory

inductive Position
  | sendToBack
  | sendToFront
  | overwrite
  deriving DecidableEq

def sizeMax : ℕ := 2 ^ 32 - 1

/-- `sizeof( Queue_t )`: seven words, two lists of five words each, and the two lock bytes
with their padding. -/
def sizeofQueue : ℕ := 72

def reset (q : Queue) : Queue :=
  { q with
    pcTail := q.pcHead + q.uxLength * q.uxItemSize
    uxMessagesWaiting := 0
    pcWriteTo := q.pcHead
    pcReadFrom := q.pcHead + (q.uxLength - 1) * q.uxItemSize }

def xQueueGenericReset (q : Queue) : Option Queue :=
  if 1 ≤ q.uxLength ∧ q.uxItemSize ≤ sizeMax / q.uxLength then some (reset q) else none

def prvInitialiseNewQueue (uxQueueLength uxItemSize pxNewQueue : ℕ) (mem : Memory) : Queue :=
  reset
    { pcHead := if uxItemSize = 0 then pxNewQueue else pxNewQueue + sizeofQueue
      pcWriteTo := 0
      pcTail := 0
      pcReadFrom := 0
      uxMessagesWaiting := 0
      uxLength := uxQueueLength
      uxItemSize := uxItemSize
      mem := mem }

/-- `xQueueGenericCreate`, where `block` is what `pvPortMalloc` returns. -/
def xQueueGenericCreate (uxQueueLength uxItemSize : ℕ) (block : Option ℕ) (mem : Memory) :
    Option Queue :=
  if 0 < uxQueueLength ∧ uxItemSize ≤ sizeMax / uxQueueLength ∧
      uxQueueLength * uxItemSize ≤ sizeMax - sizeofQueue then
    block.map fun pxNewQueue => prvInitialiseNewQueue uxQueueLength uxItemSize pxNewQueue mem
  else none

def prvCopyDataToQueue (q : Queue) (item : Memory) (xPosition : Position) : Queue :=
  if q.uxItemSize = 0 then { q with uxMessagesWaiting := q.uxMessagesWaiting + 1 }
  else if xPosition = .sendToBack then
    { q with
      mem := write q.mem q.pcWriteTo (read item 0 q.uxItemSize)
      pcWriteTo :=
        if q.pcTail ≤ q.pcWriteTo + q.uxItemSize then q.pcHead else q.pcWriteTo + q.uxItemSize
      uxMessagesWaiting := q.uxMessagesWaiting + 1 }
  else
    { q with
      mem := write q.mem q.pcReadFrom (read item 0 q.uxItemSize)
      -- the pointer is compared after the subtraction, which a `ℕ` does not carry below zero
      pcReadFrom :=
        if (q.pcReadFrom : ℤ) - q.uxItemSize < q.pcHead then q.pcTail - q.uxItemSize
        else q.pcReadFrom - q.uxItemSize
      uxMessagesWaiting :=
        (if xPosition = .overwrite ∧ 0 < q.uxMessagesWaiting then q.uxMessagesWaiting - 1
          else q.uxMessagesWaiting) + 1 }

def prvCopyDataFromQueue (q : Queue) : Queue × List UInt8 :=
  if q.uxItemSize = 0 then (q, [])
  else
    let pcReadFrom :=
      if q.pcTail ≤ q.pcReadFrom + q.uxItemSize then q.pcHead else q.pcReadFrom + q.uxItemSize
    ({ q with pcReadFrom := pcReadFrom }, read q.mem pcReadFrom q.uxItemSize)

/-- The critical section of `xQueueGenericSend`, the same as in `xQueueGenericSendFromISR`.
Those below are the ones of `xQueueReceive`, of `xQueuePeek`, of `xQueueSemaphoreTake` on a
semaphore that is not a mutex, and of `xQueueGiveFromISR`; `none` is a queue without room or
without an item. -/
def send (q : Queue) (item : Memory) (xCopyPosition : Position) : Option Queue :=
  if q.uxMessagesWaiting < q.uxLength ∨ xCopyPosition = .overwrite then
    some (prvCopyDataToQueue q item xCopyPosition)
  else none

def receive (q : Queue) : Option (Queue × List UInt8) :=
  if 0 < q.uxMessagesWaiting then
    some ({ (prvCopyDataFromQueue q).1 with uxMessagesWaiting := q.uxMessagesWaiting - 1 },
      (prvCopyDataFromQueue q).2)
  else none

def peek (q : Queue) : Option (Queue × List UInt8) :=
  if 0 < q.uxMessagesWaiting then
    some ({ (prvCopyDataFromQueue q).1 with pcReadFrom := q.pcReadFrom },
      (prvCopyDataFromQueue q).2)
  else none

def prvIsQueueEmpty (q : Queue) : Bool := q.uxMessagesWaiting == 0

def prvIsQueueFull (q : Queue) : Bool := q.uxMessagesWaiting == q.uxLength

def take (q : Queue) : Option Queue :=
  if 0 < q.uxMessagesWaiting then some { q with uxMessagesWaiting := q.uxMessagesWaiting - 1 }
  else none

def give (q : Queue) : Option Queue :=
  if q.uxMessagesWaiting < q.uxLength then
    some { q with uxMessagesWaiting := q.uxMessagesWaiting + 1 }
  else none

section Frame

variable (q : Queue) (item : Memory) (pos : Position)

@[simp] theorem copyTo_pcHead : (prvCopyDataToQueue q item pos).pcHead = q.pcHead := by
  unfold prvCopyDataToQueue
  split_ifs <;> rfl

@[simp] theorem copyTo_uxLength : (prvCopyDataToQueue q item pos).uxLength = q.uxLength := by
  unfold prvCopyDataToQueue
  split_ifs <;> rfl

@[simp] theorem copyTo_uxItemSize :
    (prvCopyDataToQueue q item pos).uxItemSize = q.uxItemSize := by
  unfold prvCopyDataToQueue
  split_ifs <;> rfl

theorem copyFrom_eq : (prvCopyDataFromQueue q).1 =
    { q with pcReadFrom := (prvCopyDataFromQueue q).1.pcReadFrom } := by
  unfold prvCopyDataFromQueue
  split_ifs <;> rfl

theorem copyTo_count {pos : Position} (hp : pos ≠ .overwrite) :
    (prvCopyDataToQueue q item pos).uxMessagesWaiting = q.uxMessagesWaiting + 1 := by
  unfold prvCopyDataToQueue
  simp only [hp, false_and, if_false]
  split_ifs <;> rfl

end Frame

end EthDriver.Queues

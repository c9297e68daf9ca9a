import EthDriver.Queues
import EthDriver.Runs
import Mathlib.Logic.Function.Basic

namespace EthDriver.QueueBlocking

open Bytes Queues

/-- Sending needs room and receiving needs an item; what one of them uses up the other
provides. -/
inductive Dir
  | send
  | receive
  deriving DecidableEq

def Dir.other : Dir → Dir
  | .send => .receive
  | .receive => .send

/-- `xQueueGenericSend` to one of the two ends, or `xQueueReceive`. On a semaphore they are
`xSemaphoreGive` and `xQueueSemaphoreTake`. `queueOVERWRITE` and `xQueueGenericReset` are not
among the calls. -/
inductive Call
  | send (item : Memory) (front : Bool)
  | receive

def Call.dir : Call → Dir
  | .send _ _ => .send
  | .receive => .receive

def Call.transfer (q : Queue) : Call → Option Queue
  | .send item front => Queues.send q item (if front then .sendToFront else .sendToBack)
  | .receive => (Queues.receive q).map Prod.fst

theorem transfer_give {q : Queue} (h : q.uxItemSize = 0) (item : Memory) (front : Bool) :
    Call.transfer q (.send item front) = give q := by
  have hpos : (if front then Position.sendToFront else .sendToBack) ≠ .overwrite := by
    cases front with
    | true => exact Position.noConfusion
    | false => exact Position.noConfusion
  simp only [Call.transfer, Queues.send, give, prvCopyDataToQueue, h, hpos, or_false, if_true]

theorem transfer_take {q : Queue} (h : q.uxItemSize = 0) :
    Call.transfer q .receive = take q := by
  simp only [Call.transfer, Queues.receive, take, prvCopyDataFromQueue, h, if_true]
  split
  · rfl
  · rfl

def Call.stuck (q : Queue) : Call → Bool
  | .send _ _ => prvIsQueueFull q
  | .receive => prvIsQueueEmpty q

def avail (q : Queue) : Dir → ℕ
  | .send => q.uxLength - q.uxMessagesWaiting
  | .receive => q.uxMessagesWaiting

inductive After
  | block
  | retry
  | expired
  deriving DecidableEq

/-- Where a task is in the loop of `xQueueGenericSend` or `xQueueReceive`, one point for each
critical section and for each call that suspends or resumes the scheduler. `block` is whether
`xTicksToWait` is not zero. -/
inductive Pc
  | idle
  | attempt (c : Call) (block : Bool)
  | suspend (c : Call)
  | lock (c : Call)
  | checkTimeOut (c : Call)
  | checkQueue (c : Call)
  | place (c : Call)
  | unlockTx (c : Call) (k : After)
  | unlockRx (c : Call) (k : After)
  | resume (c : Call) (k : After)
  | waiting (c : Call)
  | recheck (c : Call)

/-- A queue and the tasks `T` that use it. `waiting` is `xTasksWaitingToSend` and
`xTasksWaitingToReceive`; `lock .receive` is `cTxLock`, since it counts items for those who
wait to receive, and `lock .send` is `cRxLock`, with `none` for `queueUNLOCKED`. `suspended` is
the task that suspended the scheduler. `stopped` is a `configASSERT` that failed. -/
structure State (T : Type) where
  queue : Queue
  waiting : Dir → List T
  lock : Dir → Option ℕ
  suspended : Option T
  pc : T → Pc
  stopped : Bool

variable {T : Type}

def listInsert (priority : T → ℕ) (t : T) : List T → List T
  | [] => [t]
  | u :: us => if priority t ≤ priority u then u :: listInsert priority t us else t :: u :: us

theorem listInsert_perm (priority : T → ℕ) (t : T) (us : List T) :
    (listInsert priority t us).Perm (t :: us) := by
  induction us with
  | nil => exact .refl _
  | cons u us ih =>
    rw [listInsert]
    split
    · exact (ih.cons u).trans (.swap t u us)
    · exact .refl _

namespace State

/-- `xTaskRemoveFromEventList`, if there is a task on the list. -/
def wake (s : State T) (d : Dir) : State T :=
  { s with waiting := Function.update s.waiting d (s.waiting d).tail }

/-- `vTaskPlaceOnEventList`. -/
def enqueue (s : State T) (priority : T → ℕ) (d : Dir) (t : T) : State T :=
  { s with waiting := Function.update s.waiting d (listInsert priority t (s.waiting d)) }

def lockQueue (s : State T) : State T :=
  { s with lock := fun d => some ((s.lock d).getD 0) }

def unlockLoop (d : Dir) : ℕ → State T → State T
  | 0, s => s
  | k + 1, s => if (s.waiting d).isEmpty then s else unlockLoop d k (s.wake d)

/-- One half of `prvUnlockQueue`. -/
def unlockQueue (s : State T) (d : Dir) : State T :=
  { unlockLoop d ((s.lock d).getD 0) s with lock := Function.update s.lock d none }

section Lists

variable {s : State T}

theorem wake_self (d : Dir) : (s.wake d).waiting d = (s.waiting d).tail := by
  simp [wake]

theorem wake_ne {d e : Dir} (h : e ≠ d) : (s.wake d).waiting e = s.waiting e := by
  simp [wake, h]

theorem mem_wake {d e : Dir} {u : T} (h : u ∈ (s.wake d).waiting e) : u ∈ s.waiting e := by
  by_cases he : e = d
  · rw [he, wake_self] at h
    rw [he]
    exact List.mem_of_mem_tail h
  · rwa [wake_ne he] at h

theorem mem_enqueue_self (priority : T → ℕ) (d : Dir) {t u : T} :
    u ∈ (s.enqueue priority d t).waiting d ↔ u = t ∨ u ∈ s.waiting d := by
  simp [enqueue, (listInsert_perm priority t (s.waiting d)).mem_iff]

theorem enqueue_ne (priority : T → ℕ) {d e : Dir} (t : T) (h : e ≠ d) :
    (s.enqueue priority d t).waiting e = s.waiting e := by
  simp [enqueue, h]

theorem nodup_enqueue_self (priority : T → ℕ) {d : Dir} {t : T} (hout : t ∉ s.waiting d)
    (hnd : (s.waiting d).Nodup) : ((s.enqueue priority d t).waiting d).Nodup := by
  simp only [enqueue, Function.update_self]
  rw [(listInsert_perm priority t (s.waiting d)).nodup_iff, List.nodup_cons]
  exact ⟨hout, hnd⟩

theorem unlockLoop_eq (s : State T) (d : Dir) (k : ℕ) : unlockLoop d k s =
    { s with waiting := Function.update s.waiting d ((s.waiting d).drop k) } := by
  induction k generalizing s with
  | zero => simp [unlockLoop]
  | succ k ih =>
    rw [unlockLoop]
    split
    · rename_i he
      have hnil := List.isEmpty_iff.mp he
      rw [hnil, List.drop_nil, ← hnil, Function.update_eq_self]
    · rw [ih, wake]
      simp [List.drop_tail]

theorem unlockQueue_self (d : Dir) :
    (s.unlockQueue d).waiting d = (s.waiting d).drop ((s.lock d).getD 0) := by
  simp [unlockQueue, unlockLoop_eq]

theorem unlockQueue_ne {d e : Dir} (h : e ≠ d) : (s.unlockQueue d).waiting e = s.waiting e := by
  simp [unlockQueue, unlockLoop_eq, h]

theorem unlockQueue_sublist (d e : Dir) :
    ((s.unlockQueue d).waiting e).Sublist (s.waiting e) := by
  by_cases h : e = d
  · rw [h, unlockQueue_self]
    exact List.drop_sublist _ _
  · rw [unlockQueue_ne h]

@[simp] theorem unlockQueue_queue (d : Dir) : (s.unlockQueue d).queue = s.queue := by
  rw [unlockQueue, unlockLoop_eq]

@[simp] theorem unlockQueue_pc (d : Dir) : (s.unlockQueue d).pc = s.pc := by
  rw [unlockQueue, unlockLoop_eq]

@[simp] theorem unlockQueue_suspended (d : Dir) :
    (s.unlockQueue d).suspended = s.suspended := by
  rw [unlockQueue, unlockLoop_eq]

@[simp] theorem unlockQueue_stopped (d : Dir) : (s.unlockQueue d).stopped = s.stopped := by
  rw [unlockQueue, unlockLoop_eq]

end Lists

variable [DecidableEq T] (s : State T) (t : T) (p : Pc)

def goto : State T := { s with pc := Function.update s.pc t p }

@[simp] theorem goto_queue : (s.goto t p).queue = s.queue := rfl
@[simp] theorem goto_waiting : (s.goto t p).waiting = s.waiting := rfl
@[simp] theorem goto_lock : (s.goto t p).lock = s.lock := rfl
@[simp] theorem goto_suspended : (s.goto t p).suspended = s.suspended := rfl

@[simp] theorem goto_pc : (s.goto t p).pc t = p := by
  simp [goto]

theorem goto_pc_ne {u : T} (h : u ≠ t) : (s.goto t p).pc u = s.pc u := by
  simp [goto, h]

end State

def queueInt8Max : ℕ := 127

/-- `xQueueGenericSendFromISR` to one of the two ends, `xQueueGiveFromISR` and
`xQueueReceiveFromISR`. -/
def fromIsr (s : State T) (c : Call) : State T :=
  match c.transfer s.queue with
  | none => s
  | some q =>
    match s.lock c.dir.other with
    | none => ({ s with queue := q }).wake c.dir.other
    | some k =>
      if k = queueInt8Max then { s with queue := q, stopped := true }
      else { s with queue := q, lock := Function.update s.lock c.dir.other (some (k + 1)) }

variable [DecidableEq T]

/-- One step of task `t`. `next` is the call a task outside of the queue functions makes, if
any, and `expired` what `xTaskCheckForTimeOut` says. -/
def taskStep (priority : T → ℕ) (s : State T) (t : T) (next : Option (Call × Bool))
    (expired : Bool) : State T :=
  match s.pc t with
  | .idle =>
    match next with
    | none => s
    | some (c, block) => s.goto t (.attempt c block)
  | .attempt c block =>
    match c.transfer s.queue with
    | some q => (({ s with queue := q }).wake c.dir.other).goto t .idle
    | none => s.goto t (if block then .suspend c else .idle)
  | .suspend c => { s.goto t (.lock c) with suspended := some t }
  | .lock c => s.lockQueue.goto t (.checkTimeOut c)
  | .checkTimeOut c => s.goto t (if expired then .unlockTx c .expired else .checkQueue c)
  | .checkQueue c => s.goto t (if c.stuck s.queue then .place c else .unlockTx c .retry)
  | .place c => (s.enqueue priority c.dir t).goto t (.unlockTx c .block)
  | .unlockTx c k => (s.unlockQueue .receive).goto t (.unlockRx c k)
  | .unlockRx c k => (s.unlockQueue .send).goto t (.resume c k)
  | .resume c k =>
    { s.goto t
        (match k with
        | .block => .waiting c
        | .retry => .attempt c true
        | .expired => .recheck c) with
      suspended := none }
  -- the task runs again once it is off the event list
  | .waiting c => if t ∈ s.waiting c.dir then s else s.goto t (.attempt c true)
  | .recheck c =>
    match c with
    | .send _ _ => s.goto t .idle
    | .receive => s.goto t (if c.stuck s.queue then .idle else .attempt c false)

/-- `timeout t` is the tick at which the block time of `t` ends, `isr` an interrupt that uses
the queue. Both come between any two steps of the tasks, the tick only while the scheduler
runs. -/
inductive Act (T : Type)
  | task (t : T) (next : Option (Call × Bool)) (expired : Bool)
  | isr (c : Call)
  | timeout (t : T)

def step (priority : T → ℕ) (s : State T) (a : Act T) : State T :=
  if s.stopped then s
  else
    match a with
    | .task t next expired =>
      if s.suspended = none ∨ s.suspended = some t then taskStep priority s t next expired else s
    | .isr c => fromIsr s c
    | .timeout t =>
      if s.suspended = none then { s with waiting := fun d => (s.waiting d).erase t } else s

def init (q : Queue) : State T where
  queue := q
  waiting := fun _ => []
  lock := fun _ => none
  suspended := none
  pc := fun _ => .idle
  stopped := false

end EthDriver.QueueBlocking

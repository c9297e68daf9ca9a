import EthDriver.Queues
import EthDriver.Runs
import Mathlib.Logic.Function.Basic

namespace EthDriver.TcpipMbox

open Bytes Queues

abbrev Addr := BitVec 32

inductive Kind
  | inpkt
  | api
  deriving DecidableEq

def mempNum : Kind → ℕ
  | .inpkt => 12
  | .api => 8

def tcpipMboxSize : ℕ := 16

inductive Api
  | callback (function ctx : BitVec 32)
  | timeout (msecs h arg : BitVec 32)
  | untimeout (h arg : BitVec 32)
  deriving DecidableEq

inductive Msg (P : Type)
  | inpkt (p : P)
  | api (m : Api)
  deriving DecidableEq

def Msg.kind {P : Type} : Msg P → Kind
  | .inpkt _ => .inpkt
  | .api _ => .api

/-- A call of `tcpip_inpkt`, or of one of the functions that post an API message. With
`block` it posts with `sys_mbox_post`, as `tcpip_callback`, `tcpip_timeout` and
`tcpip_untimeout` do, else with `sys_mbox_trypost`, as `tcpip_try_callback` does. -/
structure Request (P : Type) where
  msg : Msg P
  block : Bool

def tcpipInpkt {P : Type} (p : P) : Request P := ⟨.inpkt p, false⟩
def tcpipCallback {P : Type} (function ctx : BitVec 32) : Request P :=
  ⟨.api (.callback function ctx), true⟩
def tcpipTryCallback {P : Type} (function ctx : BitVec 32) : Request P :=
  ⟨.api (.callback function ctx), false⟩
def tcpipTimeout {P : Type} (msecs h arg : BitVec 32) : Request P :=
  ⟨.api (.timeout msecs h arg), true⟩
def tcpipUntimeout {P : Type} (h arg : BitVec 32) : Request P := ⟨.api (.untimeout h arg), true⟩

/-- Where a task is in its call: before `memp_malloc`, before it fills in the message, before
it posts it, and before `memp_free` when it could not be posted. -/
inductive Sender (P : Type)
  | idle
  | malloc (r : Request P)
  | fill (r : Request P) (a : Addr)
  | post (r : Request P) (a : Addr)
  | free (r : Request P) (a : Addr)

inductive Thread
  | fetch
  | handle (a : Addr)
  | free (k : Kind) (a : Addr)

/-- `tcpip_mbox`, the two pools as their lists of free elements, the memory of the messages,
the tasks `T` and `tcpip_thread`. `posted` and `handled` record what goes through the mailbox,
`refused` the packets for which `tcpip_inpkt` returned `ERR_MEM`, and `freed` those that the
thread freed because `input_fn` failed. -/
structure State (T P : Type) where
  memp : Kind → List Addr
  store : Addr → Option (Msg P)
  mbox : Queue
  sender : T → Sender P
  thread : Thread
  posted : List (Msg P)
  handled : List (Msg P)
  refused : List (Msg P)
  freed : List P

variable {T P : Type}

def State.setMemp (s : State T P) (k : Kind) (free : List Addr) : State T P :=
  { s with memp := Function.update s.memp k free }

def State.mempFree (s : State T P) (k : Kind) (a : Addr) : State T P :=
  s.setMemp k (a :: s.memp k)

theorem mem_setMemp {s : State T P} {k j : Kind} {free : List Addr} {b : Addr}
    (hb : b ∈ (s.setMemp k free).memp j) : (j = k ∧ b ∈ free) ∨ b ∈ s.memp j := by
  by_cases hk : j = k
  · subst hk
    left
    exact ⟨rfl, by simpa [State.setMemp] using hb⟩
  · right
    simpa [State.setMemp, hk] using hb

variable [DecidableEq T]

def State.goto (s : State T P) (t : T) (pc : Sender P) : State T P :=
  { s with sender := Function.update s.sender t pc }

theorem forall_goto {Q : Sender P → Prop} {s : State T P} {t : T} {pc : Sender P} (hpc : Q pc)
    (hs : ∀ u ≠ t, Q (s.sender u)) (u : T) : Q ((s.goto t pc).sender u) := by
  by_cases hu : u = t
  · subst hu
    simpa [State.goto] using hpc
  · simpa [State.goto, hu] using hs u hu

def pointer (a : Addr) : Memory := le a.toNat

def ofPointer (bytes : List UInt8) : Addr := BitVec.ofNat 32 (ofLe bytes)

/-- One step of task `t`. `next` is the call that a task outside of these functions makes, if
any. -/
def senderStep (s : State T P) (t : T) (next : Option (Request P)) : State T P :=
  match s.sender t with
  | .idle =>
    match next with
    | none => s
    | some r => s.goto t (.malloc r)
  | .malloc r =>
    match s.memp r.msg.kind with
    | [] => { s.goto t .idle with refused := s.refused ++ [r.msg] }
    | a :: free => (s.setMemp r.msg.kind free).goto t (.fill r a)
  | .fill r a =>
    { s.goto t (.post r a) with store := Function.update s.store a (some r.msg) }
  | .post r a =>
    match send s.mbox (pointer a) .sendToBack with
    | some q => { s.goto t .idle with mbox := q, posted := s.posted ++ [r.msg] }
    -- `sys_mbox_post` waits for room, `sys_mbox_trypost` gives up
    | none => if r.block then s else s.goto t (.free r a)
  | .free r a =>
    { (s.mempFree r.msg.kind a).goto t .idle with refused := s.refused ++ [r.msg] }

/-- One step of `tcpip_thread`. `ok` is whether `input_fn` returns `ERR_OK`. Nothing posts a
`TCPIP_MSG_CALLBACK_STATIC`. -/
def threadStep (s : State T P) (ok : Bool) : State T P :=
  match s.thread with
  | .fetch =>
    match receive s.mbox with
    | some (q, bytes) => { s with mbox := q, thread := .handle (ofPointer bytes) }
    | none => s
  | .handle a =>
    match s.store a with
    | some (.inpkt p) =>
      { s with
        thread := .free .inpkt a
        handled := s.handled ++ [.inpkt p]
        freed := if ok then s.freed else s.freed ++ [p] }
    | some (.api m) => { s with thread := .free .api a, handled := s.handled ++ [.api m] }
    | none => s
  | .free k a => { s.mempFree k a with thread := .fetch }

inductive Act (T P : Type)
  | task (t : T) (next : Option (Request P))
  | thread (ok : Bool)

def step (s : State T P) : Act T P → State T P
  | .task t next => senderStep s t next
  | .thread ok => threadStep s ok

def mempInitPool (size : ℕ) : ℕ → ℕ → List Addr → List Addr
  | 0, _, tab => tab
  | num + 1, memp, tab => mempInitPool size num (memp + size) (BitVec.ofNat 32 memp :: tab)

structure Pools where
  slots : Kind → List Addr
  length_eq : ∀ k, (slots k).length = mempNum k
  nodup : (slots .inpkt ++ slots .api).Nodup

def memPools : Pools where
  slots
    | .inpkt => mempInitPool 16 (mempNum .inpkt) 536875008 []
    | .api => mempInitPool 16 (mempNum .api) 536879104 []
  length_eq k := by cases k <;> rfl
  nodup := by decide

/-- After `tcpip_init`: `memp_init` has put all elements on the free lists, and the mailbox is
a new queue of pointers in the block that `pvPortMalloc` returned. -/
def init (pools : Pools) (block : ℕ) (mem : Memory) : State T P where
  memp := pools.slots
  store := fun _ => none
  mbox := prvInitialiseNewQueue tcpipMboxSize 4 block mem
  sender := fun _ => .idle
  thread := .fetch
  posted := []
  handled := []
  refused := []
  freed := []

end EthDriver.TcpipMbox

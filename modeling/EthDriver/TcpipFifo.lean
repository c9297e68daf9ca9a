import EthDriver.QueueDeque
import EthDriver.TcpipMbox
import Mathlib.Algebra.BigOperators.Group.Finset.Piecewise
import Mathlib.Algebra.Order.BigOperators.Group.Finset

namespace EthDriver.TcpipFifo

open Bytes Queues QueueDeque Runs TcpipMbox

variable {T P : Type} [DecidableEq T] [Fintype T]

/-- How often a task holds the element `x` of a pool. -/
def heldBy (x : Addr) : Sender P → ℕ
  | .fill _ a | .post _ a | .free _ a => if a = x then 1 else 0
  | _ => 0

section HeldBy

variable (x a : Addr) (r : Request P)

@[simp] theorem heldBy_idle : heldBy x (.idle : Sender P) = 0 := rfl
@[simp] theorem heldBy_malloc : heldBy x (.malloc r) = 0 := rfl
@[simp] theorem heldBy_fill : heldBy x (.fill r a) = if a = x then 1 else 0 := rfl
@[simp] theorem heldBy_post : heldBy x (.post r a) = if a = x then 1 else 0 := rfl
@[simp] theorem heldBy_free : heldBy x (.free r a) = if a = x then 1 else 0 := rfl

end HeldBy

def threadHolds (x : Addr) : Thread → ℕ
  | .handle a | .free _ a => if a = x then 1 else 0
  | .fetch => 0

def isFree (x : Addr) (memp : Kind → List Addr) : ℕ :=
  (memp .inpkt).count x + (memp .api).count x

/-- How often `x` occurs on the free lists, with a task, in the mailbox and with the
thread. -/
def tally (s : State T P) (mail : List Addr) (x : Addr) : ℕ :=
  isFree x s.memp + ∑ t, heldBy x (s.sender t) + mail.count x + threadHolds x s.thread

/-- The messages that were posted and are not handled. -/
def pending (s : State T P) (mail : List Addr) : List (Msg P) :=
  (match s.thread with
    | .handle a => (s.store a).toList
    | _ => []) ++ mail.filterMap s.store

omit [DecidableEq T] [Fintype T] in
theorem pending_congr {s r : State T P} {mail : List Addr} (ht : s.thread = r.thread)
    (hmail : ∀ a ∈ mail, s.store a = r.store a)
    (hhandle : ∀ a, r.thread = .handle a → s.store a = r.store a) :
    pending s mail = pending r mail := by
  rw [pending, pending, ht, List.filterMap_congr hmail]
  congr 1
  split
  · rename_i a ha
    rw [hhandle a ha]
  · rfl

/-- What holds between any two steps, where `mail` are the messages in the mailbox. -/
structure Inv (pools : Pools) (s : State T P) (mail : List Addr) : Prop where
  holds : Holds s.mbox (mail.map fun a => read (pointer a) 0 4)
  size : s.mbox.uxItemSize = 4
  length : s.mbox.uxLength = tcpipMboxSize
  places : ∀ x, tally s mail x = (pools.slots .inpkt ++ pools.slots .api).count x
  memp_kind : ∀ k, ∀ a ∈ s.memp k, a ∈ pools.slots k
  sender_kind : ∀ t r a, s.sender t = .fill r a ∨ s.sender t = .post r a ∨ s.sender t = .free r a →
    a ∈ pools.slots r.msg.kind
  sender_store : ∀ t r a, s.sender t = .post r a → s.store a = some r.msg
  mail_store : ∀ a ∈ mail, ∃ m, s.store a = some m ∧ a ∈ pools.slots m.kind
  handle_store : ∀ a, s.thread = .handle a → ∃ m, s.store a = some m ∧ a ∈ pools.slots m.kind
  free_kind : ∀ k a, s.thread = .free k a → a ∈ pools.slots k
  fifo : s.posted = s.handled ++ pending s mail

theorem ofPointer_pointer (a : Addr) : ofPointer (read (pointer a) 0 4) = a := by
  rw [ofPointer, pointer, ofLe_read_le]
  apply BitVec.eq_of_toNat_eq
  rw [BitVec.toNat_ofNat]
  have hlt := a.isLt
  omega

section Counting

/-- One task that moves on changes the sum by what it holds. -/
theorem sum_update (f : T → Sender P) (t : T) (pc : Sender P) (x : Addr) :
    ∑ u, heldBy x (Function.update f t pc u) + heldBy x (f t) =
      ∑ u, heldBy x (f u) + heldBy x pc := by
  have hupd : (fun u => heldBy x (Function.update f t pc u)) =
      Function.update (fun u => heldBy x (f u)) t (heldBy x pc) := by
    funext u
    by_cases hu : u = t
    · rw [hu, Function.update_self, Function.update_self]
    · rw [Function.update_of_ne hu, Function.update_of_ne hu]
  rw [hupd, Finset.sum_update_of_mem (Finset.mem_univ t),
    ← Finset.add_sum_erase _ (fun u => heldBy x (f u)) (Finset.mem_univ t),
    Finset.sdiff_singleton_eq_erase]
  omega

omit [DecidableEq T] in
theorem heldBy_le_sum (f : T → Sender P) (t : T) (x : Addr) :
    heldBy x (f t) ≤ ∑ u, heldBy x (f u) :=
  Finset.single_le_sum (f := fun u => heldBy x (f u)) (fun _ _ => Nat.zero_le _) (Finset.mem_univ t)

theorem heldBy_add_le_sum (f : T → Sender P) {t u : T} (h : u ≠ t) (x : Addr) :
    heldBy x (f t) + heldBy x (f u) ≤ ∑ u, heldBy x (f u) := by
  rw [← Finset.add_sum_erase _ (fun u => heldBy x (f u)) (Finset.mem_univ t)]
  apply Nat.add_le_add_left
  exact Finset.single_le_sum (f := fun u => heldBy x (f u)) (fun _ _ => Nat.zero_le _)
    (Finset.mem_erase.mpr ⟨h, Finset.mem_univ u⟩)

theorem isFree_update (memp : Kind → List Addr) (k : Kind) (free : List Addr) (x : Addr) :
    isFree x (Function.update memp k free) + (memp k).count x = isFree x memp + free.count x := by
  cases k <;> simp [isFree] <;> omega

end Counting

section Senders

variable {pools : Pools} {s : State T P} {mail : List Addr} {t : T}

omit [DecidableEq T] in
theorem Inv.once (h : Inv pools s mail) (x : Addr) : tally s mail x ≤ 1 := by
  rw [h.places x]
  exact List.nodup_iff_count_le_one.mp pools.nodup x

/-- What a task holds is nowhere else. -/
theorem Inv.held_alone (h : Inv pools s mail) {a : Addr} (ha : heldBy a (s.sender t) = 1) :
    a ∉ mail ∧ threadHolds a s.thread = 0 ∧ ∀ u ≠ t, heldBy a (s.sender u) = 0 := by
  have honce := h.once a
  rw [tally] at honce
  have hsum := heldBy_le_sum s.sender t a
  refine ⟨?_, by omega, ?_⟩
  · intro hin
    have hpos := List.count_pos_iff.mpr hin
    omega
  · intro u hu
    have hadd := heldBy_add_le_sum s.sender hu a
    omega

/-- The element that a task holds belongs to the pool of its message. -/
def OwnKind (pools : Pools) (pc : Sender P) : Prop :=
  ∀ r a, pc = .fill r a ∨ pc = .post r a ∨ pc = .free r a → a ∈ pools.slots r.msg.kind

def Filled (s : State T P) (pc : Sender P) : Prop := ∀ r a, pc = .post r a → s.store a = some r.msg

/-- A step that only moves the task on. -/
theorem Inv.goto (h : Inv pools s mail) {pc : Sender P} (refused : List (Msg P))
    (hheld : ∀ x, heldBy x pc = heldBy x (s.sender t)) (hkind : OwnKind pools pc)
    (hstore : Filled s pc) : Inv pools { s.goto t pc with refused := refused } mail where
  holds := h.holds
  size := h.size
  length := h.length
  places x := by
    have hsum := sum_update s.sender t pc x
    rw [hheld x] at hsum
    rw [← h.places x]
    change isFree x s.memp + ∑ u, heldBy x (Function.update s.sender t pc u) + mail.count x +
      threadHolds x s.thread = _
    rw [Nat.add_right_cancel hsum]
    rfl
  memp_kind := h.memp_kind
  sender_kind := forall_goto (Q := OwnKind pools) hkind fun u _ => h.sender_kind u
  sender_store := forall_goto (Q := Filled s) hstore fun u _ => h.sender_store u
  mail_store := h.mail_store
  handle_store := h.handle_store
  free_kind := h.free_kind
  fifo := h.fifo

theorem OwnKind.fill {r : Request P} {a : Addr} (ha : a ∈ pools.slots r.msg.kind) :
    OwnKind pools (.fill r a) := by
  rintro r' a' (he | he | he)
  · cases he
    exact ha
  · cases he
  · cases he

theorem Inv.malloc (h : Inv pools s mail) {r : Request P} (hpc : s.sender t = .malloc r) {a : Addr}
    {free : List Addr} (hfree : s.memp r.msg.kind = a :: free) :
    Inv pools ((s.setMemp r.msg.kind free).goto t (.fill r a)) mail := by
  have ha : a ∈ pools.slots r.msg.kind := h.memp_kind _ a (by rw [hfree]; exact List.mem_cons_self)
  constructor
  · exact h.holds
  · exact h.size
  · exact h.length
  · intro x
    have hsum := sum_update s.sender t (.fill r a) x
    have hmemp := isFree_update s.memp r.msg.kind free x
    rw [hpc] at hsum
    rw [hfree, List.count_cons] at hmemp
    rw [← h.places x]
    change isFree x (Function.update s.memp r.msg.kind free) +
      ∑ u, heldBy x (Function.update s.sender t (.fill r a) u) + mail.count x +
      threadHolds x s.thread = isFree x s.memp + _ + mail.count x + threadHolds x s.thread
    simp only [heldBy_malloc, heldBy_fill, beq_iff_eq] at hsum hmemp
    omega
  · intro k b hb
    rcases mem_setMemp hb with ⟨rfl, hin⟩ | hin
    · exact h.memp_kind _ b (by rw [hfree]; exact List.mem_cons_of_mem a hin)
    · exact h.memp_kind k b hin
  · exact forall_goto (Q := OwnKind pools) (.fill ha) fun u _ => h.sender_kind u
  · refine forall_goto (Q := Filled s) ?_ fun u _ => h.sender_store u
    intro r' a' he
    cases he
  · exact h.mail_store
  · exact h.handle_store
  · exact h.free_kind
  · exact h.fifo

/-- Filling in a message touches no message that is on its way. -/
theorem Inv.fill (h : Inv pools s mail) {r : Request P} {a : Addr} (hpc : s.sender t = .fill r a) :
    Inv pools { s.goto t (.post r a) with store := Function.update s.store a (some r.msg) }
      mail := by
  have hheld : heldBy a (s.sender t) = 1 := by
    rw [hpc]
    exact if_pos rfl
  obtain ⟨hmail, hthread, hothers⟩ := h.held_alone hheld
  have hkeep : ∀ b, b ≠ a → Function.update s.store a (some r.msg) b = s.store b :=
    fun b hb => Function.update_of_ne hb ..
  have hhandle : ∀ b, s.thread = .handle b → b ≠ a := by
    intro b hb he
    rw [hb, he] at hthread
    exact absurd hthread (by simp [threadHolds])
  constructor
  · exact h.holds
  · exact h.size
  · exact h.length
  · intro x
    have hsum := sum_update s.sender t (.post r a) x
    rw [hpc] at hsum
    rw [← h.places x]
    change isFree x s.memp + ∑ u, heldBy x (Function.update s.sender t (.post r a) u) +
      mail.count x + threadHolds x s.thread = _
    rw [Nat.add_right_cancel hsum]
    rfl
  · exact h.memp_kind
  · refine forall_goto (Q := OwnKind pools) ?_ fun u _ => h.sender_kind u
    rintro r' a' (he | he | he)
    · cases he
    · cases he
      exact h.sender_kind t r a (.inl hpc)
    · cases he
  · apply forall_goto (Q := fun pc => ∀ r' a', pc = .post r' a' →
      Function.update s.store a (some r.msg) a' = some r'.msg)
    · intro r' a' he
      cases he
      exact Function.update_self ..
    · intro u hu r' a' he
      rw [hkeep a', h.sender_store u r' a' he]
      intro heq
      have hzero := hothers u hu
      rw [he, heq] at hzero
      exact absurd hzero (by simp)
  · intro b hb
    obtain ⟨m, hm, hk⟩ := h.mail_store b hb
    refine ⟨m, ?_, hk⟩
    exact (hkeep b fun he => hmail (he ▸ hb)).trans hm
  · intro b hb
    obtain ⟨m, hm, hk⟩ := h.handle_store b hb
    exact ⟨m, (hkeep b (hhandle b hb)).trans hm, hk⟩
  · exact h.free_kind
  · refine h.fifo.trans (congrArg (s.handled ++ ·) ?_)
    symm
    apply pending_congr
    · rfl
    · exact fun b hb => hkeep b fun he => hmail (he ▸ hb)
    · exact fun b hb => hkeep b (hhandle b hb)

theorem Inv.post (h : Inv pools s mail) {r : Request P} {a : Addr} (hpc : s.sender t = .post r a)
    {q : Queue} (hq : send s.mbox (pointer a) .sendToBack = some q) :
    Inv pools { s.goto t .idle with mbox := q, posted := s.posted ++ [r.msg] } (mail ++ [a]) := by
  have hsize : s.mbox.uxItemSize ≠ 0 := by
    rw [h.size]
    exact Nat.succ_ne_zero 3
  have hstore := h.sender_store t r a hpc
  rw [send] at hq
  split at hq
  · rename_i hroom
    obtain rfl := Option.some.inj hq
    have hlt := h.holds.room_iff.mp (hroom.resolve_right Position.noConfusion)
    constructor
    · have hnew := h.holds.sendToBack hsize hlt (pointer a)
      rw [h.size] at hnew
      rwa [List.map_append]
    · exact (copyTo_uxItemSize ..).trans h.size
    · exact (copyTo_uxLength ..).trans h.length
    · intro x
      have hsum := sum_update s.sender t .idle x
      rw [hpc] at hsum
      rw [← h.places x]
      change isFree x s.memp + ∑ u, heldBy x (Function.update s.sender t .idle u) +
        (mail ++ [a]).count x + threadHolds x s.thread =
        isFree x s.memp + _ + mail.count x + threadHolds x s.thread
      rw [List.count_append, List.count_singleton]
      simp only [heldBy_idle, heldBy_post, beq_iff_eq] at hsum ⊢
      omega
    · exact h.memp_kind
    · refine forall_goto (Q := OwnKind pools) ?_ fun u _ => h.sender_kind u
      rintro r' a' (he | he | he) <;> cases he
    · refine forall_goto (Q := Filled s) ?_ fun u _ => h.sender_store u
      intro r' a' he
      cases he
    · intro b hb
      rcases List.mem_append.mp hb with hb | hb
      · exact h.mail_store b hb
      · rw [List.mem_singleton.mp hb]
        exact ⟨r.msg, hstore, h.sender_kind t r a (.inr (.inl hpc))⟩
    · exact h.handle_store
    · exact h.free_kind
    · have hone : [a].filterMap s.store = [r.msg] := by simp [hstore]
      change s.posted ++ [r.msg] = s.handled ++ (_ ++ (mail ++ [a]).filterMap s.store)
      rw [List.filterMap_append, hone, h.fifo, pending, List.append_assoc, List.append_assoc]
      rfl
  · cases hq

theorem Inv.senderFree (h : Inv pools s mail) {r : Request P} {a : Addr}
    (hpc : s.sender t = .free r a) (refused : List (Msg P)) :
    Inv pools { (s.mempFree r.msg.kind a).goto t .idle with refused := refused } mail := by
  constructor
  · exact h.holds
  · exact h.size
  · exact h.length
  · intro x
    have hsum := sum_update s.sender t .idle x
    have hmemp := isFree_update s.memp r.msg.kind (a :: s.memp r.msg.kind) x
    rw [hpc] at hsum
    rw [List.count_cons] at hmemp
    rw [← h.places x]
    change isFree x (Function.update s.memp r.msg.kind (a :: s.memp r.msg.kind)) +
      ∑ u, heldBy x (Function.update s.sender t .idle u) + mail.count x +
      threadHolds x s.thread = isFree x s.memp + _ + mail.count x + threadHolds x s.thread
    simp only [heldBy_idle, heldBy_free, beq_iff_eq] at hsum hmemp
    omega
  · intro k b hb
    rcases mem_setMemp hb with ⟨rfl, hin⟩ | hin
    · rcases List.mem_cons.mp hin with he | hin
      · rw [he]
        exact h.sender_kind t r a (.inr (.inr hpc))
      · exact h.memp_kind _ b hin
    · exact h.memp_kind k b hin
  · refine forall_goto (Q := OwnKind pools) ?_ fun u _ => h.sender_kind u
    rintro r' a' (he | he | he) <;> cases he
  · refine forall_goto (Q := Filled s) ?_ fun u _ => h.sender_store u
    intro r' a' he
    cases he
  · exact h.mail_store
  · exact h.handle_store
  · exact h.free_kind
  · exact h.fifo

theorem Inv.senderStep (h : Inv pools s mail) (t : T) (next : Option (Request P)) :
    ∃ mail, Inv pools (TcpipMbox.senderStep s t next) mail := by
  unfold TcpipMbox.senderStep
  split
  · rename_i hpc
    cases next with
    | none => exact ⟨mail, h⟩
    | some r =>
      refine ⟨mail, h.goto s.refused ?_ ?_ ?_⟩
      · intro x
        rw [hpc]
        rfl
      · rintro r' a (he | he | he) <;> cases he
      · intro r' a he
        cases he
  · rename_i r hpc
    cases hfree : s.memp r.msg.kind with
    | nil =>
      refine ⟨mail, h.goto _ ?_ ?_ ?_⟩
      · intro x
        rw [hpc]
        rfl
      · rintro r' a (he | he | he) <;> cases he
      · intro r' a he
        cases he
    | cons a free => exact ⟨mail, h.malloc hpc hfree⟩
  · rename_i r a hpc
    exact ⟨mail, h.fill hpc⟩
  · rename_i r a hpc
    cases hq : send s.mbox (pointer a) .sendToBack with
    | some q => exact ⟨mail ++ [a], h.post hpc hq⟩
    | none =>
      simp only
      split
      · exact ⟨mail, h⟩
      · refine ⟨mail, h.goto s.refused ?_ ?_ ?_⟩
        · intro x
          rw [hpc]
          rfl
        · rintro r' a' (he | he | he)
          · cases he
          · cases he
          · cases he
            exact h.sender_kind t r a (.inr (.inl hpc))
        · intro r' a' he
          cases he
  · rename_i r a hpc
    exact ⟨mail, h.senderFree hpc _⟩

end Senders

section Thread

variable {pools : Pools} {s : State T P} {mail : List Addr}

omit [DecidableEq T] in
/-- The message that is fetched is the oldest one in the mailbox. -/
theorem Inv.fetch (h : Inv pools s mail) (hpc : s.thread = .fetch) {q : Queue}
    {bytes : List UInt8} (hq : receive s.mbox = some (q, bytes)) :
    ∃ mail, Inv pools { s with mbox := q, thread := .handle (ofPointer bytes) } mail := by
  have hsize : s.mbox.uxItemSize ≠ 0 := by
    rw [h.size]
    exact Nat.succ_ne_zero 3
  have hcount := h.holds.count
  rw [receive] at hq
  split at hq
  · rename_i hpos
    cases mail with
    | nil =>
      rw [hcount] at hpos
      exact absurd hpos (Nat.lt_irrefl 0)
    | cons a mail =>
      obtain ⟨hfirst, hrest⟩ := h.holds.copyDataFromQueue hsize
      obtain ⟨rfl, rfl⟩ := Prod.mk.inj (Option.some.inj hq)
      have ha : ofPointer (prvCopyDataFromQueue s.mbox).2 = a := by
        rw [hfirst]
        exact ofPointer_pointer a
      obtain ⟨m, hm, hk⟩ := h.mail_store a List.mem_cons_self
      refine ⟨mail, ?_⟩
      rw [ha]
      constructor
      · rw [hcount, List.map_cons, List.length_cons, Nat.add_sub_cancel]
        exact hrest
      · change (prvCopyDataFromQueue s.mbox).1.uxItemSize = 4
        rw [copyFrom_eq]
        exact h.size
      · change (prvCopyDataFromQueue s.mbox).1.uxLength = tcpipMboxSize
        rw [copyFrom_eq]
        exact h.length
      · intro x
        rw [← h.places x, tally, tally, hpc, List.count_cons]
        simp only [threadHolds, beq_iff_eq]
        omega
      · exact h.memp_kind
      · exact h.sender_kind
      · exact h.sender_store
      · exact fun b hb => h.mail_store b (List.mem_cons_of_mem a hb)
      · intro b hb
        obtain rfl := Thread.handle.inj hb
        exact ⟨m, hm, hk⟩
      · intro k b hb
        cases hb
      · refine h.fifo.trans (congrArg (s.handled ++ ·) ?_)
        simp [pending, hpc, hm]
  · cases hq

omit [DecidableEq T] in
theorem Inv.handle (h : Inv pools s mail) {a : Addr} (hpc : s.thread = .handle a) {m : Msg P}
    (hm : s.store a = some m) (freed : List P) :
    Inv pools { s with
      thread := .free m.kind a
      handled := s.handled ++ [m]
      freed := freed } mail := by
  constructor
  · exact h.holds
  · exact h.size
  · exact h.length
  · intro x
    rw [← h.places x, tally, tally, hpc]
    rfl
  · exact h.memp_kind
  · exact h.sender_kind
  · exact h.sender_store
  · exact h.mail_store
  · intro b hb
    cases hb
  · intro k b hb
    obtain ⟨m', hm', hk⟩ := h.handle_store a hpc
    obtain rfl := Option.some.inj (hm.symm.trans hm')
    obtain ⟨rfl, rfl⟩ := Thread.free.inj hb
    exact hk
  · simpa [pending, hpc, hm] using h.fifo

omit [DecidableEq T] in
theorem Inv.threadFree (h : Inv pools s mail) {k : Kind} {a : Addr} (hpc : s.thread = .free k a) :
    Inv pools { s.mempFree k a with thread := .fetch } mail := by
  constructor
  · exact h.holds
  · exact h.size
  · exact h.length
  · intro x
    have hmemp := isFree_update s.memp k (a :: s.memp k) x
    rw [List.count_cons] at hmemp
    rw [← h.places x, tally, tally, hpc]
    change isFree x (Function.update s.memp k (a :: s.memp k)) +
      ∑ t, heldBy x (s.sender t) + mail.count x + 0 = _
    simp only [threadHolds, beq_iff_eq] at hmemp ⊢
    omega
  · intro k' b hb
    rcases mem_setMemp hb with ⟨rfl, hin⟩ | hin
    · rcases List.mem_cons.mp hin with he | hin
      · rw [he]
        exact h.free_kind _ a hpc
      · exact h.memp_kind _ b hin
    · exact h.memp_kind k' b hin
  · exact h.sender_kind
  · exact h.sender_store
  · exact h.mail_store
  · intro b hb
    cases hb
  · intro k' b hb
    cases hb
  · refine h.fifo.trans (congrArg (s.handled ++ ·) ?_)
    rw [pending, pending, hpc]
    rfl

omit [DecidableEq T] in
theorem Inv.threadStep (h : Inv pools s mail) (ok : Bool) :
    ∃ mail, Inv pools (TcpipMbox.threadStep s ok) mail := by
  unfold TcpipMbox.threadStep
  split
  · rename_i hpc
    split
    · rename_i q bytes hq
      exact h.fetch hpc hq
    · exact ⟨mail, h⟩
  · rename_i a hpc
    split
    · rename_i p hm
      exact ⟨mail, h.handle hpc hm _⟩
    · rename_i m hm
      exact ⟨mail, h.handle hpc hm s.freed⟩
    · exact ⟨mail, h⟩
  · rename_i k a hpc
    exact ⟨mail, h.threadFree hpc⟩

end Thread

omit [DecidableEq T] in
theorem init_inv (pools : Pools) (block : ℕ) (mem : Memory) :
    Inv pools (init pools block mem : State T P) [] where
  holds := Holds.reset _ (Nat.succ_pos 15)
  size := rfl
  length := rfl
  places x := by
    have hnone : ∑ t : T, heldBy x ((init pools block mem : State T P).sender t) = 0 :=
      Finset.sum_eq_zero fun _ _ => rfl
    rw [tally, hnone, List.count_append]
    rfl
  memp_kind _ _ ha := ha
  sender_kind t r a he := by
    rcases he with he | he | he <;> cases he
  sender_store t r a he := by
    cases he
  mail_store a ha := absurd ha List.not_mem_nil
  handle_store a ha := by
    cases ha
  free_kind k a ha := by
    cases ha
  fifo := rfl

theorem run_inv (pools : Pools) (block : ℕ) (mem : Memory) (as : List (Act T P)) :
    ∃ mail, Inv pools (run step (init pools block mem : State T P) as) mail := by
  apply run_invariant (P := fun s => ∃ mail, Inv pools s mail)
  · rintro s a ⟨mail, h⟩
    cases a with
    | task t next => exact h.senderStep t next
    | thread ok => exact h.threadStep ok
  · exact ⟨[], init_inv pools block mem⟩

omit [DecidableEq T] in
theorem Inv.pending_length {pools : Pools} {s : State T P} {mail : List Addr}
    (h : Inv pools s mail) :
    (pending s mail).length = mail.length + (match s.thread with | .handle _ => 1 | _ => 0) := by
  have hmail : (mail.filterMap s.store).length = mail.length := by
    rw [List.filterMap_length_eq_length]
    intro a ha
    obtain ⟨m, hm, -⟩ := h.mail_store a ha
    rw [hm, Option.isSome_some]
  rw [pending, List.length_append, hmail, Nat.add_comm]
  congr 1
  split
  · rename_i a ha
    obtain ⟨m, hm, -⟩ := h.handle_store a ha
    rw [hm]
    rfl
  · rfl

/-- Every message that was posted goes through the mailbox once and in the order of the posts:
those that `tcpip_thread` has handled, then the one it has fetched, then those that the
mailbox holds, whatever the tasks do in between. -/
theorem messages_in_order (pools : Pools) (block : ℕ) (mem : Memory) (as : List (Act T P)) :
    let s := run step (init pools block mem : State T P) as
    ∃ mail : List Addr, Holds s.mbox (mail.map fun a => read (pointer a) 0 4) ∧
      s.posted = s.handled ++ pending s mail ∧
      (pending s mail).length =
        mail.length + (match s.thread with | .handle _ => 1 | _ => 0) := by
  intro s
  obtain ⟨mail, h⟩ := run_inv pools block mem as
  exact ⟨mail, h.holds, h.fifo, h.pending_length⟩

/-- Every element of the two pools is in one place: on the free list of its own pool, with a
task, in the mailbox or with `tcpip_thread`. None gets lost and none is given out twice. -/
theorem elements_in_one_place (pools : Pools) (block : ℕ) (mem : Memory) (as : List (Act T P)) :
    let s := run step (init pools block mem : State T P) as
    ∃ mail : List Addr, Holds s.mbox (mail.map fun a => read (pointer a) 0 4) ∧
      (∀ k, ∀ x ∈ pools.slots k, tally s mail x = 1) ∧
      ∀ k, ∀ x ∈ s.memp k, x ∈ pools.slots k := by
  intro s
  obtain ⟨mail, h⟩ := run_inv pools block mem as
  refine ⟨mail, h.holds, ?_, h.memp_kind⟩
  intro k x hx
  have hin : x ∈ pools.slots .inpkt ++ pools.slots .api := by
    cases k with
    | inpkt => exact List.mem_append_left _ hx
    | api => exact List.mem_append_right _ hx
  rw [h.places x]
  exact List.count_eq_one_of_mem pools.nodup hin

section Room

/-- At most three API messages are in use. -/
def FewCalls (s : State T P) : Prop := mempNum .api ≤ (s.memp .api).length + 3

instance decidableFewCalls (s : State T P) : Decidable (FewCalls s) :=
  inferInstanceAs (Decidable (_ ≤ _))

variable {pools : Pools} {s : State T P} {mail : List Addr}

omit [DecidableEq T] in
/-- What is in the mailbox is not free, and all of it is in the two pools. -/
theorem Inv.mail_alone (h : Inv pools s mail) : (mail ++ s.memp .api).Nodup := by
  rw [List.nodup_iff_count_le_one]
  intro x
  have honce := h.once x
  rw [tally, isFree] at honce
  rw [List.count_append]
  omega

omit [DecidableEq T] in
theorem Inv.mail_subset (h : Inv pools s mail) :
    mail ++ s.memp .api ⊆ pools.slots .inpkt ++ pools.slots .api := by
  intro b hb
  rw [List.mem_append]
  obtain hmail | hfree := List.mem_append.mp hb
  · obtain ⟨m, -, hk⟩ := h.mail_store b hmail
    cases hm : m.kind with
    | inpkt => exact .inl (hm ▸ hk)
    | api => exact .inr (hm ▸ hk)
  · exact .inr (h.memp_kind .api b hfree)

omit [DecidableEq T] in
/-- The mailbox has more places than there are elements for packets, and the calls do not
fill the others. -/
theorem Inv.mailbox_room (h : Inv pools s mail) (hf : FewCalls s) :
    s.mbox.uxMessagesWaiting < s.mbox.uxLength := by
  have hlen := (h.mail_alone.subperm h.mail_subset).length_le
  rw [List.length_append, List.length_append, pools.length_eq, pools.length_eq] at hlen
  have hcount := h.holds.count
  rw [List.length_map] at hcount
  rw [hcount, h.length]
  simp only [FewCalls, mempNum, tcpipMboxSize] at *
  omega

/-- The task is not at the `memp_free` after a failed post. -/
def NoFailure (pc : Sender P) : Prop := ∀ r a, pc ≠ .free r a

omit [Fintype T] in
/-- A task comes to that `memp_free` from a post that fails. -/
theorem senderStep_not_free (hroom : s.mbox.uxMessagesWaiting < s.mbox.uxLength)
    (hno : ∀ u, NoFailure (s.sender u)) (t : T) (next : Option (Request P)) :
    ∀ u, NoFailure ((senderStep s t next).sender u) := by
  have hgoto : ∀ pc : Sender P, NoFailure pc → ∀ u, NoFailure ((s.goto t pc).sender u) :=
    fun pc hpc => forall_goto (Q := NoFailure) hpc fun u _ => hno u
  unfold TcpipMbox.senderStep
  split
  · cases next with
    | none => exact hno
    | some r => exact hgoto _ fun _ _ h => by cases h
  · split
    · exact hgoto _ fun _ _ h => by cases h
    · exact hgoto _ fun _ _ h => by cases h
  · exact hgoto _ fun _ _ h => by cases h
  · rw [Queues.send, if_pos (.inl hroom)]
    exact hgoto _ fun _ _ h => by cases h
  · next r a hpc => exact absurd hpc (hno t r a)

omit [DecidableEq T] [Fintype T] in
theorem threadStep_sender (ok : Bool) : (threadStep s ok).sender = s.sender := by
  unfold TcpipMbox.threadStep
  split
  · split
    · rfl
    · rfl
  · split
    · rfl
    · rfl
    · rfl
  · rfl

/-- Where at most three API messages are in use at a time the mailbox is never full. No
post fails, or waits, and no task comes to the `memp_free` after a failed post: `tcpip_inpkt`
fails only where the pool of the packets is empty. -/
theorem packets_never_find_mailbox_full (pools : Pools) (block : ℕ) (mem : Memory)
    {as : List (Act T P)}
    (hfew : Meets step (fun s _ => FewCalls s) (init pools block mem : State T P) as) :
    let s := run step (init pools block mem : State T P) as
    (FewCalls s → s.mbox.uxMessagesWaiting < s.mbox.uxLength) ∧
      ∀ t r a, s.sender t ≠ .free r a := by
  intro s
  have hall : Throughout step
      (fun s : State T P => (∃ mail, Inv pools s mail) ∧ ∀ t, NoFailure (s.sender t))
      (init pools block mem) as := by
    refine throughout_of_meets ?_ ⟨⟨[], init_inv pools block mem⟩, fun _ _ _ h => by cases h⟩ hfew
    rintro s a ⟨⟨mail, h⟩, hno⟩ hf
    cases a with
    | task t next =>
      exact ⟨h.senderStep t next, senderStep_not_free (h.mailbox_room hf) hno t next⟩
    | thread ok =>
      refine ⟨h.threadStep ok, ?_⟩
      change ∀ t, NoFailure ((threadStep s ok).sender t)
      rw [threadStep_sender]
      exact hno
  obtain ⟨⟨mail, h⟩, hno⟩ := hall.last
  exact ⟨h.mailbox_room, hno⟩

/-- Two packets and a callback are in the mailbox. -/
def besideCallback : List (Act (Fin 2) ℕ) :=
  [.task 1 (some (tcpipTryCallback 5 0)), .task 1 none, .task 1 none, .task 1 none,
    .task 0 (some (tcpipInpkt 7)), .task 0 none, .task 0 none, .task 0 none,
    .task 0 (some (tcpipInpkt 8)), .task 0 none, .task 0 none, .task 0 none]

theorem packets_beside_callback :
    (run step (init memPools 536870912 fun _ => 0) besideCallback).mbox.uxMessagesWaiting <
      (run step (init memPools 536870912 fun _ => 0) besideCallback).mbox.uxLength :=
  (packets_never_find_mailbox_full memPools 536870912 (fun _ => 0) (by decide +kernel)).1
    (by decide +kernel)

end Room

end EthDriver.TcpipFifo

import EthDriver.QueueBlocking
import Mathlib.Data.Fintype.Card

namespace EthDriver.QueueWakeups

open Bytes Queues QueueBlocking QueueBlocking.State Runs

variable {T : Type} [DecidableEq T]

/-- The task has been put on the event list of its direction and has not come back to the
top of the loop. -/
def Placed (d : Dir) : Pc → Prop
  | .unlockTx c .block | .unlockRx c .block | .resume c .block | .waiting c => c.dir = d
  | _ => False

/-- The task tries its call before it can block again, if no event list holds it back. -/
def Trying (d : Dir) : Pc → Prop
  | .attempt c _ => c.dir = d
  | p => Placed d p

/-- The points at which the scheduler is suspended. -/
def Suspends : Pc → Prop
  | .lock _ | .checkTimeOut _ | .checkQueue _ | .place _ | .unlockTx _ _ | .unlockRx _ _
  | .resume _ _ => True
  | _ => False

/-- The points at which the lock count of the direction is in use. -/
def Locks : Dir → Pc → Prop
  | _, .checkTimeOut _ | _, .checkQueue _ | _, .place _ | _, .unlockTx _ _ => True
  | .send, .unlockRx _ _ => True
  | _, _ => False

instance (d : Dir) (p : Pc) : Decidable (Placed d p) := by
  unfold Placed
  split <;> infer_instance

instance (d : Dir) (p : Pc) : Decidable (Trying d p) := by
  unfold Trying
  split <;> infer_instance

variable [Fintype T]

/-- The tasks on their way to a call of the direction. -/
def attempts (s : State T) (d : Dir) : Finset T :=
  Finset.univ.filter fun t => Trying d (s.pc t) ∧ t ∉ s.waiting d

@[simp] theorem mem_attempts {s : State T} {d : Dir} {t : T} :
    t ∈ attempts s d ↔ Trying d (s.pc t) ∧ t ∉ s.waiting d := by
  simp [attempts]

/-- What holds between any two steps. -/
structure Inv (s : State T) : Prop where
  bound : s.queue.uxMessagesWaiting ≤ s.queue.uxLength
  alone : ∀ t, Suspends (s.pc t) → s.suspended = some t
  unlocked : ∀ d, s.lock d ≠ none ↔ ∃ t, Locks d (s.pc t)
  listed : ∀ d, ∀ t ∈ s.waiting d, Placed d (s.pc t)
  nodup : ∀ d, (s.waiting d).Nodup
  covered : ∀ d, (s.waiting d ≠ [] ∨ ∃ t c, s.pc t = .place c ∧ c.dir = d) →
    avail s.queue d ≤ (attempts s d).card + (s.lock d).getD 0

theorem Placed.trying {d : Dir} {p : Pc} (h : Placed d p) : Trying d p := by
  cases p with
  | attempt c block => exact absurd h id
  | _ => exact h

theorem Locks.suspends {d : Dir} {p : Pc} (h : Locks d p) : Suspends p := by
  cases d <;> cases p <;> trivial

section Counting

variable {s r : State T} {d : Dir}

theorem attempts_mono (hpc : ∀ u, Trying d (s.pc u) → u ∉ s.waiting d →
    Trying d (r.pc u) ∧ u ∉ r.waiting d) : (attempts s d).card ≤ (attempts r d).card := by
  apply Finset.card_le_card
  intro u hu
  rw [mem_attempts] at hu ⊢
  exact hpc u hu.1 hu.2

/-- One task that leaves counts for one. -/
theorem attempts_le_succ (t : T) (hpc : ∀ u ≠ t, r.pc u = s.pc u)
    (hw : r.waiting d = s.waiting d) :
    (attempts s d).card ≤ (attempts r d).card + 1 := by
  refine Nat.le_trans (Finset.card_le_card ?_) (Finset.card_insert_le t (attempts r d))
  intro u hu
  rw [Finset.mem_insert]
  by_cases he : u = t
  · exact .inl he
  · rw [mem_attempts] at hu
    right
    rw [mem_attempts, hpc u he, hw]
    exact hu

/-- The tasks that are taken off the event list are on their way. -/
theorem attempts_woken (h : Inv s) (hpc : ∀ u, Trying d (s.pc u) → Trying d (r.pc u)) {k : ℕ}
    (hk : k ≤ (s.waiting d).length) (hw : r.waiting d = (s.waiting d).drop k) :
    (attempts s d).card + k ≤ (attempts r d).card := by
  have hsplit := List.take_append_drop k (s.waiting d)
  have hnd := h.nodup d
  rw [← hsplit, List.nodup_append] at hnd
  have hlen : ((s.waiting d).take k).toFinset.card = k := by
    rw [List.toFinset_card_of_nodup hnd.1, List.length_take, Nat.min_eq_left hk]
  have hdisj : Disjoint (attempts s d) ((s.waiting d).take k).toFinset := by
    rw [Finset.disjoint_left]
    intro u hu hin
    rw [mem_attempts] at hu
    exact hu.2 (List.mem_of_mem_take (List.mem_toFinset.mp hin))
  have hsub : attempts s d ∪ ((s.waiting d).take k).toFinset ⊆ attempts r d := by
    intro u hu
    rw [mem_attempts, hw]
    rcases Finset.mem_union.mp hu with hu | hu
    · rw [mem_attempts] at hu
      exact ⟨hpc u hu.1, fun hin => hu.2 (List.mem_of_mem_drop hin)⟩
    · rw [List.mem_toFinset] at hu
      refine ⟨hpc u (h.listed d u (List.mem_of_mem_take hu)).trying, fun hin => ?_⟩
      exact hnd.2.2 u hu u hin rfl
  calc
    (attempts s d).card + k = (attempts s d ∪ ((s.waiting d).take k).toFinset).card := by
      rw [Finset.card_union_of_disjoint hdisj, hlen]
    _ ≤ (attempts r d).card := Finset.card_le_card hsub

end Counting

section Queue

variable {q q' : Queue} {c : Call}

theorem Dir.other_ne (d : Dir) : d.other ≠ d := by
  cases d <;> exact Dir.noConfusion

theorem Dir.eq_other {d e : Dir} (h : d ≠ e) : d = e.other := by
  cases d <;> cases e <;> first | rfl | exact absurd rfl h

theorem send_room {item : Memory} {pos : Position} (hp : pos ≠ .overwrite)
    (h : Queues.send q item pos = some q') :
    q.uxMessagesWaiting < q.uxLength ∧ q' = prvCopyDataToQueue q item pos := by
  rw [Queues.send] at h
  split at h
  · rename_i hroom
    exact ⟨hroom.resolve_right hp, (Option.some.inj h).symm⟩
  · cases h

theorem receive_count {bytes : List UInt8} (h : Queues.receive q = some (q', bytes)) :
    q.uxMessagesWaiting = q'.uxMessagesWaiting + 1 ∧ q'.uxLength = q.uxLength := by
  rw [Queues.receive] at h
  split at h
  · rename_i hpos
    obtain ⟨rfl, -⟩ := Prod.mk.inj (Option.some.inj h)
    refine ⟨(Nat.sub_add_cancel hpos).symm, ?_⟩
    rw [copyFrom_eq]
  · cases h

theorem front_ne_overwrite (front : Bool) :
    (if front then Position.sendToFront else .sendToBack) ≠ .overwrite := by
  cases front <;> exact Position.noConfusion

/-- A call uses up one place of its direction and provides one of the other. -/
theorem transfer_avail (hb : q.uxMessagesWaiting ≤ q.uxLength) (h : c.transfer q = some q') :
    avail q c.dir = avail q' c.dir + 1 ∧ avail q' c.dir.other = avail q c.dir.other + 1 ∧
      q'.uxMessagesWaiting ≤ q'.uxLength := by
  cases c with
  | send item front =>
    obtain ⟨hroom, hq⟩ := send_room (front_ne_overwrite front) h
    have hcount : q'.uxMessagesWaiting = q.uxMessagesWaiting + 1 := by
      rw [hq, copyTo_count q item (front_ne_overwrite front)]
    have hlen : q'.uxLength = q.uxLength := by rw [hq, copyTo_uxLength]
    change q.uxLength - q.uxMessagesWaiting = q'.uxLength - q'.uxMessagesWaiting + 1 ∧
      q'.uxMessagesWaiting = q.uxMessagesWaiting + 1 ∧ _
    omega
  | receive =>
    obtain ⟨⟨q'', bytes⟩, hr, rfl⟩ := Option.map_eq_some_iff.mp h
    obtain ⟨hcount, hlen⟩ := receive_count hr
    simp only [avail, Call.dir, Dir.other]
    omega

theorem transfer_eq_none (h : c.transfer q = none) : avail q c.dir = 0 := by
  cases c with
  | send item front =>
    rw [Call.transfer, Queues.send] at h
    generalize (if front then Position.sendToFront else .sendToBack) = pos at h
    split at h
    · cases h
    · rename_i hroom
      change q.uxLength - q.uxMessagesWaiting = 0
      omega
  | receive =>
    simp only [Call.transfer, Queues.receive, Option.map_eq_none_iff] at h
    split at h
    · cases h
    · rename_i hpos
      simp only [avail, Call.dir]
      omega

theorem stuck_avail (h : c.stuck q = true) : avail q c.dir = 0 := by
  cases c with
  | send item front =>
    have he : q.uxMessagesWaiting = q.uxLength := beq_iff_eq.mp h
    simp only [avail, Call.dir]
    omega
  | receive => exact beq_iff_eq.mp h

end Queue

/-- While task `t` may run, no other task is where the scheduler is suspended. -/
theorem Inv.others {s : State T} (h : Inv s) {t : T}
    (hrun : s.suspended = none ∨ s.suspended = some t) {u : T} (hu : u ≠ t) :
    ¬ Suspends (s.pc u) := by
  intro hs
  have hsome := h.alone u hs
  rcases hrun with hrun | hrun
  · rw [hrun] at hsome
    cases hsome
  · rw [hrun] at hsome
    exact hu (Option.some.inj hsome).symm

/-- What a step of task `t` has to keep. -/
theorem Inv.next {s s' : State T} (h : Inv s) {t : T}
    (hrun : s.suspended = none ∨ s.suspended = some t) (hpc : ∀ u ≠ t, s'.pc u = s.pc u)
    (hb : s'.queue.uxMessagesWaiting ≤ s'.queue.uxLength)
    (hsus : Suspends (s'.pc t) → s'.suspended = some t)
    (hlock : ∀ d, s'.lock d ≠ none ↔ Locks d (s'.pc t))
    (hold : ∀ d, ∀ u ∈ s'.waiting d, u ≠ t → u ∈ s.waiting d)
    (hplaced : ∀ d, t ∈ s'.waiting d → Placed d (s'.pc t))
    (hnd : ∀ d, (s'.waiting d).Nodup)
    (hcov : ∀ d, (s'.waiting d ≠ [] ∨ ∃ c, s'.pc t = .place c ∧ c.dir = d) →
      avail s'.queue d ≤ (attempts s' d).card + (s'.lock d).getD 0) : Inv s' := by
  have hothers : ∀ u ≠ t, ¬ Suspends (s'.pc u) := by
    intro u hu
    rw [hpc u hu]
    exact h.others hrun hu
  constructor
  · exact hb
  · intro u hs
    by_cases hu : u = t
    · rw [hu] at hs ⊢
      exact hsus hs
    · exact absurd hs (hothers u hu)
  · intro d
    rw [hlock d]
    constructor
    · intro hl
      exact ⟨t, hl⟩
    · rintro ⟨u, hl⟩
      by_cases hu : u = t
      · rwa [hu] at hl
      · exact absurd hl.suspends (hothers u hu)
  · intro d u hin
    by_cases hu : u = t
    · rw [hu] at hin ⊢
      exact hplaced d hin
    · rw [hpc u hu]
      exact h.listed d u (hold d u hin hu)
  · exact hnd
  · intro d hd
    apply hcov d
    rcases hd with hd | ⟨u, c, hp, hdir⟩
    · exact .inl hd
    · by_cases hu : u = t
      · rw [hu] at hp
        exact .inr ⟨c, hp, hdir⟩
      · refine absurd ?_ (hothers u hu)
        rw [hp]
        trivial

section Steps

variable {s : State T} {t : T}

theorem Inv.lock_iff (h : Inv s) (hrun : s.suspended = none ∨ s.suspended = some t) (d : Dir) :
    s.lock d ≠ none ↔ Locks d (s.pc t) := by
  rw [h.unlocked d]
  constructor
  · rintro ⟨u, hl⟩
    by_cases hu : u = t
    · rwa [hu] at hl
    · exact absurd hl.suspends (h.others hrun hu)
  · intro hl
    exact ⟨t, hl⟩

/-- A step of task `t` that leaves the queue, its locks and the event lists alone. -/
theorem Inv.goto (h : Inv s) (hrun : s.suspended = none ∨ s.suspended = some t) {p : Pc}
    {sus : Option T} (hsus : Suspends p → sus = some t)
    (hlocks : ∀ d, Locks d p ↔ Locks d (s.pc t))
    (hplaced : ∀ d, t ∈ s.waiting d → Placed d p)
    (hplace : ∀ c, p = .place c → avail s.queue c.dir = 0)
    (htry : ∀ d, Trying d (s.pc t) → t ∉ s.waiting d → Trying d p ∨ avail s.queue d = 0) :
    Inv { s.goto t p with suspended := sus } := by
  apply h.next hrun
  · intro u hu
    exact s.goto_pc_ne t p hu
  · exact h.bound
  · intro hs
    exact hsus (by simpa using hs)
  · intro d
    simpa [hlocks d] using h.lock_iff hrun d
  · intro d u hu _
    exact hu
  · intro d hin
    simpa using hplaced d hin
  · exact h.nodup
  · intro d hd
    change avail s.queue d ≤ _
    rcases Nat.eq_zero_or_pos (avail s.queue d) with h0 | hpos
    · omega
    rcases hd with hd | ⟨c, hc, rfl⟩
    · refine Nat.le_trans (h.covered d (.inl hd)) (Nat.add_le_add_right ?_ _)
      apply attempts_mono
      intro u hu hw
      refine ⟨?_, hw⟩
      by_cases he : u = t
      · subst he
        simpa using (htry d hu hw).resolve_right (by omega)
      · simpa [goto_pc_ne _ _ _ he] using hu
    · have h0 := hplace c (by simpa using hc)
      omega

theorem nodup_wake (h : Inv s) (d e : Dir) : ((s.wake d).waiting e).Nodup := by
  by_cases he : e = d
  · rw [he, wake_self]
    exact (h.nodup d).tail
  · rw [wake_ne he]
    exact h.nodup e

/-- The call goes through: one task less is on its way in its own direction, and one more in
the other unless nobody waits there. -/
theorem Inv.attempt (h : Inv s) (hrun : s.suspended = none ∨ s.suspended = some t) {c : Call}
    {block : Bool} (hpc : s.pc t = .attempt c block) {q : Queue}
    (hq : c.transfer s.queue = some q) :
    Inv ((({ s with queue := q }).wake c.dir.other).goto t .idle) := by
  obtain ⟨hown, hother, hb⟩ := transfer_avail h.bound hq
  have hlock := h.lock_iff hrun
  apply h.next hrun
  · intro u hu
    exact goto_pc_ne _ _ _ hu
  · exact hb
  · intro hs
    rw [goto_pc] at hs
    exact absurd hs id
  · intro d
    rw [goto_pc]
    rw [hpc] at hlock
    cases d <;> exact hlock _
  · intro d u hu _
    exact mem_wake (s := s) hu
  · intro d hin
    have hold := h.listed d t (mem_wake (s := s) hin)
    rw [hpc] at hold
    exact absurd hold id
  · exact fun d => nodup_wake h c.dir.other d
  · intro d hd
    have hne : (s.wake c.dir.other).waiting d ≠ [] := by
      rcases hd with hd | ⟨c', hc', -⟩
      · exact hd
      · rw [goto_pc] at hc'
        cases hc'
    change avail q d ≤ _ + (s.lock d).getD 0
    by_cases he : d = c.dir
    · subst he
      rw [wake_ne (Dir.other_ne c.dir).symm] at hne
      have hcov := h.covered _ (.inl hne)
      have hle := attempts_le_succ (s := s)
        (r := (({ s with queue := q }).wake c.dir.other).goto t .idle) (d := c.dir) t
        (fun u hu => goto_pc_ne _ _ _ hu) (wake_ne (Dir.other_ne c.dir).symm)
      omega
    · obtain rfl := Dir.eq_other he
      rw [wake_self] at hne
      have hne' : s.waiting c.dir.other ≠ [] := fun he => hne (by rw [he]; rfl)
      have hcov := h.covered _ (.inl hne')
      have hlen := List.length_pos_iff.mpr hne'
      have hle := attempts_woken (r := (({ s with queue := q }).wake c.dir.other).goto t .idle)
        h (d := c.dir.other) ?_ hlen ?_
      · omega
      · intro u hu
        by_cases hut : u = t
        · rw [hut, hpc] at hu
          exact absurd hu.symm he
        · rwa [goto_pc_ne _ _ _ hut]
      · rw [goto_waiting, List.drop_one]
        exact wake_self _

theorem Inv.lock (h : Inv s) (hrun : s.suspended = none ∨ s.suspended = some t) {c : Call}
    (hpc : s.pc t = .lock c) : Inv (s.lockQueue.goto t (.checkTimeOut c)) := by
  have hsus := h.alone t (by rw [hpc]; trivial)
  apply h.next hrun
  · intro u hu
    exact goto_pc_ne _ _ _ hu
  · exact h.bound
  · exact fun _ => hsus
  · intro d
    rw [goto_pc]
    exact ⟨fun _ => by cases d <;> trivial, fun _ => Option.some_ne_none _⟩
  · intro d u hu _
    exact hu
  · intro d hin
    have hold := h.listed d t hin
    rw [hpc] at hold
    exact absurd hold id
  · exact h.nodup
  · intro d hd
    have hne : s.waiting d ≠ [] := by
      rcases hd with hd | ⟨c', hc', -⟩
      · exact hd
      · rw [goto_pc] at hc'
        cases hc'
    refine Nat.le_trans (h.covered d (.inl hne)) (Nat.add_le_add_right ?_ _)
    apply attempts_mono
    intro u hu hw
    refine ⟨?_, hw⟩
    by_cases he : u = t
    · rw [he, hpc] at hu
      exact absurd hu id
    · rwa [goto_pc_ne _ _ _ he]

/-- A task that goes on the event list has seen the queue full or empty, and what came since
then is in the lock count. -/
theorem Inv.place (h : Inv s) (hrun : s.suspended = none ∨ s.suspended = some t)
    (priority : T → ℕ) {c : Call} (hpc : s.pc t = .place c) :
    Inv ((s.enqueue priority c.dir t).goto t (.unlockTx c .block)) := by
  have hsus := h.alone t (by rw [hpc]; trivial)
  have hlock := h.lock_iff hrun
  have hout : ∀ d, t ∉ s.waiting d := by
    intro d hin
    have hold := h.listed d t hin
    rw [hpc] at hold
    exact absurd hold id
  apply h.next hrun
  · intro u hu
    exact goto_pc_ne _ _ _ hu
  · exact h.bound
  · exact fun _ => hsus
  · intro d
    rw [goto_pc]
    rw [hpc] at hlock
    cases d <;> exact hlock _
  · intro d u hu hne
    by_cases hd : d = c.dir
    · subst hd
      exact ((mem_enqueue_self priority c.dir).mp hu).resolve_left hne
    · rwa [goto_waiting, enqueue_ne priority t hd] at hu
  · intro d hin
    rw [goto_pc]
    by_contra hd
    rw [goto_waiting, enqueue_ne priority t (Ne.symm hd)] at hin
    exact hout d hin
  · intro d
    by_cases hd : d = c.dir
    · subst hd
      exact nodup_enqueue_self priority (hout _) (h.nodup _)
    · rw [goto_waiting, enqueue_ne priority t hd]
      exact h.nodup d
  · intro d hd
    have hcov := h.covered d (by
      by_cases he : d = c.dir
      · exact .inr ⟨t, c, hpc, he.symm⟩
      · rcases hd with hd | ⟨c', hc', -⟩
        · rw [goto_waiting, enqueue_ne priority t he] at hd
          exact .inl hd
        · rw [goto_pc] at hc'
          cases hc')
    refine Nat.le_trans hcov (Nat.add_le_add_right ?_ _)
    apply attempts_mono
    intro u hu hw
    have hut : u ≠ t := by
      intro he
      rw [he, hpc] at hu
      exact absurd hu id
    refine ⟨by rwa [goto_pc_ne _ _ _ hut], ?_⟩
    by_cases he : d = c.dir
    · subst he
      rw [goto_waiting, mem_enqueue_self]
      exact fun hor => hor.elim hut hw
    · rwa [goto_waiting, enqueue_ne priority t he]

/-- One half of `prvUnlockQueue`: what the lock counted is now on its way. -/
theorem Inv.unlock (h : Inv s) (hrun : s.suspended = none ∨ s.suspended = some t) (d : Dir)
    {p : Pc} (hnow : Suspends (s.pc t)) (hlocks : ∀ e, Locks e p ↔ Locks e (s.pc t) ∧ e ≠ d)
    (hplaced : ∀ e, Placed e (s.pc t) → Placed e p) (htry : ∀ e, Trying e (s.pc t) → Trying e p)
    (hno : ∀ c, p ≠ .place c) : Inv ((s.unlockQueue d).goto t p) := by
  have hlock := h.lock_iff hrun
  have hpc : ∀ u ≠ t, ((s.unlockQueue d).goto t p).pc u = s.pc u := by
    intro u hu
    rw [goto_pc_ne _ _ _ hu, unlockQueue_pc]
  have htrying : ∀ e u, Trying e (s.pc u) → Trying e (((s.unlockQueue d).goto t p).pc u) := by
    intro e u hu
    by_cases hut : u = t
    · subst hut
      rw [goto_pc]
      exact htry e hu
    · rwa [hpc u hut]
  apply h.next hrun hpc
  · rw [goto_queue, unlockQueue_queue]
    exact h.bound
  · intro _
    rw [goto_suspended, unlockQueue_suspended]
    exact h.alone t hnow
  · intro e
    rw [goto_pc, goto_lock, hlocks e, ← hlock e]
    change Function.update s.lock d none e ≠ none ↔ _
    by_cases he : e = d
    · subst he
      simp
    · rw [Function.update_of_ne he]
      simp [he]
  · intro e u hu _
    exact (unlockQueue_sublist d e).subset hu
  · intro e hin
    rw [goto_pc]
    exact hplaced e (h.listed e t ((unlockQueue_sublist d e).subset hin))
  · intro e
    exact (h.nodup e).sublist (unlockQueue_sublist d e)
  · intro e he
    have hne : (s.unlockQueue d).waiting e ≠ [] := by
      rcases he with he | ⟨c', hc', -⟩
      · exact he
      · rw [goto_pc] at hc'
        exact absurd hc' (hno c')
    have hcov := h.covered e (.inl fun hnil => hne (by
      have hs := unlockQueue_sublist (s := s) d e
      rw [hnil] at hs
      exact List.sublist_nil.mp hs))
    rw [goto_queue, unlockQueue_queue]
    by_cases hed : e = d
    · subst hed
      rw [unlockQueue_self] at hne
      have hk : (s.lock e).getD 0 ≤ (s.waiting e).length := by
        by_contra hgt
        exact hne (List.drop_eq_nil_of_le (by omega))
      have hle := attempts_woken (r := (s.unlockQueue e).goto t p) h (htrying e) hk
        (unlockQueue_self e)
      omega
    · have hle := attempts_mono (s := s) (r := (s.unlockQueue d).goto t p) (d := e) (by
        intro u hu hw
        refine ⟨htrying e u hu, ?_⟩
        rwa [goto_waiting, unlockQueue_ne hed])
      have hl : ((s.unlockQueue d).goto t p).lock e = s.lock e := Function.update_of_ne hed ..
      rw [hl]
      omega

theorem Inv.timeout (h : Inv s) :
    Inv { s with waiting := fun d => (s.waiting d).erase t } where
  bound := h.bound
  alone := h.alone
  unlocked := h.unlocked
  listed d u hu := h.listed d u (List.mem_of_mem_erase hu)
  nodup d := (h.nodup d).erase t
  covered d hd := by
    have hcov := h.covered d (hd.imp_left fun hne hnil => hne (by simp [hnil]))
    refine Nat.le_trans hcov (Nat.add_le_add_right ?_ _)
    apply attempts_mono
    intro u hu hw
    exact ⟨hu, fun hin => hw (List.mem_of_mem_erase hin)⟩

/-- An interrupt wakes the next task itself while the queue is not locked. -/
theorem Inv.isr_unlocked (h : Inv s) {c : Call} {q : Queue} (hq : c.transfer s.queue = some q)
    (hl : s.lock c.dir.other = none) : Inv (({ s with queue := q }).wake c.dir.other) := by
  obtain ⟨hown, hother, hb⟩ := transfer_avail h.bound hq
  constructor
  · exact hb
  · exact h.alone
  · exact h.unlocked
  · intro d u hu
    exact h.listed d u (mem_wake (s := s) hu)
  · exact fun d => nodup_wake h c.dir.other d
  · intro d hd
    change avail q d ≤ _ + (s.lock d).getD 0
    by_cases he : d = c.dir
    · subst he
      have hw : (s.wake c.dir.other).waiting c.dir = s.waiting c.dir :=
        wake_ne (Dir.other_ne c.dir).symm
      have hcov := h.covered c.dir (hd.imp_left fun hne => by rwa [← hw])
      have hle := attempts_mono (s := s) (r := ({ s with queue := q }).wake c.dir.other)
        (d := c.dir) fun u hu hin => ⟨hu, by rwa [← hw] at hin⟩
      omega
    · obtain rfl := Dir.eq_other he
      rcases hd with hne | ⟨u, c', hp, hdir⟩
      · have hne' : s.waiting c.dir.other ≠ [] := by
          intro hnil
          apply hne
          change (s.wake c.dir.other).waiting c.dir.other = []
          rw [wake_self, hnil]
          rfl
        have hcov := h.covered _ (.inl hne')
        have hle := attempts_woken (r := ({ s with queue := q }).wake c.dir.other) h
          (d := c.dir.other) (fun _ hu => hu) (List.length_pos_iff.mpr hne')
          (by rw [List.drop_one]; exact wake_self (s := s) _)
        omega
      · have hlocked := (h.unlocked c.dir.other).mpr ⟨u, by
          rw [show s.pc u = .place c' from hp]
          cases c.dir.other <;> trivial⟩
        exact absurd hl hlocked

/-- Otherwise it leaves that to the task that has locked the queue. -/
theorem Inv.isr_locked (h : Inv s) {c : Call} {q : Queue} (hq : c.transfer s.queue = some q)
    {k : ℕ} (hl : s.lock c.dir.other = some k) :
    Inv { s with queue := q, lock := Function.update s.lock c.dir.other (some (k + 1)) } := by
  obtain ⟨hown, hother, hb⟩ := transfer_avail h.bound hq
  have hlock : ∀ d, Function.update s.lock c.dir.other (some (k + 1)) d ≠ none ↔
      s.lock d ≠ none := by
    intro d
    by_cases he : d = c.dir.other
    · subst he
      simp [hl]
    · rw [Function.update_of_ne he]
  constructor
  · exact hb
  · exact h.alone
  · exact fun d => (hlock d).trans (h.unlocked d)
  · exact h.listed
  · exact h.nodup
  · intro d hd
    have hcov := h.covered d hd
    change avail q d ≤ (attempts s d).card + (Function.update s.lock _ _ d).getD 0
    by_cases he : d = c.dir
    · subst he
      rw [Function.update_of_ne (Dir.other_ne c.dir).symm]
      omega
    · obtain rfl := Dir.eq_other he
      rw [hl, Option.getD_some] at hcov
      rw [Function.update_self, Option.getD_some]
      omega

theorem Inv.isr (h : Inv s) (c : Call) : (fromIsr s c).stopped = true ∨ Inv (fromIsr s c) := by
  rw [fromIsr]
  split
  · exact .inr h
  · rename_i q hq
    split
    · rename_i hl
      exact .inr (h.isr_unlocked hq hl)
    · rename_i k hl
      split
      · exact .inl rfl
      · exact .inr (h.isr_locked hq hl)

theorem Inv.taskStep (h : Inv s) (hrun : s.suspended = none ∨ s.suspended = some t)
    (priority : T → ℕ) (next : Option (Call × Bool)) (expired : Bool) :
    Inv (QueueBlocking.taskStep priority s t next expired) := by
  have hlisted : ∀ d, t ∈ s.waiting d → Placed d (s.pc t) := fun d => h.listed d t
  have hsus : Suspends (s.pc t) → s.suspended = some t := h.alone t
  have hgoto : ∀ p sus, (Suspends p → sus = some t) → (∀ d, Locks d p ↔ Locks d (s.pc t)) →
      (∀ d, t ∈ s.waiting d → Placed d p) → (∀ c, p = .place c → avail s.queue c.dir = 0) →
      (∀ d, Trying d (s.pc t) → t ∉ s.waiting d → Trying d p ∨ avail s.queue d = 0) →
      Inv { s.goto t p with suspended := sus } :=
    fun p sus => h.goto hrun
  have hunlock : ∀ d p, Suspends (s.pc t) → (∀ e, Locks e p ↔ Locks e (s.pc t) ∧ e ≠ d) →
      (∀ e, Placed e (s.pc t) → Placed e p) → (∀ e, Trying e (s.pc t) → Trying e p) →
      (∀ c, p ≠ .place c) → Inv ((s.unlockQueue d).goto t p) :=
    fun d p => h.unlock hrun d
  unfold QueueBlocking.taskStep
  generalize hpc : s.pc t = p at hlisted hsus hgoto hunlock ⊢
  cases p with
  | idle =>
    cases next with
    | none => exact h
    | some call =>
      apply hgoto _ s.suspended
      · exact fun hs => absurd hs id
      · exact fun d => by cases d <;> exact Iff.rfl
      · exact fun d hin => absurd (hlisted d hin) id
      · exact fun c hc => Pc.noConfusion hc
      · exact fun d hp => absurd hp id
  | attempt c block =>
    simp only
    cases hq : c.transfer s.queue with
    | some q => exact h.attempt hrun hpc hq
    | none =>
      have h0 := transfer_eq_none hq
      apply hgoto _ s.suspended
      · cases block <;> exact fun hs => absurd hs id
      · exact fun d => by cases d <;> cases block <;> exact Iff.rfl
      · exact fun d hin => absurd (hlisted d hin) id
      · cases block <;> exact fun c hc => Pc.noConfusion hc
      · intro d hp _
        right
        rwa [← show c.dir = d from hp]
  | suspend c =>
    apply hgoto _ (some t)
    · exact fun _ => rfl
    · exact fun d => by cases d <;> exact Iff.rfl
    · exact fun d hin => absurd (hlisted d hin) id
    · exact fun c hc => Pc.noConfusion hc
    · exact fun d hp => absurd hp id
  | lock c => exact h.lock hrun hpc
  | checkTimeOut c =>
    apply hgoto _ s.suspended
    · exact fun _ => hsus trivial
    · exact fun d => by cases d <;> cases expired <;> exact Iff.rfl
    · exact fun d hin => absurd (hlisted d hin) id
    · cases expired <;> exact fun c hc => Pc.noConfusion hc
    · exact fun d hp => absurd hp id
  | checkQueue c =>
    apply hgoto _ s.suspended
    · exact fun _ => hsus trivial
    · exact fun d => by split <;> cases d <;> exact Iff.rfl
    · exact fun d hin => absurd (hlisted d hin) id
    · intro c' hc'
      split at hc'
      · rename_i hstuck
        obtain rfl := Pc.place.inj hc'
        exact stuck_avail hstuck
      · exact Pc.noConfusion hc'
    · exact fun d hp => absurd hp id
  | place c => exact h.place hrun priority hpc
  | unlockTx c k =>
    apply hunlock .receive
    · trivial
    · exact fun e => by cases e <;> simp [Locks]
    · cases k <;> exact fun e hp => hp
    · cases k <;> exact fun e hp => hp
    · exact fun c hc => Pc.noConfusion hc
  | unlockRx c k =>
    apply hunlock .send
    · trivial
    · exact fun e => by cases e <;> simp [Locks]
    · cases k <;> exact fun e hp => hp
    · cases k <;> exact fun e hp => hp
    · exact fun c hc => Pc.noConfusion hc
  | resume c k =>
    apply hgoto _ none
    · cases k <;> exact fun hs => absurd hs id
    · exact fun d => by cases d <;> cases k <;> exact Iff.rfl
    · intro d hin
      have hp := hlisted d hin
      cases k with
      | block => exact hp
      | retry => exact absurd hp id
      | expired => exact absurd hp id
    · cases k <;> exact fun c hc => Pc.noConfusion hc
    · intro d hp _
      cases k with
      | block => exact .inl hp
      | retry => exact absurd hp id
      | expired => exact absurd hp id
  | waiting c =>
    simp only
    split
    · exact h
    · rename_i hout
      apply hgoto _ s.suspended
      · exact fun hs => absurd hs id
      · exact fun d => by cases d <;> exact Iff.rfl
      · intro d hin
        rw [← show c.dir = d from hlisted d hin] at hin
        exact absurd hin hout
      · exact fun c hc => Pc.noConfusion hc
      · exact fun d hp _ => .inl hp
  | recheck c =>
    cases c with
    | send item front =>
      apply hgoto _ s.suspended
      · exact fun hs => absurd hs id
      · exact fun d => by cases d <;> exact Iff.rfl
      · exact fun d hin => absurd (hlisted d hin) id
      · exact fun c hc => Pc.noConfusion hc
      · exact fun d hp => absurd hp id
    | receive =>
      apply hgoto _ s.suspended
      · split <;> exact fun hs => absurd hs id
      · exact fun d => by split <;> cases d <;> exact Iff.rfl
      · exact fun d hin => absurd (hlisted d hin) id
      · split <;> exact fun c hc => Pc.noConfusion hc
      · exact fun d hp => absurd hp id

theorem step_inv (priority : T → ℕ) (s : State T) (a : Act T) (h : s.stopped = true ∨ Inv s) :
    (step priority s a).stopped = true ∨ Inv (step priority s a) := by
  unfold step
  split
  · exact h
  · rename_i hgo
    have hinv := h.resolve_left hgo
    cases a with
    | task t next expired =>
      simp only
      split
      · rename_i hrun
        exact .inr (hinv.taskStep hrun priority next expired)
      · exact .inr hinv
    | isr c => exact hinv.isr c
    | timeout t =>
      simp only
      split
      · exact .inr hinv.timeout
      · exact .inr hinv

end Steps

theorem init_inv {q : Queue} (hb : q.uxMessagesWaiting ≤ q.uxLength) :
    Inv (init q : State T) where
  bound := hb
  alone t ht := absurd ht id
  unlocked d := by
    constructor
    · exact fun h => absurd rfl h
    · rintro ⟨t, ht⟩
      cases d <;> exact absurd ht id
  listed d t ht := absurd ht List.not_mem_nil
  nodup d := List.nodup_nil
  covered d hd := by
    rcases hd with hd | ⟨t, c, hp, -⟩
    · exact absurd rfl hd
    · exact Pc.noConfusion hp

/-- A state that the tasks and the interrupts can reach in some order. -/
def Reachable (priority : T → ℕ) (q : Queue) (s : State T) : Prop :=
  ∃ as, s = run (step priority) (init q) as

theorem Reachable.inv {priority : T → ℕ} {q : Queue} {s : State T}
    (h : Reachable priority q s) (hb : q.uxMessagesWaiting ≤ q.uxLength)
    (hgo : s.stopped = false) : Inv s := by
  obtain ⟨as, rfl⟩ := h
  have hinv := run_invariant (P := fun s => s.stopped = true ∨ Inv s) (step_inv priority)
    (.inr (init_inv hb)) as
  exact hinv.resolve_left (by rw [hgo]; exact Bool.false_ne_true)

/-- No wake-up gets lost. While a task waits on an event list of the queue there are at most
as many items, or free places, as there are other tasks on their way to take one, plus those
that the task which has locked the queue will wake when it unlocks it. While the scheduler
runs there is no such task. -/
theorem no_wakeup_lost (priority : T → ℕ) {q : Queue} (hb : q.uxMessagesWaiting ≤ q.uxLength)
    {s : State T} (hs : Reachable priority q s) (hgo : s.stopped = false) {d : Dir} {t : T}
    (ht : t ∈ s.waiting d) :
    t ∉ attempts s d ∧ avail s.queue d ≤ (attempts s d).card + (s.lock d).getD 0 ∧
      (s.suspended = none → s.lock d = none) := by
  have h := hs.inv hb hgo
  refine ⟨?_, h.covered d (.inl (List.ne_nil_of_mem ht)), ?_⟩
  · rw [mem_attempts]
    exact fun hin => hin.2 ht
  · intro hsus
    by_contra hlock
    obtain ⟨u, hu⟩ := (h.unlocked d).mp hlock
    have hsome := h.alone u hu.suspends
    rw [hsus] at hsome
    cases hsome

/-- A binary semaphore at some address, empty. -/
def binarySemaphore : Queue := prvInitialiseNewQueue 1 0 536870912 fun _ => 0

/-- A task that finds the semaphore empty and is about to go on the event list when the
interrupt gives it: the token is in the lock count. -/
theorem give_while_blocking :
    ∃ s : State (Fin 2), s.suspended = some 0 ∧ 0 ∈ s.waiting .receive ∧
      avail s.queue .receive = 1 ∧ attempts s .receive = ∅ ∧
      avail s.queue .receive ≤ (attempts s .receive).card + (s.lock .receive).getD 0 := by
  let as : List (Act (Fin 2)) :=
    .task 0 (some (.receive, true)) false :: List.replicate 5 (.task 0 none false) ++
      [.isr (.send (fun _ => 0) false), .task 0 none false]
  refine ⟨run (step fun _ => 5) (init binarySemaphore) as, by decide, by decide, by decide,
    by decide, ?_⟩
  exact (no_wakeup_lost (fun _ => 5) (q := binarySemaphore) (by decide) ⟨as, rfl⟩ (by decide)
    (d := .receive) (t := 0) (by decide)).2.1

section Senders

/-- The interrupts of this action only send to an end of the queue, or give. -/
def IsrSends : Act T → Prop
  | .isr c => c.dir = .send
  | _ => True

/-- The lock counts no more than there is in the queue. -/
structure Counted (len : ℕ) (s : State T) : Prop where
  length : s.queue.uxLength = len
  tx : ∀ k, s.lock .receive = some k → k ≤ s.queue.uxMessagesWaiting
  rx : ∀ k, s.lock .send = some k → k = 0

variable {s : State T} {len : ℕ}

theorem transfer_length {c : Call} {q q' : Queue} (h : c.transfer q = some q') :
    q'.uxLength = q.uxLength := by
  cases c with
  | send item front =>
    obtain ⟨-, rfl⟩ := send_room (front_ne_overwrite front) h
    exact copyTo_uxLength ..
  | receive =>
    obtain ⟨⟨q'', bytes⟩, hr, rfl⟩ := Option.map_eq_some_iff.mp h
    exact (receive_count hr).2

omit [Fintype T] in
/-- Steps that leave the queue and its locks alone. -/
theorem Counted.goto (hc : Counted len s) (t : T) (p : Pc) (sus : Option T) :
    Counted len { s.goto t p with suspended := sus } :=
  ⟨hc.length, hc.tx, hc.rx⟩

theorem Counted.taskStep (hc : Counted len s) (h : Inv s) {t : T}
    (hrun : s.suspended = none ∨ s.suspended = some t) (priority : T → ℕ)
    (next : Option (Call × Bool)) (expired : Bool) :
    Counted len (QueueBlocking.taskStep priority s t next expired) ∧
      (QueueBlocking.taskStep priority s t next expired).stopped = s.stopped := by
  have hlock := h.lock_iff hrun
  -- a task that takes part in the transfer finds the queue unlocked
  have hopen : (∀ d, ¬ Locks d (s.pc t)) → ∀ d, s.lock d = none :=
    fun hno d => by_contra fun hl => hno d ((hlock d).mp hl)
  unfold QueueBlocking.taskStep
  generalize s.pc t = p at hopen ⊢
  cases p with
  | idle =>
    cases next with
    | none => exact ⟨hc, rfl⟩
    | some call => exact ⟨hc.goto t _ s.suspended, rfl⟩
  | attempt c block =>
    have hnone := hopen fun d => by cases d <;> exact id
    simp only
    split
    · rename_i q hq
      refine ⟨⟨(transfer_length hq).trans hc.length, ?_, ?_⟩, rfl⟩
      · intro k hk
        exact absurd ((hnone .receive).symm.trans hk) (Option.some_ne_none k).symm
      · intro k hk
        exact absurd ((hnone .send).symm.trans hk) (Option.some_ne_none k).symm
    · exact ⟨hc.goto t _ s.suspended, rfl⟩
  | lock c =>
    have hnone := hopen fun d => by cases d <;> exact id
    refine ⟨⟨hc.length, ?_, ?_⟩, rfl⟩
    · intro k hk
      have hk' : some ((s.lock .receive).getD 0) = some k := hk
      rw [hnone] at hk'
      rw [← Option.some.inj hk']
      exact Nat.zero_le _
    · intro k hk
      have hk' : some ((s.lock .send).getD 0) = some k := hk
      rw [hnone] at hk'
      exact (Option.some.inj hk').symm
  | place c => exact ⟨⟨hc.length, hc.tx, hc.rx⟩, rfl⟩
  | unlockTx c k =>
    refine ⟨⟨?_, ?_, ?_⟩, unlockQueue_stopped .receive⟩
    · rw [goto_queue, unlockQueue_queue, hc.length]
    · intro j hj
      exact absurd hj (Option.some_ne_none j).symm
    · exact hc.rx
  | unlockRx c k =>
    refine ⟨⟨?_, ?_, ?_⟩, unlockQueue_stopped .send⟩
    · rw [goto_queue, unlockQueue_queue, hc.length]
    · rw [goto_queue, unlockQueue_queue]
      exact hc.tx
    · intro j hj
      exact absurd hj (Option.some_ne_none j).symm
  | waiting c =>
    simp only
    split
    · exact ⟨hc, rfl⟩
    · exact ⟨hc.goto t _ s.suspended, rfl⟩
  | recheck c => cases c <;> exact ⟨hc.goto t _ s.suspended, rfl⟩
  | _ => exact ⟨hc.goto t _ _, rfl⟩

omit [DecidableEq T] [Fintype T] in
theorem Counted.isr (hc : Counted len s) (hmax : len ≤ queueInt8Max)
    (hb : s.queue.uxMessagesWaiting ≤ s.queue.uxLength) {c : Call} (hdir : c.dir = .send) :
    Counted len (fromIsr s c) ∧ (fromIsr s c).stopped = s.stopped := by
  rw [fromIsr]
  split
  · exact ⟨hc, rfl⟩
  · rename_i q hq
    obtain ⟨-, hadd, hb'⟩ := transfer_avail hb hq
    have hlen := transfer_length hq
    rw [hdir] at hadd ⊢
    change q.uxMessagesWaiting = s.queue.uxMessagesWaiting + 1 at hadd
    simp only [Dir.other]
    split
    · rename_i hl
      refine ⟨⟨hlen.trans hc.length, ?_, hc.rx⟩, rfl⟩
      intro k hk
      exact absurd (hl.symm.trans hk) (Option.some_ne_none k).symm
    · rename_i k hl
      have hk := hc.tx k hl
      have hl' := hc.length
      rw [if_neg (by omega)]
      refine ⟨⟨hlen.trans hc.length, ?_, hc.rx⟩, rfl⟩
      intro j hj
      have hj' : some (k + 1) = some j := by simpa using hj
      rw [← Option.some.inj hj']
      change k + 1 ≤ q.uxMessagesWaiting
      omega

theorem Counted.step (hc : Counted len s) (h : Inv s) (hmax : len ≤ queueInt8Max)
    (priority : T → ℕ) {a : Act T} (ha : IsrSends a) (hgo : s.stopped = false) :
    Counted len (step priority s a) ∧ (step priority s a).stopped = false := by
  unfold QueueBlocking.step
  rw [if_neg (by rw [hgo]; exact Bool.false_ne_true)]
  cases a with
  | task t next expired =>
    simp only
    split
    · rename_i hrun
      have hnext := hc.taskStep h hrun priority next expired
      exact ⟨hnext.1, hnext.2.trans hgo⟩
    · exact ⟨hc, hgo⟩
  | isr c =>
    have hnext := hc.isr hmax h.bound ha
    exact ⟨hnext.1, hnext.2.trans hgo⟩
  | timeout t =>
    simp only
    split
    · exact ⟨⟨hc.length, hc.tx, hc.rx⟩, hgo⟩
    · exact ⟨hc, hgo⟩

/-- Where the interrupts only send to the back or the front, or give, as those of the Ethernet
driver do, the `configASSERT` on the lock count of a queue of at most 127 items never stops the
program. -/
theorem senders_never_stop (priority : T → ℕ) {q : Queue}
    (hb : q.uxMessagesWaiting ≤ q.uxLength) (hmax : q.uxLength ≤ queueInt8Max)
    {as : List (Act T)} (has : ∀ a ∈ as, IsrSends a) :
    (run (step priority) (init q) as).stopped = false := by
  have hall : Inv (run (step priority) (init q) as) ∧
      Counted q.uxLength (run (step priority) (init q) as) ∧
      (run (step priority) (init q) as).stopped = false := by
    refine run_invariant_of
      (P := fun s => Inv s ∧ Counted q.uxLength s ∧ s.stopped = false) ?_ ?_ has
    · rintro s a ha ⟨h, hc, hgo⟩
      have hnext := hc.step h hmax priority ha hgo
      refine ⟨?_, hnext⟩
      exact (step_inv priority s a (.inr h)).resolve_left (by
        rw [hnext.2]
        exact Bool.false_ne_true)
    · exact ⟨init_inv hb, ⟨rfl, fun k hk => absurd hk (Option.some_ne_none k).symm,
        fun k hk => absurd hk (Option.some_ne_none k).symm⟩, rfl⟩
  exact hall.2.2

/-- Two interrupts while a task is locking the semaphore. -/
theorem gives_while_locking : (run (step fun _ => 5) (init binarySemaphore : State (Fin 2))
    [.task 0 (some (.receive, true)) false, .task 0 none false, .task 0 none false,
      .task 0 none false, .isr (.send (fun _ => 0) false),
      .isr (.send (fun _ => 0) false)]).stopped =
    false := by
  apply senders_never_stop _ (by decide) (by decide)
  simp [IsrSends, Call.dir]

end Senders

end EthDriver.QueueWakeups

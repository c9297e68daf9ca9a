import EthDriver.RxLoops

namespace EthDriver.RxDrain

open Bits Bytes Cyclic Descriptors Pbufs Runs RxRing RxInvariant NetifInput RxLoops

variable {n : ℕ}

/-- A ring content: the driver's position and the status words of the descriptors received
from there on. -/
structure Content (n : ℕ) where
  first : Fin (n + 1)
  pending : List (BitVec 32)
  fits : pending.length ≤ n + 1
  received : ∀ st ∈ pending, test st ethDmaRxDescOwn = false

/-- The DMA owns the descriptors that hold nothing. -/
def Content.table (c : Content n) : Table (n + 1) := fun i =>
  { ethDmaRxDescChainInit n i with
    status := (c.pending[(i - c.first).val]?).getD ethDmaRxDescOwn }

/-- The ring with a given content, in any memory and with the DMA anywhere. -/
def Content.ring (c : Content n) (s : RxRing.State n) : RxRing.State n :=
  { s with desc := c.table, pDmaRxSet := c.first }

/-- The table is chained, holds the pending status words from `first` on, and is the DMA's
elsewhere. -/
structure Holds (desc : Table (n + 1)) (first : Fin (n + 1)) (pending : List (BitVec 32)) :
    Prop where
  next : ∀ i, (desc i).buffer2NextDescAddr = chainNext i
  fits : pending.length ≤ n + 1
  status : ∀ j st, pending[j]? = some st → (desc (slot (n + 1) (first + j))).status = st
  received : ∀ st ∈ pending, test st ethDmaRxDescOwn = false
  rest : ∀ j, pending.length ≤ j → j < n + 1 →
    test (desc (slot (n + 1) (first + j))).status ethDmaRxDescOwn = true

theorem Content.holds (c : Content n) : Holds c.table c.first c.pending where
  next _ := rfl
  fits := c.fits
  status j st hj := by
    have hlt : j < c.pending.length := (List.getElem?_eq_some_iff.mp hj).1
    have hn := c.fits
    rw [Content.table, slot_sub c.first (by omega), hj]
    rfl
  received := c.received
  rest j hle hj := by
    rw [Content.table, slot_sub c.first hj, List.getElem?_eq_none hle]
    exact (by decide : test ethDmaRxDescOwn ethDmaRxDescOwn = true)

namespace Holds

variable {desc : Table (n + 1)} {first : Fin (n + 1)} {st : BitVec 32} {pending : List (BitVec 32)}

theorem front (h : Holds desc first (st :: pending)) : (desc first).status = st := by
  have h0 := h.status 0 st rfl
  have hs : slot (n + 1) (first + 0) = first := slot_fin first
  rwa [hs] at h0

theorem front_received (h : Holds desc first (st :: pending)) :
    test st ethDmaRxDescOwn = false := h.received st List.mem_cons_self

theorem empty (h : Holds desc first []) (i : Fin (n + 1)) :
    test (desc i).status ethDmaRxDescOwn = true := by
  obtain ⟨j, hj, rfl⟩ := exists_slot (n := n + 1) first i
  exact h.rest j (Nat.zero_le j) hj

theorem slot_next (first : Fin (n + 1)) (j : ℕ) :
    slot (n + 1) (chainNext first + j) = slot (n + 1) (first + (j + 1)) := by
  rw [chainNext_eq, slot_add_val, Nat.add_assoc, Nat.add_comm 1 j]

theorem slot_ne_first (first : Fin (n + 1)) {j : ℕ} (h0 : 0 < j) (hj : j < n + 1) :
    slot (n + 1) (first + j) ≠ first := fun he => by
  have hj0 := slot_inj first (by omega) (by omega) (Nat.le_refl _) (by omega)
    (he.trans (slot_fin first).symm)
  omega

/-- The front descriptor is handed back and the driver moves on. -/
theorem pop (h : Holds desc first (st :: pending)) :
    Holds (Function.update desc first { desc first with status := ethDmaRxDescOwn })
      (chainNext first) pending where
  next i := by
    by_cases hi : i = first
    · subst i
      rw [Function.update_self]
      exact h.next first
    · rw [Function.update_of_ne hi]
      exact h.next i
  fits := Nat.le_of_succ_le h.fits
  status j u hj := by
    have hlt : j < pending.length := (List.getElem?_eq_some_iff.mp hj).1
    have hn : pending.length + 1 ≤ n + 1 := h.fits
    rw [slot_next, Function.update_of_ne (slot_ne_first first (Nat.succ_pos j) (by omega))]
    exact h.status (j + 1) u hj
  received u hu := h.received u (List.mem_cons_of_mem st hu)
  rest j hle hj := by
    rw [slot_next]
    -- the last position is the descriptor just handed back
    obtain hlt | hge := Nat.lt_or_ge (j + 1) (n + 1)
    · rw [Function.update_of_ne (slot_ne_first first (Nat.succ_pos j) hlt)]
      exact h.rest (j + 1) (Nat.succ_le_succ hle) hlt
    · have he : slot (n + 1) (first + (j + 1)) = first := by
        rw [show j + 1 = n + 1 by omega, slot_add_size, slot_fin]
      rw [he, Function.update_self]
      exact (by decide : test ethDmaRxDescOwn ethDmaRxDescOwn = true)

theorem drained_iff (h : Holds desc first pending) :
    (∀ i, ¬ test (desc i).status ethDmaRxDescOwn = false) ↔ pending = [] := by
  constructor
  · intro hall
    cases pending with
    | nil => rfl
    | cons st rest =>
      have hf := hall first
      rw [h.front] at hf
      exact absurd h.front_received hf
  · rintro rfl i hi
    exact Bool.false_ne_true (hi.symm.trans (h.empty i))

end Holds

def Steps (lwip : Lwip) (s t : NetifInput.State n) : Prop :=
  ∃ k, run (NetifInput.step lwip) s (List.replicate k .task) = t

theorem Steps.refl (lwip : Lwip) (s : NetifInput.State n) : Steps lwip s s := ⟨0, rfl⟩

theorem Steps.step {lwip : Lwip} {s t : NetifInput.State n} (h : Steps lwip (taskStep lwip s) t) :
    Steps lwip s t := by
  obtain ⟨k, hk⟩ := h
  exact ⟨k + 1, by rw [List.replicate_succ, run_cons]; exact hk⟩

theorem Steps.trans {lwip : Lwip} {s t u : NetifInput.State n} (h : Steps lwip s t)
    (h' : Steps lwip t u) : Steps lwip s u := by
  obtain ⟨j, rfl⟩ := h
  obtain ⟨k, rfl⟩ := h'
  exact ⟨j + k, by rw [← List.replicate_append_replicate, run_append]⟩

def atPc (s : NetifInput.State n) (pc : RxRing.Pc) : NetifInput.State n :=
  { s with ring := s.ring.goto pc }

theorem atPc_self {s : NetifInput.State n} {pc : RxRing.Pc} (h : s.ring.pc = pc) :
    atPc s pc = s := by
  subst h
  rfl

section Frame

variable (lwip : Lwip) {s : NetifInput.State n} (hpc : s.pc = .receive)

include hpc

theorem task_own : taskStep lwip (atPc s .own) =
    atPc s (if test s.ring.status ethDmaRxDescOwn then .retNull else .es) := by
  simp only [taskStep, atPc, hpc, receive, cpuStep, RxRing.State.goto]
  rfl

theorem task_es : taskStep lwip (atPc s .es) =
    atPc s (if test s.ring.status ethDmaRxDescEs then .discard else .fs) := by
  simp only [taskStep, atPc, hpc, receive, cpuStep, RxRing.State.goto]
  rfl

theorem task_fs : taskStep lwip (atPc s .fs) =
    atPc s (if test s.ring.status ethDmaRxDescFs then .ls else .discard) := by
  simp only [taskStep, atPc, hpc, receive, cpuStep, RxRing.State.goto]
  rfl

theorem task_ls : taskStep lwip (atPc s .ls) =
    atPc s (if test s.ring.status ethDmaRxDescLs then .len else .discard) := by
  simp only [taskStep, atPc, hpc, receive, cpuStep, RxRing.State.goto]
  rfl

theorem task_len : taskStep lwip (atPc s .len) = atPc s (.addr (frameLen s.ring.status)) := by
  simp only [taskStep, atPc, hpc, receive, cpuStep, RxRing.State.goto]
  rfl

/-- The three tests send a received descriptor to be discarded or returned. -/
theorem steps_tests (ho : test s.ring.status ethDmaRxDescOwn = false) :
    Steps lwip (atPc s .own)
      (atPc s (if good s.ring.status then .addr (frameLen s.ring.status) else .discard)) := by
  apply Steps.step
  rw [task_own lwip hpc, ho, if_neg Bool.false_ne_true]
  apply Steps.step
  rw [task_es lwip hpc]
  cases hes : test s.ring.status ethDmaRxDescEs with
  | true =>
    rw [if_pos rfl, good, hes]
    exact Steps.refl lwip _
  | false =>
    rw [if_neg Bool.false_ne_true]
    apply Steps.step
    rw [task_fs lwip hpc]
    cases hfs : test s.ring.status ethDmaRxDescFs with
    | false =>
      rw [if_neg Bool.false_ne_true, good, hes, hfs]
      exact Steps.refl lwip _
    | true =>
      rw [if_pos rfl]
      apply Steps.step
      rw [task_ls lwip hpc]
      cases hls : test s.ring.status ethDmaRxDescLs with
      | false =>
        rw [if_neg Bool.false_ne_true, good, hes, hfs, hls]
        exact Steps.refl lwip _
      | true =>
        rw [if_pos rfl, good, hes, hfs, hls]
        apply Steps.step
        rw [task_len lwip hpc]
        exact Steps.refl lwip _

end Frame

/-- What the rest of an iteration leaves of `s`: `t` has moved on to the next descriptor. -/
structure Passed (s t : NetifInput.State n) : Prop where
  desc : t.ring.desc = Function.update s.ring.desc s.ring.pDmaRxSet
    { s.ring.desc s.ring.pDmaRxSet with status := ethDmaRxDescOwn }
  next : t.ring.pDmaRxSet = (s.ring.desc s.ring.pDmaRxSet).buffer2NextDescAddr

theorem Passed.holds {s t : NetifInput.State n} (h : Passed s t) {st : BitVec 32}
    {pending : List (BitVec 32)} (hs : Holds s.ring.desc s.ring.pDmaRxSet (st :: pending)) :
    Holds t.ring.desc t.ring.pDmaRxSet pending := by
  rw [h.desc, h.next, hs.next]
  exact hs.pop

theorem steps_discard (lwip : Lwip) {s : NetifInput.State n} (hpc : s.pc = .receive) :
    ∃ t, Steps lwip (atPc s .discard) t ∧ t.pc = .receive ∧ t.ring.pc = .own ∧
      t.allocs = s.allocs ∧ Passed s t := by
  refine ⟨_, .step (.step (.refl lwip _)), ?_⟩
  simp only [taskStep, atPc, hpc, receive, cpuStep, RxRing.State.goto, RxRing.State.handBack,
    RxRing.State.advance]
  exact ⟨trivial, trivial, trivial, rfl, by simp⟩

/-- `ETH_RecFree` gives the descriptor back, whatever became of the allocation. -/
theorem steps_free (lwip : Lwip) {s : NetifInput.State n} (hpc : s.pc = .receive) {src : ℕ}
    {p : Option Pbuf} (hring : s.ring.pc = .free src p) :
    ∃ t, Steps lwip s t ∧ t.pc = .receive ∧ t.ring.pc = .ret p ∧ t.allocs = s.allocs ∧
      Passed s t := by
  obtain ⟨suspended, hpoll⟩ := pollDemand_eq (s.ring.handBack.advance.goto (.resume p))
  refine ⟨_, .step (.step (.step (.refl lwip _))), ?_⟩
  simp only [taskStep, hpc, receive, hring, cpuStep, RxRing.State.goto, RxRing.State.handBack,
    RxRing.State.advance] at hpoll ⊢
  rw [hpoll]
  exact ⟨trivial, trivial, trivial, rfl, by simp⟩

/-- From the return of `ETH_RecPeek` to `ETH_RecFree`: the next allocation decides whether
there is a chain. -/
theorem steps_alloc (lwip : Lwip) {s : NetifInput.State n} (hpc : s.pc = .receive)
    (len : BitVec 16) :
    ∃ t src p, Steps lwip (atPc s (.addr len)) t ∧ t.pc = .receive ∧ t.ring.pc = .free src p ∧
      p.isSome = (lwip.alloc (s.allocs + 1) len).isSome ∧ t.allocs = s.allocs + 1 ∧
      t.ring.desc = s.ring.desc ∧ t.ring.pDmaRxSet = s.ring.pDmaRxSet := by
  cases halloc : lwip.alloc (s.allocs + 1) len with
  | none =>
    refine ⟨_, (s.ring.desc s.ring.pDmaRxSet).buffer1Addr, none, .step (.step (.refl lwip _)), ?_⟩
    simp only [taskStep, atPc, hpc, receive, cpuStep, RxRing.State.goto, halloc]
    exact ⟨trivial, trivial, trivial, trivial, trivial, trivial⟩
  | some p =>
    refine ⟨_, (s.ring.desc s.ring.pDmaRxSet).buffer1Addr, some (pbufTake p
      (read s.ring.mem (s.ring.desc s.ring.pDmaRxSet).buffer1Addr len.toNat)),
      .step (.step (.step (.refl lwip _))), ?_⟩
    simp only [taskStep, atPc, hpc, receive, cpuStep, RxRing.State.goto, halloc]
    exact ⟨trivial, trivial, rfl, trivial, trivial, trivial⟩

/-- A good frame takes the task through `low_level_input`. -/
theorem steps_frame (lwip : Lwip) {s : NetifInput.State n} (hpc : s.pc = .receive)
    (len : BitVec 16) :
    ∃ t p, Steps lwip (atPc s (.addr len)) t ∧ t.pc = .receive ∧ t.ring.pc = .ret p ∧
      p.isSome = (lwip.alloc (s.allocs + 1) len).isSome ∧ t.allocs = s.allocs + 1 ∧
      Passed s t := by
  obtain ⟨u, src, p, hu, hupc, huring, hp, hallocs, hdesc, hset⟩ := steps_alloc lwip hpc len
  obtain ⟨t, ht, htpc, htring, htallocs, hpass⟩ := steps_free lwip hupc huring
  refine ⟨t, p, hu.trans ht, htpc, htring, hp, htallocs.trans hallocs, ?_, ?_⟩
  · rw [hpass.desc, hdesc, hset]
  · rw [hpass.next, hdesc, hset]

theorem steps_input (lwip : Lwip) {s : NetifInput.State n} (hpc : s.pc = .receive) {p : Pbuf}
    (hring : s.ring.pc = .ret (some p)) :
    ∃ t, Steps lwip s t ∧ t.pc = .receive ∧ t.ring.pc = .own ∧ t.allocs = s.allocs ∧
      t.ring.desc = s.ring.desc ∧ t.ring.pDmaRxSet = s.ring.pDmaRxSet := by
  cases hacc : lwip.accepts s.allocs with
  | true =>
    refine ⟨_, .step (.step (.refl lwip _)), ?_⟩
    simp only [taskStep, hpc, receive, hring, hacc, if_true, call, RxRing.State.goto]
    exact ⟨trivial, trivial, trivial, trivial, trivial⟩
  | false =>
    refine ⟨_, .step (.step (.step (.refl lwip _))), ?_⟩
    simp only [taskStep, hpc, receive, hring, hacc, Bool.false_eq_true, if_false, call,
      RxRing.State.goto]
    exact ⟨trivial, trivial, trivial, trivial, trivial⟩

/-- What a drain leaves in the ring: it stops behind the first frame without a chain. -/
def leftOver (lwip : Lwip) : ℕ → List (BitVec 32) → List (BitVec 32)
  | _, [] => []
  | k, st :: pending =>
    if good st then
      if (lwip.alloc (k + 1) (frameLen st)).isSome then leftOver lwip (k + 1) pending else pending
    else leftOver lwip k pending

/-- `ethernetif_input` returns, with the ring as the abstract drain leaves it. -/
theorem drains (lwip : Lwip) (pending : List (BitVec 32)) {s : NetifInput.State n}
    (hpc : s.pc = .receive) (hring : s.ring.pc = .own)
    (h : Holds s.ring.desc s.ring.pDmaRxSet pending) :
    ∃ t, Steps lwip s t ∧ t.pc = .done ∧
      Holds t.ring.desc t.ring.pDmaRxSet (leftOver lwip s.allocs pending) := by
  induction pending generalizing s with
  | nil =>
    have ho : test s.ring.status ethDmaRxDescOwn = true := h.empty s.ring.pDmaRxSet
    refine ⟨_, .step (.step (.refl lwip _)), ?_⟩
    rw [← atPc_self hring, task_own lwip hpc, ho, if_pos rfl]
    simp only [taskStep, atPc, hpc, receive, RxRing.State.goto]
    exact ⟨trivial, h⟩
  | cons st pending ih =>
    have hst : s.ring.status = st := h.front
    have htests := steps_tests lwip hpc (hst ▸ h.front_received)
    rw [atPc_self hring, hst] at htests
    rw [leftOver]
    cases hg : good st with
    | false =>
      rw [hg, if_neg Bool.false_ne_true] at htests
      obtain ⟨u, hu, hupc, huring, hallocs, hpass⟩ := steps_discard lwip hpc
      obtain ⟨t, ht, hdone, hleft⟩ := ih hupc huring (hpass.holds h)
      rw [hallocs] at hleft
      exact ⟨t, htests.trans (hu.trans ht), hdone, hleft⟩
    | true =>
      rw [hg, if_pos rfl] at htests
      obtain ⟨u, p, hu, hupc, huring, hp, hallocs, hpass⟩ := steps_frame lwip hpc (frameLen st)
      rw [if_pos rfl, ← hp]
      cases p with
      | none =>
        refine ⟨_, htests.trans (hu.trans (.step (.refl lwip _))), ?_⟩
        simp only [taskStep, hupc, receive, huring]
        exact ⟨trivial, hpass.holds h⟩
      | some p =>
        obtain ⟨v, hv, hvpc, hvring, hvallocs, hdesc, hset⟩ := steps_input lwip hupc huring
        have hnext := hpass.holds h
        rw [← hdesc, ← hset] at hnext
        obtain ⟨t, ht, hdone, hleft⟩ := ih hvpc hvring hnext
        rw [hvallocs, hallocs] at hleft
        exact ⟨t, htests.trans (hu.trans (hv.trans ht)), hdone, hleft⟩

/-- The frame at position `j` is good and its allocation fails, `k` allocations having been
made before the drain. -/
def FailsAt (lwip : Lwip) (k : ℕ) (pending : List (BitVec 32)) (j : ℕ) : Prop :=
  ∃ st, pending[j]? = some st ∧ good st = true ∧
    lwip.alloc (k + ((pending.take j).filter good).length + 1) (frameLen st) = none

/-- The first failing allocation, if there is one, is for the last descriptor received. -/
def FailsLast (lwip : Lwip) (k : ℕ) (pending : List (BitVec 32)) : Prop :=
  ∀ j, FailsAt lwip k pending j → (∀ i < j, ¬ FailsAt lwip k pending i) → j + 1 = pending.length

theorem failsAt_zero {lwip : Lwip} {k : ℕ} {st : BitVec 32} {pending : List (BitVec 32)} :
    FailsAt lwip k (st :: pending) 0 ↔
      good st = true ∧ lwip.alloc (k + 1) (frameLen st) = none := by
  simp [FailsAt]

theorem failsAt_succ {lwip : Lwip} {k j : ℕ} {st : BitVec 32} {pending : List (BitVec 32)} :
    FailsAt lwip k (st :: pending) (j + 1) ↔ FailsAt lwip (k + (good st).toNat) pending j := by
  have hcount : k + (((st :: pending).take (j + 1)).filter good).length =
      k + (good st).toNat + ((pending.take j).filter good).length := by
    rw [List.take_succ_cons, List.filter_cons]
    cases good st with
    | true => simp only [if_true, List.length_cons, Bool.toNat_true]; omega
    | false => simp
  rw [FailsAt, FailsAt, hcount]
  rfl

theorem failsLast_cons {lwip : Lwip} {k : ℕ} {st : BitVec 32} {pending : List (BitVec 32)}
    (h : ¬ FailsAt lwip k (st :: pending) 0) :
    FailsLast lwip k (st :: pending) ↔ FailsLast lwip (k + (good st).toNat) pending := by
  constructor
  · intro hl j hj hfirst
    have hlast := hl (j + 1) (failsAt_succ.mpr hj) fun i hi => ?_
    · simpa using hlast
    · cases i with
      | zero => exact h
      | succ i =>
        rw [failsAt_succ]
        exact hfirst i (by omega)
  · intro hl j hj hfirst
    cases j with
    | zero => exact absurd hj h
    | succ j =>
      rw [failsAt_succ] at hj
      have hlast := hl j hj fun i hi => by
        rw [← failsAt_succ]
        exact hfirst (i + 1) (by omega)
      simpa using hlast

theorem leftOver_eq_nil_iff (lwip : Lwip) (k : ℕ) (pending : List (BitVec 32)) :
    leftOver lwip k pending = [] ↔ FailsLast lwip k pending := by
  induction pending generalizing k with
  | nil => simp [leftOver, FailsLast, FailsAt]
  | cons st pending ih =>
    rw [leftOver]
    cases hg : good st with
    | false =>
      have h0 : ¬ FailsAt lwip k (st :: pending) 0 := by
        rw [failsAt_zero, hg]
        exact fun h => Bool.false_ne_true h.1
      rw [if_neg Bool.false_ne_true, ih, failsLast_cons h0, hg]
      rfl
    | true =>
      rw [if_pos rfl]
      cases halloc : lwip.alloc (k + 1) (frameLen st) with
      | some p =>
        have h0 : ¬ FailsAt lwip k (st :: pending) 0 := by
          rw [failsAt_zero, halloc]
          simp
        rw [Option.isSome_some, if_pos rfl, ih, failsLast_cons h0, hg]
        rfl
      | none =>
        have h0 : FailsAt lwip k (st :: pending) 0 := failsAt_zero.mpr ⟨hg, halloc⟩
        rw [Option.isSome_none, if_neg Bool.false_ne_true]
        constructor
        · rintro rfl j ⟨u, hu, -⟩ -
          have hlt := (List.getElem?_eq_some_iff.mp hu).1
          simp only [List.length_singleton] at hlt ⊢
          omega
        · intro hl
          have hlast := hl 0 h0 fun i hi => absurd hi (Nat.not_lt_zero i)
          simpa using hlast.symm

/-- Alone on a ring, `ethernetif_input` returns, and what it leaves there is decided by the
status words and the allocations. -/
theorem input_drains (lwip : Lwip) {s : RxRing.State n} {pending : List (BitVec 32)}
    (h : Holds s.desc s.pDmaRxSet pending) :
    ∃ k, let t := run (NetifInput.step lwip) (start s) (List.replicate k .task)
      t.pc = .done ∧ ((∀ i, ¬ CpuOwned t.ring i) ↔ FailsLast lwip 0 pending) := by
  have hcalled : taskStep lwip (start s) =
      { start s with ring := s.goto .own, pc := .receive } := rfl
  obtain ⟨t, ht, hdone, hleft⟩ := drains lwip pending
    (s := { start s with ring := s.goto .own, pc := .receive }) rfl rfl h
  rw [← hcalled] at ht
  obtain ⟨k, hk⟩ := ht.step
  refine ⟨k, ?_⟩
  simp only [hk]
  refine ⟨hdone, ?_⟩
  rw [← leftOver_eq_nil_iff]
  exact hleft.drained_iff

/-- With no DMA activity `ethernetif_input` returns, and it has drained the ring exactly if
the first failing allocation, if there is one, is for the last descriptor received. -/
theorem ethernetif_input_drains (c : Content n) (s : RxRing.State n) (lwip : Lwip) :
    ∃ k, let t := run (NetifInput.step lwip) (start (c.ring s)) (List.replicate k .task)
      t.pc = .done ∧ ((∀ i, ¬ CpuOwned t.ring i) ↔ FailsLast lwip 0 c.pending) :=
  input_drains lwip c.holds

def twoFrames : Content (ethRxBufNb - 1) where
  first := firstDesc
  pending := [0x00400300, 0x00400300]
  fits := by decide
  received st h := by
    have hst : st = 0x00400300 := by simpa using h
    rw [hst]
    decide

def emptyPool : Lwip where
  alloc _ _ := none
  accepts _ := true
  alloc_totLen _ _ _ h := by cases h

theorem ethernetif_input_leaves_frame :
    let t := run (NetifInput.step emptyPool) (start (twoFrames.ring (RxRing.init _ fun _ => 0)))
      (List.replicate 13 .task)
    t.pc = .done ∧ CpuOwned t.ring 1 := by
  decide +kernel

/-- The status words of the pieces that have arrived and are not handed back. -/
def backlog (s : RxRing.State n) : List (BitVec 32) :=
  ((arrived s).drop s.handedBack).map Piece.status

theorem backlog_getElem {s : RxRing.State n} {j : ℕ} {st : BitVec 32}
    (h : (backlog s)[j]? = some st) :
    ∃ p, (arrived s)[s.handedBack + j]? = some p ∧ p.status = st := by
  rw [backlog, List.getElem?_map, List.getElem?_drop] at h
  exact Option.map_eq_some_iff.mp h

/-- A ring that the task and the DMA have worked on holds its backlog, so that every ring
`ethernetif_input` can find has a content as above. -/
theorem holds_backlog {s : RxRing.State n} (h : Inv s) (ha : advancing s.pc = false) :
    Holds s.desc s.pDmaRxSet (backlog s) := by
  have hset : s.pDmaRxSet = slot (n + 1) s.handedBack := h.setAt ha
  have hslot : ∀ j, slot (n + 1) (s.pDmaRxSet + j) = slot (n + 1) (s.handedBack + j) := by
    intro j
    rw [hset, slot_add_val]
  have hlen : (backlog s).length = (arrived s).length - s.handedBack := by
    rw [backlog, List.length_map, List.length_drop]
  have hw := h.filled.window
  have hstatus : ∀ j st, (backlog s)[j]? = some st →
      (s.desc (slot (n + 1) (s.pDmaRxSet + j))).status = st := by
    intro j st hj
    obtain ⟨p, hp, rfl⟩ := backlog_getElem hj
    rw [hslot]
    exact (h.filled.holds _ p (Nat.le_add_right _ _) hp).1
  refine ⟨h.filled.chained.next, ?_, hstatus, ?_, ?_⟩
  · have hb := hw.bound
    omega
  · intro st hst
    obtain ⟨j, hj⟩ := List.getElem?_of_mem hst
    have hlt : j < (backlog s).length := (List.getElem?_eq_some_iff.mp hj).1
    have hin := hw.inside (s.handedBack + j) (Nat.le_add_right _ _) (by omega)
    rw [← hslot, hstatus j st hj] at hin
    exact hin
  · intro j hle hj
    have hb := hw.le
    have hout := hw.outside (s.handedBack + j) (by omega) (by omega)
    rw [hslot]
    exact Bool.eq_true_of_not_eq_false hout

/-- The same from every ring that a run of the task and the DMA leads to. -/
theorem reachable_ring_drains (n : ℕ) (mem : Memory) (acts : List RxRing.Act) (lwip : Lwip) :
    let s := run RxRing.step (RxRing.init n mem) acts
    advancing s.pc = false →
      ∃ k, let t := run (NetifInput.step lwip) (start s) (List.replicate k .task)
        t.pc = .done ∧ ((∀ i, ¬ CpuOwned t.ring i) ↔ FailsLast lwip 0 (backlog s)) := by
  intro s ha
  apply input_drains lwip
  exact holds_backlog (run_inv n mem acts) ha

end EthDriver.RxDrain

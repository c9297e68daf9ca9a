import EthDriver.RxLength

namespace EthDriver.RxFates

open Bits Bytes Descriptors Pbufs Runs RxRing RxInvariant NetifInput RxLength PbufPool

variable {n : ℕ}

/-- The ring with any status words, in any memory and with the driver and the DMA
anywhere. -/
def ringOf (status : Fin (n + 1) → BitVec 32) (s : RxRing.State n) : RxRing.State n :=
  { s with desc := fun i => { ethDmaRxDescChainInit n i with status := status i } }

/-- The links, addresses and sizes of the descriptors are those of the chain. -/
structure Wired (s : RxRing.State n) : Prop where
  chained : Chained s.desc
  size : ∀ i, (s.desc i).controlBufferSize = ethDmaRxDescRch ||| BitVec.ofNat 32 ethMaxPacketSize

theorem ringOf_wired (status : Fin (n + 1) → BitVec 32) (s : RxRing.State n) :
    Wired (ringOf status s) :=
  ⟨⟨fun _ => rfl, fun _ => rfl⟩, fun _ => rfl⟩

namespace Wired

variable {s : RxRing.State n}

theorem congr {t : RxRing.State n} (h : Wired s) (hdesc : t.desc = s.desc) : Wired t := by
  constructor
  · rw [hdesc]
    exact h.chained
  · rw [hdesc]
    exact h.size

theorem update {t : RxRing.State n} (h : Wired s) {i : Fin (n + 1)} {status : BitVec 32}
    (hdesc : t.desc = Function.update s.desc i { s.desc i with status := status }) : Wired t := by
  constructor
  · rw [hdesc]
    exact h.chained.update i _ rfl rfl
  · intro j
    rw [hdesc]
    by_cases hj : j = i
    · subst j
      rw [Function.update_self]
      exact h.size i
    · rw [Function.update_of_ne hj]
      exact h.size j

theorem call (h : Wired s) : Wired (call s) := by
  cases hpc : s.pc <;> simp only [RxRing.call, hpc] <;> exact h.congr rfl

theorem cpuStep (h : Wired s) (q : Option Pbuf) : Wired (cpuStep s q) := by
  cases hpc : s.pc with
  | discard | free =>
    simp only [RxRing.cpuStep, hpc]
    exact h.update rfl
  | alloc src len => cases q <;> simp only [RxRing.cpuStep, hpc] <;> exact h.congr rfl
  | resume p =>
    obtain ⟨suspended, he⟩ := RxLoops.pollDemand_eq s
    simp only [RxRing.cpuStep, hpc, he]
    exact h.congr rfl
  | idle | own | es | fs | ls | len | addr | discardNext | take | freeNext | retNull | ret =>
    simp only [RxRing.cpuStep, hpc]
    exact h.congr rfl

theorem dmaStep (h : Wired s) (a : DmaAct) : Wired (dmaStep s a) := by
  cases a with
  | fill | suspend =>
    simp only [RxRing.dmaStep]
    split <;> exact h.congr rfl
  | close status last =>
    simp only [RxRing.dmaStep]
    split
    · exact h.update rfl
    · exact h

/-- A received frame stays as it is while the processor owns its descriptor. -/
theorem front_dmaStep (h : Wired s) (ho : CpuOwned s s.pDmaRxSet) (a : DmaAct) :
    front (RxRing.dmaStep s a) = front s := by
  obtain ⟨hset, -⟩ := RxLoops.dmaStep_task s a
  have hdesc := RxLoops.dmaStep_desc ho a
  have hmem : ∀ i < ethMaxPacketSize,
      (RxRing.dmaStep s a).mem ((s.desc s.pDmaRxSet).buffer1Addr + i) =
        s.mem ((s.desc s.pDmaRxSet).buffer1Addr + i) :=
    fun i hi => dmaStep_mem h.chained h.size ho a hi
  rw [front, front, State.status, State.status, hset, hdesc, read_congr hmem]

end Wired

/-- Every good frame in the ring is as long as its CRC at least and as a buffer at most. -/
def Sized (s : NetifInput.State n) (_ : NetifInput.Act) : Prop :=
  ∀ i, CpuOwned s.ring i → good (s.ring.desc i).status = true →
    4 ≤ fl (s.ring.desc i).status ∧ fl (s.ring.desc i).status ≤ ethMaxPacketSize

instance (s : NetifInput.State n) (a : NetifInput.Act) : Decidable (Sized s a) :=
  inferInstanceAs (Decidable (∀ _, _))

/-- What becomes of a received descriptor. -/
inductive Fate (n : ℕ)
  | discarded (i : Fin (n + 1))
  | dropped (i : Fin (n + 1)) (piece : Piece)
  | delivered (i : Fin (n + 1)) (piece : Piece)
  | refused (i : Fin (n + 1)) (piece : Piece)

/-- The frame without its CRC. -/
def frameBytes (piece : Piece) : List UInt8 := piece.buf.take (fl piece.status - 4)

/-- What a fate leaves in the log, in order. `k` is the number of its call of
`pbuf_alloc`. -/
def Fate.events (k : ℕ) : Fate n → List (Event n)
  | .discarded i => [.discard i]
  | .dropped i piece => [.peek i piece, .alloc k false, .handBack i]
  | .delivered i piece =>
    [.peek i piece, .alloc k true, .copy k, .handBack i, .input k (frameBytes piece) true]
  | .refused i piece =>
    [.peek i piece, .alloc k true, .copy k, .handBack i, .input k (frameBytes piece) false,
      .free k]

def Fate.calls : Fate n → ℕ
  | .discarded _ => 0
  | .dropped _ _ | .delivered _ _ | .refused _ _ => 1

/-- The calls of `pbuf_alloc` made for a list of fates. -/
def calls (fates : List (Fate n)) : ℕ := (fates.map Fate.calls).sum

/-- The log of a list of fates, the latest of which comes first. -/
def logOf : List (Fate n) → List (Event n)
  | [] => []
  | f :: fates => logOf fates ++ f.events (calls fates + 1)

/-- How far the frame in work has come, with `k` calls of `pbuf_alloc` before it: `opened`
is what it has left in the log. -/
def Opened (s : NetifInput.State n) (k : ℕ) (opened : List (Event n)) : Prop :=
  match s.pc with
  | .take | .done => s.allocs = k ∧ opened = []
  | .receive =>
    match s.ring.pc with
    | .alloc _ _ => s.allocs = k ∧ opened = [.peek s.ring.pDmaRxSet (front s.ring)]
    | .take _ len p =>
      s.allocs = k + 1 ∧ p.totLen = len.toNat ∧
        opened = [.peek s.ring.pDmaRxSet (front s.ring), .alloc (k + 1) true]
    | .free _ none =>
      s.allocs = k + 1 ∧ opened = [.peek s.ring.pDmaRxSet (front s.ring), .alloc (k + 1) false]
    | .free _ (some p) =>
      s.allocs = k + 1 ∧ p.bytes = frameBytes (front s.ring) ∧
        opened = [.peek s.ring.pDmaRxSet (front s.ring), .alloc (k + 1) true, .copy (k + 1)]
    | .freeNext (some p) | .resume (some p) | .ret (some p) =>
      s.allocs = k + 1 ∧ ∃ i piece, p.bytes = frameBytes piece ∧
        opened = [.peek i piece, .alloc (k + 1) true, .copy (k + 1), .handBack i]
    | _ => s.allocs = k ∧ opened = []
  | .input j p =>
    s.allocs = k + 1 ∧ j = k + 1 ∧ ∃ i piece, p.bytes = frameBytes piece ∧
      opened = [.peek i piece, .alloc (k + 1) true, .copy (k + 1), .handBack i]
  | .free j _ =>
    s.allocs = k + 1 ∧ j = k + 1 ∧ ∃ i piece,
      opened = [.peek i piece, .alloc (k + 1) true, .copy (k + 1), .handBack i,
        .input (k + 1) (frameBytes piece) false]

/-- The log is made of whole fates and of what the frame in work has left so far. -/
def Logged (s : NetifInput.State n) : Prop :=
  ∃ fates opened, s.log = logOf fates ++ opened ∧ Opened s (calls fates) opened

structure Inv (s : NetifInput.State n) : Prop where
  wired : Wired s.ring
  vetted : Vetted s.ring
  serving : RxLoops.Serving s
  logged : Logged s

/-- A frame has been peeked and is not done with. -/
def inWork : RxRing.Pc → Bool
  | .alloc _ _ | .take _ _ _ | .free _ _ => true
  | .freeNext p | .resume p | .ret p => p.isSome
  | _ => false

theorem opened_rest {s : NetifInput.State n} (hpc : s.pc = .receive)
    (hring : inWork s.ring.pc = false) {k : ℕ} {opened : List (Event n)} :
    Opened s k opened ↔ s.allocs = k ∧ opened = [] := by
  cases h : s.ring.pc with
  | freeNext p | resume p | ret p =>
    cases p with
    | none => simp only [Opened, hpc, h]
    | some p =>
      rw [h] at hring
      cases hring
  | alloc | take | free =>
    rw [h] at hring
    cases hring
  | idle | own | es | fs | ls | len | addr | discard | discardNext | retNull =>
    simp only [Opened, hpc, h]

theorem Opened.rest {s : NetifInput.State n} {k : ℕ} (hpc : s.pc = .receive)
    (hring : inWork s.ring.pc = false) (hallocs : s.allocs = k) : Opened s k [] :=
  (opened_rest hpc hring).mpr ⟨hallocs, rfl⟩

/-- The frame in work leaves more in the log. -/
theorem Logged.extend {s t : NetifInput.State n} {fates : List (Fate n)}
    {opened more : List (Event n)} (hlog : s.log = logOf fates ++ opened)
    (ht : t.log = s.log ++ more) (ho : Opened t (calls fates) (opened ++ more)) : Logged t :=
  ⟨fates, opened ++ more, by rw [ht, hlog, List.append_assoc], ho⟩

/-- The frame in work meets its fate. -/
theorem Logged.close {s t : NetifInput.State n} {fates : List (Fate n)}
    {opened more : List (Event n)} (f : Fate n) (hlog : s.log = logOf fates ++ opened)
    (ht : t.log = s.log ++ more) (hev : opened ++ more = f.events (calls fates + 1))
    (ho : Opened t (calls (f :: fates)) []) : Logged t := by
  refine ⟨f :: fates, [], ?_, ho⟩
  rw [ht, hlog, List.append_assoc, hev, logOf, List.append_nil]

theorem calls_cons (f : Fate n) (fates : List (Fate n)) :
    calls (f :: fates) = f.calls + calls fates := by
  simp [calls]

/-- What `pbuf_take` copies. -/
theorem frameBytes_front {s : RxRing.State n} (h : 4 ≤ fl s.status)
    (hle : fl s.status ≤ ethMaxPacketSize) :
    frameBytes (front s) =
      read s.mem (s.desc s.pDmaRxSet).buffer1Addr (frameLen s.status).toNat := by
  have hlen : fl s.status - 4 + (ethMaxPacketSize - (fl s.status - 4)) = ethMaxPacketSize := by
    omega
  rw [frameLen_of_le h, frameBytes, front]
  conv_lhs => rw [← hlen, read_add]
  rw [List.take_left' (read_length _ _ _)]

section Receive

variable {s : NetifInput.State n} (lwip : Lwip) (hpc : s.pc = .receive)

include hpc

/-- Between two frames. -/
theorem receive_logged_rest (h : Logged s) (hring : inWork s.ring.pc = false) :
    Logged (receive lwip s) := by
  obtain ⟨fates, opened, hlog, ho⟩ := h
  obtain ⟨hallocs, rfl⟩ := (opened_rest hpc hring).mp ho
  cases hr : s.ring.pc with
  | own | es | fs | ls =>
    simp only [receive, hr]
    refine ⟨fates, [], hlog, Opened.rest hpc ?_ hallocs⟩
    simp only [cpuStep, hr, RxRing.State.goto]
    split <;> rfl
  | idle | len | discardNext =>
    simp only [receive, hr, cpuStep]
    exact ⟨fates, [], hlog, Opened.rest hpc (by simp [RxRing.State.goto, inWork, hr]) hallocs⟩
  | addr len =>
    simp only [receive, hr, cpuStep]
    apply Logged.extend hlog rfl
    simp only [Opened, hpc]
    exact ⟨hallocs, rfl⟩
  | discard =>
    simp only [receive, hr, cpuStep]
    apply Logged.close (.discarded s.ring.pDmaRxSet) hlog rfl rfl
    rw [calls_cons]
    exact Opened.rest hpc rfl (hallocs.trans (Nat.zero_add _).symm)
  | retNull =>
    simp only [receive, hr]
    exact ⟨fates, [], hlog, hallocs, rfl⟩
  | freeNext p | resume p =>
    cases p with
    | none =>
      simp only [receive, hr, cpuStep]
      exact ⟨fates, [], hlog, Opened.rest hpc rfl hallocs⟩
    | some p =>
      rw [hr] at hring
      cases hring
  | ret p =>
    cases p with
    | none =>
      simp only [receive, hr]
      exact ⟨fates, [], hlog, hallocs, rfl⟩
    | some p =>
      rw [hr] at hring
      cases hring
  | alloc | take | free =>
    rw [hr] at hring
    cases hring

theorem receive_logged_alloc (h : Logged s) {src : ℕ} {len : BitVec 16}
    (hring : s.ring.pc = .alloc src len) : Logged (receive lwip s) := by
  obtain ⟨fates, opened, hlog, ho⟩ := h
  simp only [Opened, hpc, hring] at ho
  obtain ⟨hallocs, rfl⟩ := ho
  cases hal : lwip.alloc (s.allocs + 1) len with
  | none =>
    simp only [receive, hring, hal, cpuStep]
    apply Logged.extend hlog rfl
    simp only [Opened, hpc]
    rw [hallocs]
    exact ⟨rfl, rfl⟩
  | some p =>
    simp only [receive, hring, hal, cpuStep]
    apply Logged.extend hlog rfl
    simp only [Opened, hpc]
    rw [hallocs]
    exact ⟨rfl, lwip.alloc_totLen _ _ _ hal, rfl⟩

/-- The copy is the frame without its CRC. -/
theorem receive_logged_take (h : Inv s) (hz : Sized s .task) {src : ℕ} {len : BitVec 16}
    {p : Pbuf} (hring : s.ring.pc = .take src len p) : Logged (receive lwip s) := by
  obtain ⟨fates, opened, hlog, ho⟩ := h.logged
  simp only [Opened, hpc, hring] at ho
  obtain ⟨hallocs, htot, rfl⟩ := ho
  -- the frame is good and the processor's, so that its length is within bounds
  obtain ⟨hown, hg, rfl, rfl⟩ := h.vetted.of_asked (by rw [hring]; rfl)
  obtain ⟨hge, hle⟩ := hz s.ring.pDmaRxSet hown hg
  simp only [receive, hring, cpuStep]
  apply Logged.extend hlog rfl
  simp only [Opened, hpc]
  rw [hallocs]
  refine ⟨rfl, ?_, rfl⟩
  rw [pbufTake_bytes (by rw [htot, read_length])]
  exact (frameBytes_front hge hle).symm

theorem receive_logged_free (h : Logged s) {src : ℕ} {q : Option Pbuf}
    (hring : s.ring.pc = .free src q) : Logged (receive lwip s) := by
  obtain ⟨fates, opened, hlog, ho⟩ := h
  cases q with
  | none =>
    simp only [Opened, hpc, hring] at ho
    obtain ⟨hallocs, rfl⟩ := ho
    simp only [receive, hring, cpuStep]
    apply Logged.close (.dropped s.ring.pDmaRxSet (front s.ring)) hlog rfl rfl
    rw [calls_cons]
    exact Opened.rest hpc rfl (hallocs.trans (Nat.add_comm _ _))
  | some p =>
    simp only [Opened, hpc, hring] at ho
    obtain ⟨hallocs, hbytes, rfl⟩ := ho
    simp only [receive, hring, cpuStep]
    apply Logged.extend hlog rfl
    simp only [Opened, hpc]
    exact ⟨hallocs, s.ring.pDmaRxSet, front s.ring, hbytes, rfl⟩

/-- With its copy made and its descriptor handed back, the chain goes on as it is. -/
theorem receive_logged_copied (h : Logged s) {p : Pbuf}
    (hring : s.ring.pc = .freeNext (some p) ∨ s.ring.pc = .resume (some p) ∨
      s.ring.pc = .ret (some p)) : Logged (receive lwip s) := by
  obtain ⟨fates, opened, hlog, ho⟩ := h
  obtain hring | hring | hring := hring
  · simp only [Opened, hpc, hring] at ho
    simp only [receive, hring, cpuStep]
    refine ⟨fates, opened, hlog, ?_⟩
    simp only [Opened, hpc]
    exact ho
  · simp only [Opened, hpc, hring] at ho
    simp only [receive, hring, cpuStep]
    refine ⟨fates, opened, hlog, ?_⟩
    simp only [Opened, hpc]
    exact ho
  · simp only [Opened, hpc, hring] at ho
    simp only [receive, hring]
    exact ⟨fates, opened, hlog, ho.1, ho.1, ho.2⟩

theorem receive_logged (h : Inv s) (hz : Sized s .task) : Logged (receive lwip s) := by
  cases hring : s.ring.pc with
  | alloc => exact receive_logged_alloc lwip hpc h.logged hring
  | take => exact receive_logged_take lwip hpc h hz hring
  | free => exact receive_logged_free lwip hpc h.logged hring
  | freeNext p =>
    cases p with
    | none => exact receive_logged_rest lwip hpc h.logged (by rw [hring]; rfl)
    | some p => exact receive_logged_copied lwip hpc h.logged (.inl hring)
  | resume p =>
    cases p with
    | none => exact receive_logged_rest lwip hpc h.logged (by rw [hring]; rfl)
    | some p => exact receive_logged_copied lwip hpc h.logged (.inr (.inl hring))
  | ret p =>
    cases p with
    | none => exact receive_logged_rest lwip hpc h.logged (by rw [hring]; rfl)
    | some p => exact receive_logged_copied lwip hpc h.logged (.inr (.inr hring))
  | idle | own | es | fs | ls | len | addr | discard | discardNext | retNull =>
    exact receive_logged_rest lwip hpc h.logged (by rw [hring]; rfl)

end Receive

theorem taskStep_logged {s : NetifInput.State n} (lwip : Lwip) (h : Inv s) (hz : Sized s .task) :
    Logged (taskStep lwip s) := by
  cases hpc : s.pc with
  | receive =>
    simp only [taskStep, hpc]
    exact receive_logged lwip hpc h hz
  | take =>
    have hcall := h.serving.rest (by rw [hpc]; simp)
    obtain ⟨fates, opened, hlog, ho⟩ := h.logged
    simp only [Opened, hpc] at ho
    obtain ⟨hallocs, rfl⟩ := ho
    simp only [taskStep, hpc]
    exact ⟨fates, [], hlog, Opened.rest rfl (by rw [hcall]; rfl) hallocs⟩
  | input j p =>
    have hcall := h.serving.rest (by rw [hpc]; simp)
    obtain ⟨fates, opened, hlog, ho⟩ := h.logged
    simp only [Opened, hpc] at ho
    obtain ⟨hallocs, rfl, i, piece, hbytes, rfl⟩ := ho
    cases hacc : lwip.accepts (calls fates + 1) with
    | true =>
      simp only [taskStep, hpc, hacc, if_true, hbytes]
      apply Logged.close (.delivered i piece) hlog rfl rfl
      rw [calls_cons]
      exact Opened.rest rfl (by rw [hcall]; rfl) (hallocs.trans (Nat.add_comm _ _))
    | false =>
      simp only [taskStep, hpc, hacc, Bool.false_eq_true, if_false, hbytes]
      apply Logged.extend hlog rfl
      exact ⟨hallocs, rfl, i, piece, rfl⟩
  | free j p =>
    have hcall := h.serving.rest (by rw [hpc]; simp)
    obtain ⟨fates, opened, hlog, ho⟩ := h.logged
    simp only [Opened, hpc] at ho
    obtain ⟨hallocs, rfl, i, piece, rfl⟩ := ho
    simp only [taskStep, hpc]
    apply Logged.close (.refused i piece) hlog rfl rfl
    rw [calls_cons]
    exact Opened.rest rfl (by rw [hcall]; rfl) (hallocs.trans (Nat.add_comm _ _))
  | done =>
    simp only [taskStep, hpc]
    exact h.logged

/-- The DMA and the interrupt handler leave a frame in work as it was found. -/
theorem Logged.congr {s : NetifInput.State n} (h : Logged s) {ring : RxRing.State n}
    (hpc : ring.pc = s.ring.pc) (hset : ring.pDmaRxSet = s.ring.pDmaRxSet)
    (hfront : (peeked s.ring.pc).isSome → front ring = front s.ring) :
    Logged { s with ring := ring } := by
  obtain ⟨fates, opened, hlog, ho⟩ := h
  refine ⟨fates, opened, hlog, ?_⟩
  unfold Opened at ho ⊢
  simp only [hpc, hset]
  cases hp : s.ring.pc with
  | alloc | take | free =>
    rw [hfront (by rw [hp]; rfl)]
    simp only [hp] at ho
    exact ho
  | freeNext p | resume p | ret p => cases p <;> simp only [hp] at ho <;> exact ho
  | idle | own | es | fs | ls | len | addr | discard | discardNext | retNull =>
    simp only [hp] at ho
    exact ho

theorem Inv.receive {s : NetifInput.State n} (h : Inv s) (lwip : Lwip) :
    Wired (receive lwip s).ring ∧ Vetted (receive lwip s).ring := by
  obtain ⟨-, q, allocs, log, he⟩ | ⟨-, he⟩ | ⟨p, -, he⟩ := RxLoops.receive_cases lwip s
  · rw [he]
    exact ⟨h.wired.cpuStep q, h.vetted.cpuStep q⟩
  · rw [he]
    exact ⟨h.wired, h.vetted⟩
  · rw [he]
    exact ⟨h.wired, h.vetted⟩

theorem Inv.task {s : NetifInput.State n} (h : Inv s) (lwip : Lwip) (hz : Sized s .task) :
    Inv (taskStep lwip s) := by
  have hring : Wired (taskStep lwip s).ring ∧ Vetted (taskStep lwip s).ring := by
    cases hpc : s.pc with
    | receive =>
      simp only [taskStep, hpc]
      exact h.receive lwip
    | take | free =>
      simp only [taskStep, hpc]
      exact ⟨h.wired.call, h.vetted.call⟩
    | input k p =>
      simp only [taskStep, hpc]
      split
      · exact ⟨h.wired.call, h.vetted.call⟩
      · exact ⟨h.wired, h.vetted⟩
    | done =>
      simp only [taskStep, hpc]
      exact ⟨h.wired, h.vetted⟩
  exact ⟨hring.1, hring.2, h.serving.task lwip, taskStep_logged lwip h hz⟩

theorem Inv.front_dmaStep {s : NetifInput.State n} (h : Inv s) (a : DmaAct)
    (hp : (peeked s.ring.pc).isSome) : front (dmaStep s.ring a) = front s.ring := by
  have ht := h.vetted.tested
  have ho : CpuOwned s.ring s.ring.pDmaRxSet := by
    cases hpc : s.ring.pc with
    | alloc | take | free =>
      simp only [Tested, hpc] at ht
      exact ht.1
    | idle | own | es | fs | ls | len | addr | discard | discardNext | freeNext | resume | retNull
    | ret =>
      rw [hpc] at hp
      cases hp
  exact h.wired.front_dmaStep ho a

theorem Inv.step {s : NetifInput.State n} (lwip : Lwip) (a : NetifInput.Act) (h : Inv s)
    (hz : Sized s a) : Inv (NetifInput.step lwip s a) := by
  have hserving := RxLoops.Serving.step lwip s a h.serving
  cases a with
  | task => exact h.task lwip hz
  | dma a =>
    obtain ⟨hset, hpc⟩ := RxLoops.dmaStep_task s.ring a
    exact ⟨h.wired.dmaStep a, h.vetted.dmaStep a, hserving,
      h.logged.congr hpc hset (h.front_dmaStep a)⟩
  | poll =>
    have hvetted := h.vetted.pollDemand
    obtain ⟨suspended, he⟩ := RxLoops.pollDemand_eq s.ring
    rw [NetifInput.step, he] at hserving ⊢
    rw [he] at hvetted
    exact ⟨h.wired.congr rfl, hvetted, hserving, h.logged.congr rfl rfl fun _ => rfl⟩

theorem start_inv (status : Fin (n + 1) → BitVec 32) (s : RxRing.State n) :
    Inv (start (ringOf status s)) where
  wired := (ringOf_wired status s).congr rfl
  vetted := vetted_of_rest trivial rfl
  serving := RxLoops.start_serving _
  logged := ⟨[], [], rfl, rfl, rfl⟩

theorem nil_prefix_events {s : NetifInput.State n} {k : ℕ} {opened : List (Event n)}
    (h : s.allocs = k ∧ opened = []) : ∃ f : Fate n, opened <+: f.events (k + 1) :=
  ⟨.discarded firstDesc, by rw [h.2]; exact List.nil_prefix⟩

/-- The frame in work can still meet a fate. -/
theorem Opened.prefix_events {s : NetifInput.State n} {k : ℕ} {opened : List (Event n)}
    (h : Opened s k opened) : ∃ f : Fate n, opened <+: f.events (k + 1) := by
  cases hpc : s.pc with
  | take | done =>
    simp only [Opened, hpc] at h
    exact nil_prefix_events h
  | input j p =>
    simp only [Opened, hpc] at h
    obtain ⟨-, -, i, piece, -, rfl⟩ := h
    exact ⟨.delivered i piece, _, rfl⟩
  | free j p =>
    simp only [Opened, hpc] at h
    obtain ⟨-, -, i, piece, rfl⟩ := h
    exact ⟨.refused i piece, _, rfl⟩
  | receive =>
    cases hring : inWork s.ring.pc with
    | false => exact nil_prefix_events ((opened_rest hpc hring).mp h)
    | true =>
      cases hr : s.ring.pc with
      | alloc =>
        simp only [Opened, hpc, hr] at h
        obtain ⟨-, rfl⟩ := h
        exact ⟨.dropped _ _, _, rfl⟩
      | take =>
        simp only [Opened, hpc, hr] at h
        obtain ⟨-, -, rfl⟩ := h
        exact ⟨.delivered _ _, _, rfl⟩
      | free src q =>
        cases q with
        | none =>
          simp only [Opened, hpc, hr] at h
          obtain ⟨-, rfl⟩ := h
          exact ⟨.dropped _ _, _, rfl⟩
        | some p =>
          simp only [Opened, hpc, hr] at h
          obtain ⟨-, -, rfl⟩ := h
          exact ⟨.delivered _ _, _, rfl⟩
      | freeNext q | resume q | ret q =>
        cases q with
        | none =>
          rw [hr] at hring
          cases hring
        | some p =>
          simp only [Opened, hpc, hr] at h
          obtain ⟨-, i, piece, -, rfl⟩ := h
          exact ⟨.delivered i piece, _, rfl⟩
      | idle | own | es | fs | ls | len | addr | discard | discardNext | retNull =>
        rw [hr] at hring
        cases hring

theorem Logged.fates {s : NetifInput.State n} (h : Logged s) :
    ∃ fates, s.log <+: logOf fates ∧ (s.pc = .done → s.log = logOf fates) := by
  obtain ⟨fates, opened, hlog, ho⟩ := h
  -- a call that has returned has no frame in work
  by_cases hpc : s.pc = .done
  · simp only [Opened, hpc] at ho
    rw [ho.2, List.append_nil] at hlog
    exact ⟨fates, hlog ▸ List.prefix_refl _, fun _ => hlog⟩
  · obtain ⟨f, hf⟩ := ho.prefix_events
    refine ⟨f :: fates, ?_, fun hdone => absurd hdone hpc⟩
    rw [hlog, logOf]
    exact (List.prefix_append_right_inj _).mpr hf

def accepted (k : ℕ) : Event n → Bool
  | .input j _ ok => decide (j = k) && ok
  | _ => false

def freed (k : ℕ) : Event n → Bool
  | .free j => decide (j = k)
  | _ => false

end EthDriver.RxFates

import EthDriver.RxRing

namespace EthDriver.RxInvariant

open Bits Bytes Cyclic Descriptors Runs RxRing

variable {n : ℕ}

/-- The test of `ETH_RecPeek` on a status word: no error, first and last. -/
def good (status : BitVec 32) : Bool :=
  !test status ethDmaRxDescEs && test status ethDmaRxDescFs && test status ethDmaRxDescLs

def view (p : Piece) : Returned := ⟨frameLen p.status, p.buf⟩

theorem closeStatus_own (status : BitVec 32) (first last : Bool) :
    test (closeStatus status first last) ethDmaRxDescOwn = false := by
  rw [closeStatus, test_or, test_clear_of_le _ (by decide), test_or]
  cases first <;> cases last <;> decide

theorem closeStatus_fs (status : BitVec 32) (first last : Bool) :
    test (closeStatus status first last) ethDmaRxDescFs = first := by
  rw [closeStatus, test_or, test_clear_of_le _ (by decide), test_or]
  cases first <;> cases last <;> decide

theorem closeStatus_ls (status : BitVec 32) (first last : Bool) :
    test (closeStatus status first last) ethDmaRxDescLs = last := by
  rw [closeStatus, test_or, test_clear_of_le _ (by decide), test_or]
  cases first <;> cases last <;> decide

/-- `FS` on the first piece only and `LS` on the last only. -/
def Whole (f : List Piece) : Prop :=
  ∀ i (h : i < f.length), test f[i].status ethDmaRxDescFs = (i == 0) ∧
    test f[i].status ethDmaRxDescLs = (i + 1 == f.length)

/-- The pieces of a frame whose last one is still to come. -/
def Open (f : List Piece) : Prop :=
  ∀ i (h : i < f.length), test f[i].status ethDmaRxDescFs = (i == 0) ∧
    test f[i].status ethDmaRxDescLs = false

theorem Open.filter_good {f : List Piece} (h : Open f) (k : ℕ) :
    (f.take k).filter (fun p => good p.status) = [] := by
  rw [List.filter_eq_nil_iff]
  intro p hp
  obtain ⟨i, hi, rfl⟩ := List.getElem_of_mem (List.mem_of_mem_take hp)
  simp [good, (h i hi).2]

theorem Whole.filter_good {f : List Piece} (h : Whole f) (hlen : f.length ≠ 1) (k : ℕ) :
    (f.take k).filter (fun p => good p.status) = [] := by
  rw [List.filter_eq_nil_iff]
  intro p hp
  obtain ⟨i, hi, rfl⟩ := List.getElem_of_mem (List.mem_of_mem_take hp)
  simp only [good, (h i hi).1, (h i hi).2]
  have hne : ¬ (i = 0 ∧ i + 1 = f.length) := by omega
  simpa using fun _ h0 => fun h1 => hne ⟨h0, h1⟩

theorem Whole.map_view_filter {f : List Piece} (h : Whole f) :
    ((f.filter (fun p => good p.status)).map view) = (delivered f).toList := by
  by_cases hlen : f.length = 1
  · obtain ⟨p, rfl⟩ := List.length_eq_one_iff.mp hlen
    have hp := h 0 (by simp)
    have hfs : test p.status ethDmaRxDescFs = true := by simpa using hp.1
    have hls : test p.status ethDmaRxDescLs = true := by simpa using hp.2
    cases hes : test p.status ethDmaRxDescEs <;> simp [delivered, good, view, hfs, hls, hes]
  · have hnil := h.filter_good hlen f.length
    rw [List.take_length] at hnil
    rw [hnil]
    match f, hlen with
    | [], _ => rfl
    | _ :: _ :: _, _ => rfl

/-- Piece by piece the driver's test picks out exactly the error-free
single-descriptor frames. -/
theorem filter_good_eq (frames : List (List Piece)) (f : List Piece)
    (hw : ∀ g ∈ frames, Whole g) (ho : Open f) (k : ℕ) :
    (((frames.flatten ++ f).take k).filter (fun p => good p.status)).map view =
      (wholeFrames frames k).filterMap delivered := by
  induction frames generalizing k with
  | nil => simp [wholeFrames, ho.filter_good]
  | cons g frames ih =>
    have hg : Whole g := hw g (by simp)
    rw [List.flatten_cons, List.append_assoc, wholeFrames]
    by_cases hk : g.length ≤ k
    · rw [if_pos hk, List.take_append, List.take_of_length_le hk, List.filter_append,
        List.map_append, ih (fun g' hm => hw g' (by simp [hm])), hg.map_view_filter,
        List.filterMap_cons]
      cases delivered g <;> rfl
    · -- the driver is in the middle of `g`, which then has several pieces
      have hnil : (g.take k).filter (fun p => good p.status) = [] := by
        by_cases h1 : g.length = 1
        · simp [show k = 0 by omega]
        · exact hg.filter_good h1 k
      rw [if_neg hk, List.take_append_of_le_length (by omega), hnil]
      rfl

/-- The ring holds the pieces from position `lo` on, each in its descriptor and
that descriptor's buffer, and the DMA owns the rest. -/
structure Filled (desc : Table (n + 1)) (mem : Memory) (lo : ℕ) (pieces : List Piece) : Prop where
  chained : Chained desc
  size : ∀ i, (desc i).controlBufferSize = ethDmaRxDescRch ||| BitVec.ofNat 32 ethMaxPacketSize
  window : Window (fun i => test (desc i).status ethDmaRxDescOwn = false) lo pieces.length
  holds : ∀ k p, lo ≤ k → pieces[k]? = some p →
    (desc (slot (n + 1) k)).status = p.status ∧
      read mem (slot (n + 1) k * ethMaxPacketSize) ethMaxPacketSize = p.buf

namespace Filled

variable {desc : Table (n + 1)} {mem : Memory} {lo : ℕ} {pieces : List Piece}

theorem size_update (h : Filled desc mem lo pieces) (i : Fin (n + 1)) (status : BitVec 32)
    (j : Fin (n + 1)) :
    (Function.update desc i { desc i with status := status } j).controlBufferSize =
      ethDmaRxDescRch ||| BitVec.ofNat 32 ethMaxPacketSize := by
  by_cases hj : j = i
  · subst j; rw [Function.update_self]; exact h.size i
  · rw [Function.update_of_ne hj]; exact h.size j

theorem handBack (h : Filled desc mem lo pieces) (hlt : lo < pieces.length) :
    Filled (Function.update desc (slot (n + 1) lo)
      { desc (slot (n + 1) lo) with status := ethDmaRxDescOwn }) mem (lo + 1) pieces where
  chained := h.chained.update _ _ rfl rfl
  size := h.size_update _ _
  window := h.window.pop hlt fun i => by
    by_cases hi : i = slot (n + 1) lo
    · subst i; simp [Function.update_self, test, ethDmaRxDescOwn]
    · simp [hi]
  holds k p hk hp := by
    have hkl : k < pieces.length := (List.getElem?_eq_some_iff.mp hp).1
    have hb := h.window.bound
    have hne : slot (n + 1) k ≠ slot (n + 1) lo := fun he => by
      have := slot_inj lo (by omega) (by omega) (Nat.le_refl _) (by omega) he
      omega
    rw [Function.update_of_ne hne]
    exact h.holds k p (by omega) hp

theorem close (h : Filled desc mem lo pieces) (hlt : pieces.length < lo + (n + 1))
    (status : BitVec 32) (hown : test status ethDmaRxDescOwn = false) :
    Filled (Function.update desc (slot (n + 1) pieces.length)
      { desc (slot (n + 1) pieces.length) with status := status }) mem lo
      (pieces ++ [⟨status, read mem (slot (n + 1) pieces.length * ethMaxPacketSize)
        ethMaxPacketSize⟩]) where
  chained := h.chained.update _ _ rfl rfl
  size := h.size_update _ _
  window := by
    rw [List.length_append, List.length_singleton]
    apply h.window.push hlt
    intro i
    by_cases hi : i = slot (n + 1) pieces.length
    · subst i; simp [Function.update_self, hown]
    · simp [hi]
  holds k p hk hp := by
    obtain hlk | rfl | hgt := Nat.lt_trichotomy k pieces.length
    · have hne : slot (n + 1) k ≠ slot (n + 1) pieces.length := fun he => by
        have := slot_inj lo hk (by omega) h.window.le hlt he
        omega
      rw [List.getElem?_append_left hlk] at hp
      rw [Function.update_of_ne hne]
      exact h.holds k p hk hp
    · rw [List.getElem?_concat_length, Option.some.injEq] at hp
      subst p
      rw [Function.update_self]
      exact ⟨rfl, by dsimp only⟩
    · rw [List.getElem?_eq_none (by simp; omega)] at hp
      cases hp

theorem fill (h : Filled desc mem lo pieces) (hlt : pieces.length < lo + (n + 1))
    (off : ℕ) (data : List UInt8) (hle : off + data.length ≤ ethMaxPacketSize) :
    Filled desc (write mem (slot (n + 1) pieces.length * ethMaxPacketSize + off) data) lo
      pieces where
  chained := h.chained
  size := h.size
  window := h.window
  holds k p hk hp := by
    have hkl : k < pieces.length := (List.getElem?_eq_some_iff.mp hp).1
    have hne : slot (n + 1) k ≠ slot (n + 1) pieces.length := fun he => by
      have := slot_inj lo hk (by omega) h.window.le hlt he
      omega
    obtain ⟨hs, hb⟩ := h.holds k p hk hp
    refine ⟨hs, ?_⟩
    rw [← hb, read_write_apart]
    have := buffers_apart (fun he => hne (Fin.ext he))
    omega

end Filled

/-- What `ETH_RecPeek` has established about the descriptor at `pDMARxSet` when
the task is at a given point. -/
def Tested (s : State n) : Prop :=
  match s.pc with
  | .es => CpuOwned s s.pDmaRxSet
  | .fs => CpuOwned s s.pDmaRxSet ∧ test s.status ethDmaRxDescEs = false
  | .ls => CpuOwned s s.pDmaRxSet ∧ test s.status ethDmaRxDescEs = false ∧
      test s.status ethDmaRxDescFs = true
  | .len => CpuOwned s s.pDmaRxSet ∧ good s.status = true
  | .addr len => CpuOwned s s.pDmaRxSet ∧ good s.status = true ∧ len = frameLen s.status
  | .discard => CpuOwned s s.pDmaRxSet ∧ good s.status = false
  | .alloc src _ | .take src _ _ | .free src _ =>
    CpuOwned s s.pDmaRxSet ∧ good s.status = true ∧ src = (s.desc s.pDmaRxSet).buffer1Addr
  | _ => True

structure Inv (s : State n) : Prop where
  filled : Filled s.desc s.mem s.handedBack (arrived s)
  base : base s = slot (n + 1) s.handedBack
  cur : s.cur = slot (n + 1) (arrived s).length
  whole : ∀ f ∈ s.frames, Whole f
  openFrame : Open s.openFrame
  tested : Tested s
  returned : s.returned =
    (((arrived s).take (consumed s)).filter (fun p => good p.status)).map view

theorem init_inv (n : ℕ) (mem : Memory) : Inv (init n mem) where
  filled :=
    { chained := rxChainInit_chained n
      size := fun _ => rfl
      window :=
        { le := Nat.le_refl _
          bound := Nat.le_add_left _ _
          inside := fun k _ hk => absurd hk (Nat.not_lt_zero k)
          outside := fun _ _ _ => by
            change ¬ test ethDmaRxDescOwn ethDmaRxDescOwn = false
            decide }
      holds := fun k p _ hp => by simp [arrived, init] at hp }
  base := rfl
  cur := rfl
  whole := by simp [init]
  openFrame := fun i hi => absurd hi (Nat.not_lt_zero i)
  tested := trivial
  returned := rfl

theorem Open.concat {f : List Piece} (h : Open f) (status : BitVec 32) (buf : List UInt8) :
    Open (f ++ [⟨closeStatus status f.isEmpty false, buf⟩]) := by
  intro i hi
  obtain hlt | hge := Nat.lt_or_ge i f.length
  · rw [List.getElem_append_left hlt]
    exact h i hlt
  · have he : i = f.length := by simp at hi; omega
    subst i
    rw [List.getElem_concat_length rfl, closeStatus_fs, closeStatus_ls]
    exact ⟨by cases f <;> rfl, rfl⟩

theorem Open.whole {f : List Piece} (h : Open f) (status : BitVec 32) (buf : List UInt8) :
    Whole (f ++ [⟨closeStatus status f.isEmpty true, buf⟩]) := by
  intro i hi
  obtain hlt | hge := Nat.lt_or_ge i f.length
  · rw [List.getElem_append_left hlt, (h i hlt).1, (h i hlt).2]
    exact ⟨rfl, by simp; omega⟩
  · have he : i = f.length := by simp at hi; omega
    subst i
    rw [List.getElem_concat_length rfl, closeStatus_fs, closeStatus_ls]
    exact ⟨by cases f <;> rfl, by simp⟩

theorem Tested.congr {s t : State n} (h : Tested s) (hpc : t.pc = s.pc)
    (hset : t.pDmaRxSet = s.pDmaRxSet)
    (hdesc : CpuOwned s s.pDmaRxSet → t.desc s.pDmaRxSet = s.desc s.pDmaRxSet) : Tested t := by
  by_cases ho : CpuOwned s s.pDmaRxSet
  · unfold Tested CpuOwned State.status at h ⊢
    rw [hpc, hset, hdesc ho]
    exact h
  · cases hp : s.pc <;> simp only [Tested, hp, ho, false_and] at h <;> simp [Tested, hpc, hp]

/-- Each test of `ETH_RecPeek` adds what it finds to what is known. -/
theorem Tested.cpuStep {s : State n} (h : Tested s) (q : Option Pbufs.Pbuf) :
    Tested (cpuStep s q) := by
  cases hpc : s.pc with
  | idle | retNull | ret =>
    simp only [RxRing.cpuStep, hpc]
    exact h
  | own =>
    simp only [RxRing.cpuStep, hpc]
    cases ho : test s.status ethDmaRxDescOwn with
    | true => exact trivial
    | false => exact ho
  | es =>
    simp only [Tested, hpc] at h
    simp only [RxRing.cpuStep, hpc]
    cases he : test s.status ethDmaRxDescEs with
    | true => exact ⟨h, by simp [good, he]⟩
    | false => exact ⟨h, he⟩
  | fs =>
    simp only [Tested, hpc] at h
    simp only [RxRing.cpuStep, hpc]
    cases hf : test s.status ethDmaRxDescFs with
    | true => exact ⟨h.1, h.2, hf⟩
    | false => exact ⟨h.1, by simp [good, hf]⟩
  | ls =>
    simp only [Tested, hpc] at h
    simp only [RxRing.cpuStep, hpc]
    cases hl : test s.status ethDmaRxDescLs with
    | true => exact ⟨h.1, by simp [good, hl, h.2.1, h.2.2]⟩
    | false => exact ⟨h.1, by simp [good, hl]⟩
  | len =>
    simp only [Tested, hpc] at h
    simp only [RxRing.cpuStep, hpc]
    exact ⟨h.1, h.2, rfl⟩
  | addr len =>
    simp only [Tested, hpc] at h
    simp only [RxRing.cpuStep, hpc]
    exact ⟨h.1, h.2.1, rfl⟩
  | alloc src len =>
    simp only [Tested, hpc] at h
    cases q <;> simp only [RxRing.cpuStep, hpc] <;> exact h
  | take src len p =>
    simp only [Tested, hpc] at h
    simp only [RxRing.cpuStep, hpc]
    exact h
  | discard | discardNext | free | freeNext | resume =>
    simp only [RxRing.cpuStep, hpc]
    exact trivial

theorem cur_ne {s : State n} {i : Fin (n + 1)} (hr : ready s = true) (ho : CpuOwned s i) :
    i ≠ s.cur := by
  rintro rfl
  simp only [ready, Bool.and_eq_true] at hr
  exact Bool.false_ne_true (ho.symm.trans hr.2)

/-- What the DMA writes lies in the buffer of a descriptor of its own. -/
theorem dmaStep_mem {s : State n} (hc : Chained s.desc)
    (hs : ∀ i, (s.desc i).controlBufferSize =
      ethDmaRxDescRch ||| BitVec.ofNat 32 ethMaxPacketSize)
    {i : Fin (n + 1)} (ho : CpuOwned s i) (a : DmaAct) {k : ℕ} (hk : k < ethMaxPacketSize) :
    (dmaStep s a).mem ((s.desc i).buffer1Addr + k) = s.mem ((s.desc i).buffer1Addr + k) := by
  cases a with
  | fill off data =>
    simp only [dmaStep, hs, hc.addr]
    split
    · rename_i hfill
      have hle : off + data.length ≤ ethMaxPacketSize := hfill.2
      have hne : (i : ℕ) ≠ s.cur := fun he => cur_ne hfill.1 ho (Fin.ext he)
      have hb := buffers_apart hne
      apply write_apart s.mem data
      omega
    · rfl
  | close status last =>
    simp only [dmaStep]
    split <;> rfl
  | suspend =>
    simp only [dmaStep]
    split <;> rfl

namespace Inv

variable {s : State n}

theorem base_eq (h : Inv s) :
    RxRing.base s = if advancing s.pc then chainNext s.pDmaRxSet else s.pDmaRxSet := by
  rw [RxRing.base, h.filled.chained.next]

theorem setAt (h : Inv s) (ha : advancing s.pc = false) :
    s.pDmaRxSet = slot (n + 1) s.handedBack := by
  have hb := h.base
  rwa [RxRing.base, ha, if_neg (by simp)] at hb

theorem oldest (h : Inv s) (ha : advancing s.pc = false) (ho : CpuOwned s s.pDmaRxSet) :
    ∃ p, (arrived s)[s.handedBack]? = some p ∧ s.status = p.status ∧
      read s.mem (s.desc s.pDmaRxSet).buffer1Addr ethMaxPacketSize = p.buf := by
  have hset := h.setAt ha
  rw [hset] at ho
  have hlt := h.filled.window.lt_of_lo ho
  obtain ⟨hst, hbuf⟩ := h.filled.holds s.handedBack _ (Nat.le_refl _) (List.getElem?_eq_getElem hlt)
  refine ⟨_, List.getElem?_eq_getElem hlt, ?_, ?_⟩
  · rw [State.status, hset, hst]
  · rw [h.filled.chained.addr, hset, hbuf]

theorem lt_arrived (h : Inv s) (ha : advancing s.pc = false) (ho : CpuOwned s s.pDmaRxSet) :
    s.handedBack < (arrived s).length := by
  obtain ⟨p, hp, -⟩ := h.oldest ha ho
  exact (List.getElem?_eq_some_iff.mp hp).1

theorem of_peeked (h : Inv s) {src : ℕ} (hp : peeked s.pc = some src) :
    CpuOwned s s.pDmaRxSet ∧ good s.status = true ∧
      src = (s.desc s.pDmaRxSet).buffer1Addr ∧ advancing s.pc = false := by
  have ht := h.tested
  cases hpc : s.pc <;> simp only [hpc, peeked, Option.some.injEq, reduceCtorEq] at hp <;>
    subst hp <;> simp only [Tested, hpc] at ht <;> exact ⟨ht.1, ht.2.1, ht.2.2, rfl⟩

theorem consumed_le (h : Inv s) : consumed s ≤ (arrived s).length := by
  have hle := h.filled.window.le
  simp only [consumed]
  split
  · rename_i hp
    obtain ⟨src, hsrc⟩ := Option.isSome_iff_exists.mp hp
    obtain ⟨ho, -, -, ha⟩ := h.of_peeked hsrc
    exact h.lt_arrived ha ho
  · exact hle

theorem goto (h : Inv s) {pc₀ pc : Pc} (hpc : s.pc = pc₀) (ha : advancing pc = advancing pc₀)
    (hp : (peeked pc).isSome = (peeked pc₀).isSome) (ht : Tested (s.goto pc)) :
    Inv (s.goto pc) := by
  subst hpc
  have hb := h.base
  have hc : consumed (s.goto pc) = consumed s := by simp only [consumed, State.goto, hp]
  refine ⟨h.filled, ?_, h.cur, h.whole, h.openFrame, ht, ?_⟩
  · simpa only [RxRing.base, State.goto, ha] using hb
  · rw [hc]
    exact h.returned

theorem pollDemand (h : Inv s) : Inv s.pollDemand := by
  simp only [State.pollDemand]
  split
  · exact ⟨h.filled, h.base, h.cur, h.whole, h.openFrame, h.tested, h.returned⟩
  · exact h

/-- Handing a descriptor back: the piece it held is consumed, and was returned
before exactly if the driver's test accepted it. -/
theorem handBack (h : Inv s) {pc₀ pc : Pc} (hpc : s.pc = pc₀) (ha : advancing pc₀ = false)
    (ho : CpuOwned s s.pDmaRxSet) (hg : good s.status = (peeked pc₀).isSome)
    (hadv : advancing pc = true) (hpk : peeked pc = none) (ht : Tested (s.handBack.goto pc)) :
    Inv (s.handBack.goto pc) := by
  subst hpc
  have hset := h.setAt ha
  have hlt := h.lt_arrived ha ho
  have hf := h.filled.handBack hlt
  rw [← hset] at hf
  refine ⟨hf, ?_, h.cur, h.whole, h.openFrame, ht, ?_⟩
  · simp only [RxRing.base, State.goto, State.handBack, hadv, if_true, Function.update_self]
    rw [h.filled.chained.next, hset, chainNext_slot]
  · obtain ⟨p, hp, hst, -⟩ := h.oldest ha ho
    have hc : consumed (s.handBack.goto pc) = s.handedBack + 1 := by
      simp [consumed, State.goto, State.handBack, hpk]
    have hr := h.returned
    rw [hc]
    change s.returned = (((arrived s).take (s.handedBack + 1)).filter _).map view
    cases hpk' : (peeked s.pc).isSome with
    | true => simpa only [consumed, hpk', if_true] using hr
    | false =>
      rw [hpk', hst] at hg
      simp only [consumed, hpk', Bool.false_eq_true, if_false, Nat.add_zero] at hr
      rw [hr, List.take_add_one, hp, Option.toList_some, List.filter_append,
        List.filter_singleton, hg]
      simp

theorem advance (h : Inv s) {pc₀ pc : Pc} (hpc : s.pc = pc₀) (ha : advancing pc₀ = true)
    (hadv : advancing pc = false) (hpk : (peeked pc).isSome = (peeked pc₀).isSome)
    (ht : Tested (s.advance.goto pc)) : Inv (s.advance.goto pc) := by
  subst hpc
  have hb := h.base
  have hc : consumed (s.advance.goto pc) = consumed s := by
    simp only [consumed, State.goto, State.advance, hpk]
  refine ⟨h.filled, ?_, h.cur, h.whole, h.openFrame, ht, ?_⟩
  · rw [RxRing.base, ha, if_pos rfl] at hb
    simpa [RxRing.base, State.goto, State.advance, hadv] using hb
  · rw [hc]
    exact h.returned

/-- `ETH_RecPeek` returns: the piece at `pDMARxSet` counts as consumed from now
on. -/
theorem peek (h : Inv s) {len : BitVec 16} (hpc : s.pc = .addr len) : Inv (cpuStep s none) := by
  have ht := h.tested
  simp only [Tested, hpc] at ht
  obtain ⟨ho, hg, rfl⟩ := ht
  have ha : advancing s.pc = false := by rw [hpc]; rfl
  obtain ⟨p, hp, hst, hbuf⟩ := h.oldest ha ho
  simp only [cpuStep, hpc]
  refine ⟨h.filled, ?_, h.cur, h.whole, h.openFrame, ⟨ho, hg, rfl⟩, ?_⟩
  · change s.pDmaRxSet = slot (n + 1) s.handedBack
    exact h.setAt ha
  · have hr := h.returned
    simp only [consumed, hpc, peeked, Option.isSome_none, Bool.false_eq_true, if_false,
      Nat.add_zero] at hr
    change s.returned ++ _ = (((arrived s).take (s.handedBack + 1)).filter _).map view
    rw [hr, List.take_add_one, hp, Option.toList_some, List.filter_append, List.filter_singleton,
      ← hst, hg, List.map_append, hbuf]
    simp [view, hst]

theorem cpuStep (h : Inv s) (allocated : Option Pbufs.Pbuf) : Inv (cpuStep s allocated) := by
  have ht := h.tested
  have hnext := h.tested.cpuStep allocated
  cases hpc : s.pc <;> simp only [Tested, hpc] at ht <;> simp only [RxRing.cpuStep, hpc] at hnext ⊢
  case idle | retNull | ret => exact h
  case own | es | fs | ls =>
    apply h.goto hpc
    · split <;> rfl
    · split <;> rfl
    · exact hnext
  case len => exact h.goto hpc rfl rfl hnext
  case addr len =>
    have hp := h.peek hpc
    simpa only [RxRing.cpuStep, hpc] using hp
  case discard => exact h.handBack hpc rfl ht.1 ht.2 rfl rfl hnext
  case discardNext => exact h.advance hpc rfl rfl rfl hnext
  case alloc src len =>
    cases allocated with
    | none => exact h.goto hpc rfl rfl hnext
    | some p => exact h.goto hpc rfl rfl hnext
  case take src len p => exact h.goto hpc rfl rfl hnext
  case free src p => exact h.handBack hpc rfl ht.1 ht.2.1 rfl rfl hnext
  case freeNext p => exact h.advance hpc rfl rfl rfl hnext
  case resume p =>
    -- the poll demand moves neither the task nor a descriptor
    have hpc' : s.pollDemand.pc = .resume p := by
      unfold State.pollDemand; split <;> exact hpc
    exact h.pollDemand.goto hpc' rfl rfl hnext

theorem call (h : Inv s) : Inv (call s) := by
  cases hpc : s.pc <;> simp only [RxRing.call, hpc]
  case idle | retNull | ret => exact h.goto hpc rfl rfl trivial
  all_goals exact h

theorem lt_of_ready (h : Inv s) (hr : ready s = true) :
    (arrived s).length < s.handedBack + (n + 1) := by
  simp only [ready, Bool.and_eq_true, h.cur] at hr
  exact h.filled.window.lt_of_not_hi (by simp [hr.2])

theorem arrived_close (s : State n) (status : BitVec 32) (last : Bool) :
    arrived (close s status last) = arrived s ++
      [⟨closeStatus status s.openFrame.isEmpty last,
        read s.mem (s.desc s.cur).buffer1Addr ethMaxPacketSize⟩] := by
  cases last <;> simp [arrived, close]

theorem close (h : Inv s) (hr : ready s = true) (status : BitVec 32) (last : Bool) :
    Inv (close s status last) := by
  have hlt := h.lt_of_ready hr
  have haddr : (s.desc s.cur).buffer1Addr =
      slot (n + 1) (arrived s).length * ethMaxPacketSize := by rw [h.filled.chained.addr, h.cur]
  have harr := arrived_close s status last
  have hf : Filled (RxRing.close s status last).desc s.mem s.handedBack
      (arrived (RxRing.close s status last)) := by
    have hc := h.filled.close hlt _ (closeStatus_own status s.openFrame.isEmpty last)
    rw [← haddr, ← harr, ← h.cur] at hc
    exact hc
  refine ⟨hf, ?_, ?_, ?_, ?_, ?_, ?_⟩
  · rw [RxRing.base, hf.chained.next]
    exact h.base_eq.symm.trans h.base
  · rw [harr, List.length_append, List.length_singleton, ← chainNext_slot, ← h.cur,
      ← h.filled.chained.next]
    rfl
  · cases last with
    | false => exact h.whole
    | true =>
      intro f hm
      obtain hm | hm := List.mem_append.mp hm
      · exact h.whole f hm
      · rw [List.mem_singleton.mp hm]
        exact h.openFrame.whole status _
  · cases last with
    | false => exact h.openFrame.concat status _
    | true => exact fun i hi => absurd hi (Nat.not_lt_zero i)
  · exact h.tested.congr rfl rfl fun ho => Function.update_of_ne (cur_ne hr ho) _ _
  · change s.returned =
      (((arrived (RxRing.close s status last)).take (consumed s)).filter _).map view
    rw [harr, List.take_append_of_le_length h.consumed_le]
    exact h.returned

theorem fill (h : Inv s) (hr : ready s = true) (off : ℕ) (data : List UInt8)
    (hle : off + data.length ≤ ethMaxPacketSize) :
    Inv { s with mem := write s.mem ((s.desc s.cur).buffer1Addr + off) data } := by
  have hf := h.filled.fill (h.lt_of_ready hr) off data hle
  rw [← h.cur, ← h.filled.chained.addr] at hf
  exact ⟨hf, h.base, h.cur, h.whole, h.openFrame, h.tested, h.returned⟩

theorem dmaStep (h : Inv s) (a : DmaAct) : Inv (dmaStep s a) := by
  cases a with
  | fill off data =>
    simp only [RxRing.dmaStep, h.filled.size]
    split
    · rename_i hc
      exact h.fill hc.1 off data hc.2
    · exact h
  | close status last =>
    simp only [RxRing.dmaStep]
    split
    · rename_i hr
      exact h.close hr status last
    · exact h
  | suspend =>
    simp only [RxRing.dmaStep]
    split
    · exact h
    · exact ⟨h.filled, h.base, h.cur, h.whole, h.openFrame, h.tested, h.returned⟩

theorem step (h : Inv s) (a : Act) : Inv (step s a) := by
  cases a with
  | call => exact h.call
  | cpu p => exact h.cpuStep p
  | dma a => exact h.dmaStep a
  | poll => exact h.pollDemand

end Inv

theorem run_inv (n : ℕ) (mem : Memory) (acts : List Act) : Inv (run step (init n mem) acts) :=
  run_invariant (fun _ a h => h.step a) (init_inv n mem) acts

/-- While the task holds a peeked buffer, its contents are what `ETH_RecPeek`
returned last. -/
theorem Inv.peeked_buffer {s : State n} (h : Inv s) {src : ℕ} (hp : peeked s.pc = some src) :
    ∃ len, s.returned.getLast? = some ⟨len, read s.mem src ethMaxPacketSize⟩ := by
  obtain ⟨ho, hg, hsrc, ha⟩ := h.of_peeked hp
  obtain ⟨p, hget, hst, hbuf⟩ := h.oldest ha ho
  refine ⟨frameLen p.status, ?_⟩
  rw [hst] at hg
  rw [h.returned, consumed, hp, Option.isSome_some, if_pos rfl, List.take_add_one, hget,
    Option.toList_some, List.filter_append, List.filter_singleton, hg, cond_true, List.map_append,
    hsrc, hbuf]
  simp [view]

theorem Inv.peeked_apart {s : State n} (h : Inv s) {src : ℕ} (hp : peeked s.pc = some src)
    (a : DmaAct) (i : ℕ) (hi : i < ethMaxPacketSize) :
    (RxRing.dmaStep s a).mem (src + i) = s.mem (src + i) := by
  obtain ⟨ho, -, rfl, -⟩ := h.of_peeked hp
  exact dmaStep_mem h.filled.chained h.filled.size ho a hi

/-- In every run the descriptors of the processor are the stretch of the ring
from the driver's pointer to the DMA's; the frames returned are the error-free
single-descriptor frames among those consumed, in order of arrival; and a peeked
buffer stays as it was returned, whatever the DMA does next. -/
theorem rx_ring_delivery (n : ℕ) (mem : Memory) (acts : List Act) :
    let s := run step (init n mem) acts
    Segment (CpuOwned s) (base s) s.cur ∧
    s.returned = (wholeFrames s.frames (consumed s)).filterMap delivered ∧
    ∀ src, peeked s.pc = some src →
      (∃ len, s.returned.getLast? = some ⟨len, read s.mem src ethMaxPacketSize⟩) ∧
      ∀ a, ∀ i < ethMaxPacketSize, (dmaStep s a).mem (src + i) = s.mem (src + i) := by
  intro s
  have h : Inv s := run_inv n mem acts
  refine ⟨?_, ?_, fun src hp => ⟨h.peeked_buffer hp, h.peeked_apart hp⟩⟩
  · rw [h.base, h.cur]
    exact h.filled.window.segment
  · rw [h.returned]
    exact filter_good_eq s.frames s.openFrame h.whole h.openFrame (consumed s)

end EthDriver.RxInvariant

import EthDriver.TxRing

namespace EthDriver.TxInvariant

open Bits Bytes Cyclic Descriptors Pbufs Runs TxRing

variable {n : ℕ}

/-- The frame of a call between its `OWN` write and its return. -/
def inFlight : Pc → List (List UInt8)
  | .clearTbus p | .demand p | .advance p => [p.bytes]
  | _ => []

def submitted (s : State n) : List (List UInt8) := s.accepted ++ inFlight s.pc

structure Carries (d : Desc (n + 1)) (mem : Memory) (f : List UInt8) : Prop where
  ls : test d.status ethDmaTxDescLs = true
  fs : test d.status ethDmaTxDescFs = true
  len : (d.controlBufferSize &&& ethDmaTxDescTbs1).toNat = f.length
  fits : f.length ≤ ethMaxPacketSize
  bytes : read mem d.buffer1Addr f.length = f

/-- The ring carries the frames from position `lo` on, each in its descriptor,
and the processor owns the rest. -/
structure Loaded (desc : Table (n + 1)) (mem : Memory) (lo : ℕ)
    (frames : List (List UInt8)) : Prop where
  chained : Chained desc
  ctrl : ∀ i, test (desc i).status ethDmaTxDescIc = true ∧
    test (desc i).status ethDmaTxDescTch = true
  window : Window (fun i => test (desc i).status ethDmaTxDescOwn = true) lo frames.length
  carries : ∀ k f, lo ≤ k → frames[k]? = some f → Carries (desc (slot (n + 1) k)) mem f

namespace Loaded

variable {desc : Table (n + 1)} {mem : Memory} {lo : ℕ} {frames : List (List UInt8)}

theorem slot_ne (h : Loaded desc mem lo frames) (hlt : frames.length < lo + (n + 1)) {k : ℕ}
    (hk : lo ≤ k) (hkl : k < frames.length) :
    slot (n + 1) k ≠ slot (n + 1) frames.length := fun he => by
  have := slot_inj lo hk (by omega) h.window.le hlt he
  omega

theorem update (h : Loaded desc mem lo frames) (hlt : frames.length < lo + (n + 1))
    (d : Desc (n + 1)) (ha : d.buffer1Addr = (desc (slot (n + 1) frames.length)).buffer1Addr)
    (hn : d.buffer2NextDescAddr = (desc (slot (n + 1) frames.length)).buffer2NextDescAddr)
    (hc : test d.status ethDmaTxDescIc = true ∧ test d.status ethDmaTxDescTch = true)
    (ho : test d.status ethDmaTxDescOwn = false) :
    Loaded (Function.update desc (slot (n + 1) frames.length) d) mem lo frames where
  chained := h.chained.update _ _ ha hn
  ctrl i := by
    by_cases hi : i = slot (n + 1) frames.length
    · subst i; rwa [Function.update_self]
    · rw [Function.update_of_ne hi]; exact h.ctrl i
  window := h.window.congr fun i => by
    by_cases hi : i = slot (n + 1) frames.length
    · subst i
      have hf := h.window.not_hi hlt
      simp only [Bool.not_eq_true] at hf
      simp [Function.update_self, ho, hf]
    · simp [hi]
  carries k f hk hf := by
    have hkl : k < frames.length := (List.getElem?_eq_some_iff.mp hf).1
    rw [Function.update_of_ne (h.slot_ne hlt hk hkl)]
    exact h.carries k f hk hf

theorem store (h : Loaded desc mem lo frames) (hlt : frames.length < lo + (n + 1)) (off : ℕ)
    (data : List UInt8) (hle : off + data.length ≤ ethMaxPacketSize) :
    Loaded desc (write mem (slot (n + 1) frames.length * ethMaxPacketSize + off) data) lo
      frames where
  chained := h.chained
  ctrl := h.ctrl
  window := h.window
  carries k f hk hf := by
    have hkl : k < frames.length := (List.getElem?_eq_some_iff.mp hf).1
    have hc := h.carries k f hk hf
    refine ⟨hc.ls, hc.fs, hc.len, hc.fits, ?_⟩
    have hb := buffers_apart (fun he => h.slot_ne hlt hk hkl (Fin.ext he))
    have hfit := hc.fits
    rw [read_write_apart, hc.bytes]
    rw [h.chained.addr]
    omega

theorem push (h : Loaded desc mem lo frames) (hlt : frames.length < lo + (n + 1))
    {f : List UInt8} (hc : Carries (desc (slot (n + 1) frames.length)) mem f) :
    Loaded (Function.update desc (slot (n + 1) frames.length)
      { desc (slot (n + 1) frames.length) with
        status := (desc (slot (n + 1) frames.length)).status ||| ethDmaTxDescOwn }) mem lo
      (frames ++ [f]) where
  chained := h.chained.update _ _ rfl rfl
  ctrl i := by
    by_cases hi : i = slot (n + 1) frames.length
    · subst i; simp [Function.update_self, (h.ctrl _).1, (h.ctrl _).2]
    · rw [Function.update_of_ne hi]; exact h.ctrl i
  window := by
    rw [List.length_append, List.length_singleton]
    apply h.window.push hlt
    intro i
    by_cases hi : i = slot (n + 1) frames.length
    · subst i
      have hself : test ethDmaTxDescOwn ethDmaTxDescOwn = true := by decide
      simp [Function.update_self, hself]
    · simp [hi]
  carries k g hk hg := by
    obtain hlk | rfl | hgt := Nat.lt_trichotomy k frames.length
    · rw [List.getElem?_append_left hlk] at hg
      rw [Function.update_of_ne (h.slot_ne hlt hk hlk)]
      exact h.carries k g hk hg
    · rw [List.getElem?_concat_length, Option.some.injEq] at hg
      subst g
      rw [Function.update_self]
      exact ⟨by simp [hc.ls], by simp [hc.fs], hc.len, hc.fits, hc.bytes⟩
    · rw [List.getElem?_eq_none (by simp; omega)] at hg
      cases hg

theorem pop (h : Loaded desc mem lo frames) (hlt : lo < frames.length) (bits : BitVec 32) :
    Loaded (Function.update desc (slot (n + 1) lo)
      { desc (slot (n + 1) lo) with
        status := ((desc (slot (n + 1) lo)).status ||| bits) &&& ~~~ethDmaTxDescOwn }) mem (lo + 1)
      frames where
  chained := h.chained.update _ _ rfl rfl
  ctrl i := by
    by_cases hi : i = slot (n + 1) lo
    · subst i
      rw [Function.update_self]
      constructor <;> rw [test_clear_of_disjoint _ (by decide), test_or]
      · rw [(h.ctrl _).1, Bool.true_or]
      · rw [(h.ctrl _).2, Bool.true_or]
    · rw [Function.update_of_ne hi]; exact h.ctrl i
  window := h.window.pop hlt fun i => by
    by_cases hi : i = slot (n + 1) lo
    · subst i
      rw [Function.update_self, test_clear_of_le _ (by decide)]
      simp
    · simp [hi]
  carries k f hk hf := by
    have hkl : k < frames.length := (List.getElem?_eq_some_iff.mp hf).1
    have hb := h.window.bound
    have hne : slot (n + 1) k ≠ slot (n + 1) lo := fun he => by
      have := slot_inj lo (by omega) (by omega) (Nat.le_refl _) (by omega) he
      omega
    rw [Function.update_of_ne hne]
    exact h.carries k f (by omega) hf

end Loaded

/-- What the calls so far have established about the descriptor at
`DMATxDescToSet` and its buffer. -/
def Prepared (s : State n) : Prop :=
  let d := s.desc s.dmaTxDescToSet
  match s.pc with
  | .getTxBuf p | .wait p | .retry p => p.totLen ≤ ethMaxPacketSize
  | .copy p dst q off =>
    p.totLen ≤ ethMaxPacketSize ∧ test d.status ethDmaTxDescOwn = false ∧ dst = d.buffer1Addr ∧
      ∃ done, p.segs = done ++ q ∧ off.toNat = done.flatten.length ∧
        read s.mem dst off.toNat = done.flatten
  | .setSize p =>
    p.totLen ≤ ethMaxPacketSize ∧ test d.status ethDmaTxDescOwn = false ∧
      read s.mem d.buffer1Addr p.totLen = p.bytes
  | .setSegment p =>
    p.totLen ≤ ethMaxPacketSize ∧ test d.status ethDmaTxDescOwn = false ∧
      read s.mem d.buffer1Addr p.totLen = p.bytes ∧
      d.controlBufferSize = BitVec.ofNat 32 p.totLen &&& ethDmaTxDescTbs1
  | .setOwn p => test d.status ethDmaTxDescOwn = false ∧ Carries d s.mem p.bytes
  | _ => True

/-- The points between the `OWN` write and the pointer update. -/
def committed : Pc → Bool
  | .clearTbus _ | .demand _ | .advance _ => true
  | _ => false

structure Inv (s : State n) : Prop where
  loaded : Loaded s.desc s.mem s.transmitted.length (submitted s)
  cur : s.cur = slot (n + 1) s.transmitted.length
  setAt : (if committed s.pc then chainNext s.dmaTxDescToSet else s.dmaTxDescToSet) =
    slot (n + 1) (submitted s).length
  sent : s.transmitted = (submitted s).take s.transmitted.length
  prepared : Prepared s

/-- The length survives its way through the 13-bit size field. -/
theorem size_eq {len : ℕ} (h : len ≤ ethMaxPacketSize) :
    BitVec.ofNat 32 len &&& ethDmaTxDescTbs1 = BitVec.ofNat 32 len := by
  unfold ethMaxPacketSize at h
  have hm : ethDmaTxDescTbs1.toNat = 2 ^ 13 - 1 := rfl
  apply BitVec.eq_of_toNat_eq
  rw [BitVec.toNat_and, hm, Nat.and_two_pow_sub_one_eq_mod, BitVec.toNat_ofNat]
  omega

/-- The 16-bit offset of the copy loop does not wrap within a buffer. -/
theorem off_toNat {p : Pbuf} (hlen : p.totLen ≤ ethMaxPacketSize) {done rest : List (List UInt8)}
    {q : List UInt8} (hsegs : p.segs = done ++ q :: rest) {off : BitVec 16}
    (hoff : off.toNat = done.flatten.length) :
    off.toNat + q.length ≤ ethMaxPacketSize ∧
      (off + BitVec.ofNat 16 q.length).toNat = (done ++ [q]).flatten.length := by
  have hsum : done.flatten.length + q.length + rest.flatten.length = p.totLen := by
    rw [p.totLen_eq, hsegs]
    simp [Nat.add_assoc]
  have hend : (done ++ [q]).flatten.length = done.flatten.length + q.length := by simp
  refine ⟨by omega, ?_⟩
  unfold ethMaxPacketSize at hlen
  rw [hend, BitVec.toNat_add, BitVec.toNat_ofNat]
  omega

theorem init_inv (tab : Table (n + 1)) (mem : Memory) : Inv (init tab mem) where
  loaded :=
    { chained := txChainInit_chained tab
      ctrl := fun _ => ⟨by change test (ethDmaTxDescTch ||| ethDmaTxDescIc) _ = true; decide,
        by change test (ethDmaTxDescTch ||| ethDmaTxDescIc) _ = true; decide⟩
      window :=
        { le := Nat.le_refl _
          bound := Nat.le_add_left _ _
          inside := fun k _ hk => absurd hk (Nat.not_lt_zero k)
          outside := fun _ _ _ => by
            change ¬ test (ethDmaTxDescTch ||| ethDmaTxDescIc) ethDmaTxDescOwn = true
            decide }
      carries := fun k f _ hf => by simp [submitted, init, inFlight] at hf }
  cur := rfl
  setAt := rfl
  sent := rfl
  prepared := trivial

namespace Inv

variable {s : State n}

theorem toSet (h : Inv s) (hc : committed s.pc = false) :
    s.dmaTxDescToSet = slot (n + 1) (submitted s).length := by
  have hs := h.setAt
  rwa [hc, if_neg (by simp)] at hs

theorem lt_of_free (h : Inv s) (hc : committed s.pc = false)
    (hf : test (s.desc s.dmaTxDescToSet).status ethDmaTxDescOwn = false) :
    (submitted s).length < s.transmitted.length + (n + 1) := by
  rw [h.toSet hc] at hf
  exact h.loaded.window.lt_of_not_hi (by simp [hf])

theorem goto (h : Inv s) {pc₀ pc : Pc} (hpc : s.pc = pc₀) (hc : committed pc = committed pc₀)
    (hi : inFlight pc = inFlight pc₀) (hp : Prepared (s.goto pc)) : Inv (s.goto pc) := by
  subst hpc
  have hsub : submitted (s.goto pc) = submitted s := by simp only [submitted, State.goto, hi]
  refine ⟨?_, h.cur, ?_, ?_, hp⟩
  · rw [hsub]; exact h.loaded
  · rw [hsub]
    have hs := h.setAt
    simpa only [State.goto, hc] using hs
  · rw [hsub]; exact h.sent

theorem setDesc (h : Inv s) {pc₀ : Pc} (hpc : s.pc = pc₀) (hc : committed pc₀ = false) (pc : Pc)
    (hc' : committed pc = false) (hi : inFlight pc = inFlight pc₀) (f : Desc (n + 1) → Desc (n + 1))
    (ha : (f (s.desc s.dmaTxDescToSet)).buffer1Addr = (s.desc s.dmaTxDescToSet).buffer1Addr)
    (hn : (f (s.desc s.dmaTxDescToSet)).buffer2NextDescAddr =
      (s.desc s.dmaTxDescToSet).buffer2NextDescAddr)
    (hctrl : test (f (s.desc s.dmaTxDescToSet)).status ethDmaTxDescIc = true ∧
      test (f (s.desc s.dmaTxDescToSet)).status ethDmaTxDescTch = true)
    (hfree : test (s.desc s.dmaTxDescToSet).status ethDmaTxDescOwn = false)
    (ho : test (f (s.desc s.dmaTxDescToSet)).status ethDmaTxDescOwn = false)
    (hp : Prepared ((s.setDesc f).goto pc)) : Inv ((s.setDesc f).goto pc) := by
  subst hpc
  have hset := h.toSet hc
  have hlt := h.lt_of_free hc hfree
  have hsub : submitted ((s.setDesc f).goto pc) = submitted s := by
    simp only [submitted, State.goto, State.setDesc, hi]
  rw [hset] at ha hn hctrl ho
  have hl := h.loaded.update hlt _ ha hn hctrl ho
  rw [← hset] at hl
  refine ⟨?_, h.cur, ?_, ?_, hp⟩
  · rw [hsub]; exact hl
  · rw [hsub]
    simpa only [State.goto, State.setDesc, hc', Bool.false_eq_true, if_false] using hset
  · rw [hsub]; exact h.sent

theorem size_toNat {len : ℕ} (h : len ≤ ethMaxPacketSize) :
    ((BitVec.ofNat 32 len &&& ethDmaTxDescTbs1) &&& ethDmaTxDescTbs1).toNat = len := by
  rw [size_eq h, size_eq h, BitVec.toNat_ofNat]
  unfold ethMaxPacketSize at h
  omega

/-- A descriptor is chosen: either it is free and the copy loop starts, or the
ring is full. -/
theorem getTxBuf (h : Inv s) {p : Pbuf} {pc₀ pc : Pc} (hpc : s.pc = pc₀)
    (hlen : p.totLen ≤ ethMaxPacketSize) (hc : committed pc = committed pc₀)
    (hc₀ : committed pc₀ = false) (hi : inFlight pc = inFlight pc₀) (hi₀ : inFlight pc₀ = [])
    (hfull : Prepared (s.goto pc)) :
    Inv (match ethGetTxBuf s with
      | some dst => s.goto (.copy p dst p.segs 0)
      | none => s.goto pc) := by
  cases ho : test (s.desc s.dmaTxDescToSet).status ethDmaTxDescOwn with
  | true =>
    simp only [ethGetTxBuf, ho, if_true]
    exact h.goto hpc hc hi hfull
  | false =>
    simp only [ethGetTxBuf, ho, Bool.false_eq_true, if_false]
    exact h.goto hpc hc₀.symm hi₀.symm ⟨hlen, ho, rfl, [], rfl, rfl, rfl⟩

theorem copy (h : Inv s) {p : Pbuf} {dst : ℕ} {q : List UInt8} {rest : List (List UInt8)}
    {off : BitVec 16} (hpc : s.pc = .copy p dst (q :: rest) off) :
    Inv { s with
      mem := write s.mem (dst + off.toNat) q
      pc := .copy p dst rest (off + BitVec.ofNat 16 q.length) } := by
  have hp := h.prepared
  simp only [Prepared, hpc] at hp
  obtain ⟨hlen, ho, hdst, done, hsegs, hoff, hread⟩ := hp
  have hc : committed s.pc = false := by rw [hpc]; rfl
  obtain ⟨hle, hoff'⟩ := off_toNat hlen hsegs hoff
  have hst := h.loaded.store (h.lt_of_free hc ho) off.toNat q hle
  have hsub : ∀ mem, submitted { s with
      mem := mem
      pc := .copy p dst rest (off + BitVec.ofNat 16 q.length) } = submitted s :=
    fun _ => by simp only [submitted, hpc, inFlight]
  rw [← h.toSet hc, ← h.loaded.chained.addr, ← hdst] at hst
  refine ⟨?_, h.cur, ?_, ?_, hlen, ho, hdst, done ++ [q], by simp [hsegs], ?_, ?_⟩
  · rw [hsub]; exact hst
  · rw [hsub]; exact h.toSet hc
  · rw [hsub]; exact h.sent
  · exact hoff'
  · have hlen' : (done ++ [q]).flatten.length = off.toNat + q.length := by simp [hoff]
    rw [hoff', hlen', read_write_append, hread]
    simp

theorem setOwn (h : Inv s) {p : Pbuf} (hpc : s.pc = .setOwn p) :
    Inv ((s.setDesc fun d => { d with status := d.status ||| ethDmaTxDescOwn }).goto
      (.clearTbus p)) := by
  have hp := h.prepared
  simp only [Prepared, hpc] at hp
  obtain ⟨ho, hcar⟩ := hp
  have hc : committed s.pc = false := by rw [hpc]; rfl
  have hset := h.toSet hc
  rw [hset] at hcar
  have hl := h.loaded.push (h.lt_of_free hc ho) hcar
  have hsub : submitted ((s.setDesc fun d => { d with status := d.status ||| ethDmaTxDescOwn }).goto
      (.clearTbus p)) = submitted s ++ [p.bytes] := by
    simp [submitted, State.goto, State.setDesc, inFlight, hpc]
  rw [← hset] at hl
  refine ⟨?_, h.cur, ?_, ?_, trivial⟩
  · rw [hsub]; exact hl
  · rw [hsub, List.length_append, List.length_singleton, ← chainNext_slot, ← hset]
    rfl
  · rw [hsub]
    change s.transmitted = (submitted s ++ [p.bytes]).take s.transmitted.length
    rw [List.take_append_of_le_length h.loaded.window.le]
    exact h.sent

theorem advance (h : Inv s) {p : Pbuf} (hpc : s.pc = .advance p) :
    Inv { s with
      dmaTxDescToSet := (s.desc s.dmaTxDescToSet).buffer2NextDescAddr
      pc := .ret p .ok
      accepted := s.accepted ++ [p.bytes] } := by
  have hsub : submitted s = s.accepted ++ [p.bytes] := by simp [submitted, hpc, inFlight]
  have hl := h.loaded
  have hset := h.setAt
  have hsent := h.sent
  rw [hsub] at hl hset hsent
  rw [hpc, committed, if_pos rfl, ← h.loaded.chained.next] at hset
  refine ⟨?_, h.cur, ?_, ?_, trivial⟩
  · simpa only [submitted, inFlight, List.append_nil] using hl
  · simpa [submitted, inFlight, committed] using hset
  · simpa only [submitted, inFlight, List.append_nil] using hsent

theorem cpuStep (h : Inv s) (taken : Bool) : Inv (cpuStep s taken) := by
  have hp := h.prepared
  cases hpc : s.pc <;> simp only [Prepared, hpc] at hp <;> simp only [TxRing.cpuStep, hpc]
  case idle | ret => exact h
  case checkLen p =>
    by_cases hlen : p.totLen > ethMaxPacketSize
    · rw [if_pos hlen]
      exact h.goto hpc rfl rfl trivial
    · rw [if_neg hlen]
      exact h.goto hpc rfl rfl (Nat.le_of_not_gt hlen)
  case getTxBuf p =>
    exact h.getTxBuf hpc hp rfl rfl rfl rfl hp
  case wait p =>
    cases taken
    · exact h.goto hpc rfl rfl trivial
    · exact h.goto hpc rfl rfl hp
  case retry p =>
    exact h.getTxBuf hpc hp rfl rfl rfl rfl trivial
  case copy p dst q off =>
    cases q with
    | nil =>
      obtain ⟨hlen, ho, hdst, done, hsegs, hoff, hread⟩ := hp
      refine h.goto hpc rfl rfl ⟨hlen, ho, ?_⟩
      rw [List.append_nil] at hsegs
      rw [hdst] at hread
      rwa [hoff, ← hsegs, ← p.totLen_eq] at hread
    | cons q rest => exact h.copy hpc
  case setSize p =>
    apply h.setDesc hpc rfl (.setSegment p) rfl rfl
    · rfl
    · rfl
    · exact h.loaded.ctrl _
    · exact hp.2.1
    · exact hp.2.1
    · simpa [Prepared, State.goto, State.setDesc] using hp
  case setSegment p =>
    have hnot : test (ethDmaTxDescLs ||| ethDmaTxDescFs) ethDmaTxDescOwn = false := by decide
    have hctrl := h.loaded.ctrl s.dmaTxDescToSet
    obtain ⟨hlen, ho, hread, hsize⟩ := hp
    apply h.setDesc hpc rfl (.setOwn p) rfl rfl
    · rfl
    · rfl
    · simp only [test_or, hctrl.1, hctrl.2, Bool.true_or, and_self]
    · exact ho
    · simp only [test_or ((s.desc s.dmaTxDescToSet).status), ho, hnot, Bool.or_self]
    · simp only [Prepared, State.goto, State.setDesc, Function.update_self]
      refine ⟨by rw [test_or ((s.desc s.dmaTxDescToSet).status), ho, hnot]; rfl, ?_⟩
      have hls : test (ethDmaTxDescLs ||| ethDmaTxDescFs) ethDmaTxDescLs = true := by decide
      have hfs : test (ethDmaTxDescLs ||| ethDmaTxDescFs) ethDmaTxDescFs = true := by decide
      refine ⟨?_, ?_, ?_, by rwa [p.bytes_length], by rwa [p.bytes_length]⟩
      · rw [test_or ((s.desc s.dmaTxDescToSet).status), hls, Bool.or_true]
      · rw [test_or ((s.desc s.dmaTxDescToSet).status), hfs, Bool.or_true]
      · rw [hsize, size_toNat hlen, p.bytes_length]
  case setOwn p => exact h.setOwn hpc
  case clearTbus p => exact h.goto hpc rfl rfl trivial
  case demand p => exact h.goto hpc rfl rfl trivial
  case advance p => exact h.advance hpc

theorem call (h : Inv s) (p : Pbuf) : Inv (call s p) := by
  cases hpc : s.pc <;> simp only [TxRing.call, hpc]
  case idle | ret => exact h.goto hpc rfl rfl trivial
  all_goals exact h

theorem lt_of_owned (h : Inv s) (ho : test (s.desc s.cur).status ethDmaTxDescOwn = true) :
    s.transmitted.length < (submitted s).length := by
  rw [h.cur] at ho
  exact h.loaded.window.lt_of_lo ho

theorem frameAt_cur (h : Inv s) (ho : test (s.desc s.cur).status ethDmaTxDescOwn = true) :
    (submitted s)[s.transmitted.length]? = some (frameAt s s.cur) := by
  have hget := List.getElem?_eq_getElem (h.lt_of_owned ho)
  have hc := h.loaded.carries _ _ (Nat.le_refl _) hget
  rw [hget, frameAt, h.cur, hc.len, hc.bytes]

theorem prepared_complete (h : Inv s) (bits : BitVec 32) : Prepared (complete s bits) := by
  have hp := h.prepared
  unfold complete
  dsimp only
  split
  · rename_i ho
    have hne : test (s.desc s.dmaTxDescToSet).status ethDmaTxDescOwn = false →
        s.dmaTxDescToSet ≠ s.cur := by
      intro hf he
      rw [he, ho] at hf
      cases hf
    cases hpc : s.pc <;> simp only [Prepared, hpc] at hp ⊢
    case getTxBuf | wait | retry => exact hp
    case copy | setSize | setSegment => rwa [Function.update_of_ne (hne hp.2.1)]
    case setOwn => rwa [Function.update_of_ne (hne hp.1)]
  · exact hp

theorem complete (h : Inv s) (bits : BitVec 32) : Inv (complete s bits) := by
  have hp := h.prepared_complete bits
  unfold TxRing.complete at hp ⊢
  dsimp only at hp ⊢
  split
  · rename_i ho
    rw [if_pos ho] at hp
    have hlt := h.lt_of_owned ho
    have hl := h.loaded.pop hlt bits
    rw [← h.cur] at hl
    refine ⟨?_, ?_, h.setAt, ?_, hp⟩
    · rw [List.length_append, List.length_singleton]
      exact hl
    · rw [h.loaded.chained.next, h.cur, chainNext_slot, List.length_append, List.length_singleton]
    · have hs := h.sent
      change s.transmitted ++ [frameAt s s.cur] = (submitted s).take _
      rw [List.length_append, List.length_singleton, List.take_add_one, h.frameAt_cur ho, ← hs]
      rfl
  · exact h

theorem step (h : Inv s) (a : Act) : Inv (step s a) := by
  cases a with
  | call p => exact h.call p
  | cpu taken => exact h.cpuStep taken
  | complete bits => exact h.complete bits

end Inv

theorem run_inv (tab : Table (n + 1)) (mem : Memory) (acts : List Act) :
    Inv (run step (init tab mem) acts) :=
  run_invariant (fun _ a h => h.step a) (init_inv tab mem) acts

theorem Inv.segment {s : State n} (h : Inv s) (hc : committed s.pc = false) :
    Segment (DmaOwned s) s.cur s.dmaTxDescToSet := by
  rw [h.cur, h.toSet hc]
  exact h.loaded.window.segment

theorem ethGetTxBuf_none_iff (s : State n) :
    ethGetTxBuf s = none ↔ DmaOwned s s.dmaTxDescToSet := by
  cases ho : test (s.desc s.dmaTxDescToSet).status ethDmaTxDescOwn <;>
    simp [ethGetTxBuf, DmaOwned, ho]

theorem Inv.hands_off {s : State n} (h : Inv s) (taken : Bool) (i : Fin (n + 1))
    (hi : DmaOwned s i) :
    ((TxRing.cpuStep s taken).desc i).controlBufferSize = (s.desc i).controlBufferSize ∧
      ∀ b < ethMaxPacketSize, (TxRing.cpuStep s taken).mem ((s.desc i).buffer1Addr + b) =
        s.mem ((s.desc i).buffer1Addr + b) := by
  have hp := h.prepared
  have hne : test (s.desc s.dmaTxDescToSet).status ethDmaTxDescOwn = false →
      i ≠ s.dmaTxDescToSet := by
    intro hf he
    rw [DmaOwned, he, hf] at hi
    cases hi
  cases hpc : s.pc <;> simp only [Prepared, hpc] at hp <;> simp only [TxRing.cpuStep, hpc]
  case idle | advance | ret => exact ⟨trivial, fun _ _ => trivial⟩
  case getTxBuf | retry => cases ethGetTxBuf s <;> exact ⟨rfl, fun _ _ => rfl⟩
  case copy p dst q off =>
    cases q with
    | nil => exact ⟨rfl, fun _ _ => rfl⟩
    | cons q rest =>
      obtain ⟨hlen, ho, hdst, done, hsegs, hoff, -⟩ := hp
      refine ⟨rfl, fun b hb => write_apart s.mem q ?_⟩
      have hsum : done.flatten.length + q.length + rest.flatten.length = p.totLen := by
        rw [p.totLen_eq, hsegs]
        simp [Nat.add_assoc]
      have hap := buffers_apart (fun he => hne ho (Fin.ext he))
      rw [hdst, h.loaded.chained.addr, h.loaded.chained.addr]
      omega
  case setSize =>
    refine ⟨?_, fun _ _ => rfl⟩
    simp only [State.goto, State.setDesc, Function.update_of_ne (hne hp.2.1)]
  case setSegment | setOwn =>
    refine ⟨?_, fun _ _ => rfl⟩
    by_cases he : i = s.dmaTxDescToSet
    · subst i; simp [State.goto, State.setDesc]
    · simp only [State.goto, State.setDesc, Function.update_of_ne he]
  all_goals exact ⟨rfl, fun _ _ => rfl⟩

theorem Inv.owned_bits {s : State n} (h : Inv s) (i : Fin (n + 1)) (hi : DmaOwned s i) :
    test (s.desc i).status ethDmaTxDescLs = true ∧ test (s.desc i).status ethDmaTxDescFs = true ∧
      test (s.desc i).status ethDmaTxDescIc = true ∧
      test (s.desc i).status ethDmaTxDescTch = true := by
  have hw := h.loaded.window
  obtain ⟨j, hj, rfl⟩ := exists_slot s.transmitted.length i
  have hlt : s.transmitted.length + j < (submitted s).length := by
    by_contra hge
    exact hw.outside (s.transmitted.length + j) (by omega) (by omega) hi
  have hc := h.loaded.carries _ _ (Nat.le_add_right _ j) (List.getElem?_eq_getElem hlt)
  exact ⟨hc.ls, hc.fs, (h.loaded.ctrl _).1, (h.loaded.ctrl _).2⟩

/-- Between calls the frames accepted are those already sent followed by those
in the ring, which the DMA owns and sends next. -/
theorem Inv.pending {s : State n} (h : Inv s) (hr : returned s.pc = true) :
    ∃ pending : List (List UInt8), s.accepted = s.transmitted ++ pending ∧
      pending.length ≤ n + 1 ∧ ∀ j < n + 1,
        (DmaOwned s (slot (n + 1) (s.cur + j)) ↔ j < pending.length) ∧
        ∀ f, pending[j]? = some f → frameAt s (slot (n + 1) (s.cur + j)) = f := by
  have hsub : submitted s = s.accepted := by
    cases hpc : s.pc <;> simp [hpc, returned] at hr <;> simp [submitted, hpc, inFlight]
  have hw := h.loaded.window
  have hsent := h.sent
  have hcar := h.loaded.carries
  rw [hsub] at hw hsent hcar
  have hle := hw.le
  have hb := hw.bound
  refine ⟨s.accepted.drop s.transmitted.length, ?_, ?_, fun j hj => ?_⟩
  · conv_rhs => rw [hsent]
    rw [List.length_take, Nat.min_eq_left hle, List.take_append_drop]
  · rw [List.length_drop]; omega
  · rw [h.cur, slot_add_val, List.length_drop]
    refine ⟨⟨fun ho => ?_, fun hlt => hw.inside _ (by omega) (by omega)⟩, fun f hf => ?_⟩
    · by_contra hge
      exact hw.outside (s.transmitted.length + j) (by omega) (by omega) ho
    · rw [List.getElem?_drop] at hf
      have hc := hcar _ _ (Nat.le_add_right _ j) hf
      rw [frameAt, hc.len, hc.bytes]

/-- The transmit ring in every run, `DMATxDescToSet` being looked at outside the
few accesses between the `OWN` write and its update. -/
theorem tx_ring_invariant (tab : Table (n + 1)) (mem : Memory) (acts : List Act) :
    let s := run step (init tab mem) acts
    (committed s.pc = false → Segment (DmaOwned s) s.cur s.dmaTxDescToSet ∧
      (ethGetTxBuf s = none ↔ ∀ i, DmaOwned s i)) ∧
    (∀ taken i, DmaOwned s i →
      ((cpuStep s taken).desc i).controlBufferSize = (s.desc i).controlBufferSize ∧
      ∀ b < ethMaxPacketSize, (cpuStep s taken).mem ((s.desc i).buffer1Addr + b) =
        s.mem ((s.desc i).buffer1Addr + b)) ∧
    (∀ i, DmaOwned s i →
      test (s.desc i).status ethDmaTxDescLs = true ∧
      test (s.desc i).status ethDmaTxDescFs = true ∧
      test (s.desc i).status ethDmaTxDescIc = true ∧
      test (s.desc i).status ethDmaTxDescTch = true) ∧
    (returned s.pc = true →
      ∃ pending : List (List UInt8), s.accepted = s.transmitted ++ pending ∧
        pending.length ≤ n + 1 ∧ ∀ j < n + 1,
          (DmaOwned s (slot (n + 1) (s.cur + j)) ↔ j < pending.length) ∧
          ∀ f, pending[j]? = some f → frameAt s (slot (n + 1) (s.cur + j)) = f) := by
  intro s
  have h : Inv s := run_inv tab mem acts
  refine ⟨fun hc => ⟨h.segment hc, ?_⟩, h.hands_off, h.owned_bits, h.pending⟩
  rw [ethGetTxBuf_none_iff, (h.segment hc).end_iff]

end EthDriver.TxInvariant

import EthDriver.TxInvariant

namespace EthDriver.TxOutput

open Bits Bytes Descriptors Pbufs Runs TxRing TxInvariant

variable {n : ℕ}

/-- What `low_level_output` and the DMA share: descriptors, buffers, `DMATxDescToSet`, and
the DMA's position. -/
structure RingState (n : ℕ) where
  desc : Table (n + 1)
  mem : Memory
  dmaTxDescToSet : Fin (n + 1)
  cur : Fin (n + 1)

def ring (s : State n) : RingState n := ⟨s.desc, s.mem, s.dmaTxDescToSet, s.cur⟩

namespace RingState

def target (r : RingState n) : Desc (n + 1) := r.desc r.dmaTxDescToSet

def Free (r : RingState n) : Prop := test r.target.status ethDmaTxDescOwn = false

instance (r : RingState n) : Decidable r.Free := inferInstanceAs (Decidable (_ = _))

/-- The DMA completes the frame of its current descriptor. -/
def complete (r : RingState n) (bits : BitVec 32) : RingState n :=
  let d := r.desc r.cur
  if test d.status ethDmaTxDescOwn then
    { r with
      desc := Function.update r.desc r.cur
        { d with status := (d.status ||| bits) &&& ~~~ethDmaTxDescOwn }
      cur := d.buffer2NextDescAddr }
  else r

def fill (r : RingState n) (data : List UInt8) : RingState n :=
  { r with mem := write r.mem r.target.buffer1Addr data }

def setTarget (r : RingState n) (d : Desc (n + 1)) : RingState n :=
  { r with desc := Function.update r.desc r.dmaTxDescToSet d }

def moveTo (r : RingState n) (i : Fin (n + 1)) : RingState n := { r with dmaTxDescToSet := i }

/-- The frame is sent in one go. -/
def commit (r : RingState n) (p : Pbuf) : RingState n :=
  ((r.fill p.bytes).setTarget
    { r.target with
      controlBufferSize := BitVec.ofNat 32 p.totLen
      status := r.target.status |||
        (ethDmaTxDescOwn ||| ethDmaTxDescLs ||| ethDmaTxDescFs) }).moveTo
    r.target.buffer2NextDescAddr

section Complete

variable {r : RingState n} (bits : BitVec 32)

theorem cur_ne (h : r.Free) (ho : test (r.desc r.cur).status ethDmaTxDescOwn = true) :
    r.dmaTxDescToSet ≠ r.cur := fun he => by
  rw [← he] at ho
  exact Bool.false_ne_true (h.symm.trans ho)

theorem complete_dmaTxDescToSet : (r.complete bits).dmaTxDescToSet = r.dmaTxDescToSet := by
  simp only [complete]
  split <;> rfl

theorem complete_mem : (r.complete bits).mem = r.mem := by
  simp only [complete]
  split <;> rfl

theorem complete_next (i : Fin (n + 1)) :
    ((r.complete bits).desc i).buffer2NextDescAddr = (r.desc i).buffer2NextDescAddr := by
  simp only [complete]
  split
  · by_cases hi : i = r.cur
    · subst i
      simp
    · simp [hi]
  · rfl

/-- A completion leaves a free descriptor alone. -/
theorem complete_target (h : r.Free) : (r.complete bits).target = r.target := by
  rw [target, complete_dmaTxDescToSet, complete]
  cases ho : test (r.desc r.cur).status ethDmaTxDescOwn with
  | true => simp only [if_true, Function.update_of_ne (cur_ne h ho), target]
  | false => simp only [Bool.false_eq_true, if_false, target]

theorem Free.complete (h : r.Free) : (r.complete bits).Free := by
  rw [Free, complete_target bits h]
  exact h

theorem fill_complete (h : r.Free) (data : List UInt8) :
    (r.fill data).complete bits = (r.complete bits).fill data := by
  simp only [fill, complete_target bits h, complete_mem]
  simp only [complete]
  split <;> rfl

theorem setTarget_complete (h : r.Free) {d : Desc (n + 1)}
    (hd : test d.status ethDmaTxDescOwn = false) :
    (r.setTarget d).complete bits = (r.complete bits).setTarget d := by
  cases ho : test (r.desc r.cur).status ethDmaTxDescOwn with
  | true =>
    have hne := cur_ne h ho
    simp only [complete, setTarget, Function.update_of_ne hne.symm, ho, if_true]
    rw [Function.update_comm hne]
  | false =>
    have hfree : test (Function.update r.desc r.dmaTxDescToSet d r.cur).status
        ethDmaTxDescOwn = false := by
      by_cases hc : r.cur = r.dmaTxDescToSet
      · rw [hc, Function.update_self]
        exact hd
      · rw [Function.update_of_ne hc]
        exact ho
    simp only [complete, setTarget, ho, hfree, Bool.false_eq_true, if_false]

theorem moveTo_complete (i : Fin (n + 1)) :
    (r.moveTo i).complete bits = (r.complete bits).moveTo i := by
  cases ho : test (r.desc r.cur).status ethDmaTxDescOwn <;>
    simp only [complete, moveTo, ho] <;> rfl

end Complete

theorem run_complete_toSet (r : RingState n) (cs : List (BitVec 32)) :
    (run complete r cs).dmaTxDescToSet = r.dmaTxDescToSet :=
  run_invariant (P := fun u : RingState n => u.dmaTxDescToSet = r.dmaTxDescToSet)
    (fun _ bits h => (complete_dmaTxDescToSet bits).trans h) rfl cs

theorem run_complete_next (r : RingState n) (cs : List (BitVec 32)) (i : Fin (n + 1)) :
    ((run complete r cs).desc i).buffer2NextDescAddr = (r.desc i).buffer2NextDescAddr :=
  run_invariant
    (P := fun u : RingState n => (u.desc i).buffer2NextDescAddr = (r.desc i).buffer2NextDescAddr)
    (fun _ bits h => (complete_next bits i).trans h) rfl cs

end RingState

theorem ring_complete (s : State n) (bits : BitVec 32) :
    ring (complete s bits) = (ring s).complete bits := by
  cases ho : test (s.desc s.cur).status ethDmaTxDescOwn <;>
    simp only [complete, RingState.complete, ring, ho] <;> rfl

theorem complete_pc (s : State n) (bits : BitVec 32) : (complete s bits).pc = s.pc := by
  simp only [complete]
  split <;> rfl

theorem ring_setDesc (s : State n) (f : Desc (n + 1) → Desc (n + 1)) (pc : Pc) :
    ring ((s.setDesc f).goto pc) = (ring s).setTarget (f (ring s).target) := rfl

/-- A turn of the sender or of the DMA. -/
inductive Turn
  | cpu (taken : Bool)
  | complete (bits : BitVec 32)

/-- One call of `low_level_output` beside the DMA. -/
def turn (s : State n) : Turn → State n
  | .cpu taken => cpuStep s taken
  | .complete bits => complete s bits

def Turn.completion : Turn → Option (BitVec 32)
  | .cpu _ => none
  | .complete bits => some bits

def isCpu : Turn → Bool
  | .cpu _ => true
  | .complete _ => false

/-- The completions among the turns, in order. -/
def completions (turns : List Turn) : List (BitVec 32) := turns.filterMap Turn.completion

/-- The descriptor on its way to the DMA: sized, then marked as a whole frame. -/
def sized (p : Pbuf) (d : Desc (n + 1)) : Desc (n + 1) :=
  { d with controlBufferSize := BitVec.ofNat 32 p.totLen &&& ethDmaTxDescTbs1 }

def marked (p : Pbuf) (d : Desc (n + 1)) : Desc (n + 1) :=
  { sized p d with status := d.status ||| (ethDmaTxDescLs ||| ethDmaTxDescFs) }

/-- How far a call with the chain `p` has come, `u` being the ring with nothing but the
completions so far. -/
def Preparing (u : RingState n) (p : Pbuf) (t : State n) : Prop :=
  match t.pc with
  | .checkLen q => q = p ∧ ring t = u
  | .getTxBuf q | .wait q | .retry q => q = p ∧ p.totLen ≤ ethMaxPacketSize ∧ ring t = u
  | .copy q dst rest off =>
    q = p ∧ p.totLen ≤ ethMaxPacketSize ∧ u.Free ∧ dst = u.target.buffer1Addr ∧
      ∃ done, p.segs = done ++ rest ∧ off.toNat = done.flatten.length ∧
        ring t = u.fill done.flatten
  | .setSize q => q = p ∧ p.totLen ≤ ethMaxPacketSize ∧ u.Free ∧ ring t = u.fill p.bytes
  | .setSegment q =>
    q = p ∧ p.totLen ≤ ethMaxPacketSize ∧ u.Free ∧
      ring t = (u.fill p.bytes).setTarget (sized p u.target)
  | .setOwn q =>
    q = p ∧ p.totLen ≤ ethMaxPacketSize ∧ u.Free ∧
      ring t = (u.fill p.bytes).setTarget (marked p u.target)
  | .ret q .errMem => q = p ∧ ethMaxPacketSize < p.totLen ∧ ring t = u
  | .ret q (.errIf _) => q = p ∧ p.totLen ≤ ethMaxPacketSize ∧ ring t = u
  | .idle | .clearTbus _ | .demand _ | .advance _ | .ret _ .ok => False

/-- The frame has been sent from the ring `u`, and the DMA goes on. -/
def Sent (u : RingState n) (p : Pbuf) (after : List (BitVec 32)) (t : State n) : Prop :=
  u.Free ∧ p.totLen ≤ ethMaxPacketSize ∧
  match t.pc with
  | .clearTbus q | .demand q | .advance q =>
    q = p ∧ ring t = (run RingState.complete (u.commit p) after).moveTo u.dmaTxDescToSet
  | .ret q .ok => q = p ∧ ring t = run RingState.complete (u.commit p) after
  | _ => False

/-- The call takes effect at one point between the completions. -/
def Progress (r : RingState n) (p : Pbuf) (cs : List (BitVec 32)) (t : State n) : Prop :=
  Preparing (run RingState.complete r cs) p t ∨
    ∃ before after, cs = before ++ after ∧ Sent (run RingState.complete r before) p after t

theorem marked_free (p : Pbuf) {d : Desc (n + 1)} (h : test d.status ethDmaTxDescOwn = false) :
    test (marked p d).status ethDmaTxDescOwn = false := by
  have hbits : test (ethDmaTxDescLs ||| ethDmaTxDescFs) ethDmaTxDescOwn = false := by decide
  rw [marked, test_or, h, hbits]
  rfl

theorem Preparing.complete {u : RingState n} {p : Pbuf} {t : State n} (h : Preparing u p t)
    (bits : BitVec 32) : Preparing (u.complete bits) p (complete t bits) := by
  have hring := ring_complete t bits
  have hpc := complete_pc t bits
  unfold Preparing at h ⊢
  rw [hpc, hring]
  -- as long as the target is free the DMA is at another descriptor, so the two commute
  cases hp : t.pc with
  | checkLen q =>
    simp only [hp] at h
    exact ⟨h.1, by rw [h.2]⟩
  | getTxBuf q | wait q | retry q =>
    simp only [hp] at h
    exact ⟨h.1, h.2.1, by rw [h.2.2]⟩
  | copy q dst rest off =>
    simp only [hp] at h
    obtain ⟨hq, hlen, hfree, hdst, done, hsegs, hoff, he⟩ := h
    refine ⟨hq, hlen, hfree.complete bits, ?_, done, hsegs, hoff, ?_⟩
    · rw [RingState.complete_target bits hfree]
      exact hdst
    · rw [he, RingState.fill_complete bits hfree]
  | setSize q =>
    simp only [hp] at h
    obtain ⟨hq, hlen, hfree, he⟩ := h
    exact ⟨hq, hlen, hfree.complete bits, by rw [he, RingState.fill_complete bits hfree]⟩
  | setSegment q =>
    simp only [hp] at h
    obtain ⟨hq, hlen, hfree, he⟩ := h
    have hsized : test (sized p u.target).status ethDmaTxDescOwn = false := hfree
    refine ⟨hq, hlen, hfree.complete bits, ?_⟩
    rw [he, RingState.setTarget_complete (r := u.fill p.bytes) bits hfree hsized,
      RingState.fill_complete bits hfree, RingState.complete_target bits hfree]
  | setOwn q =>
    simp only [hp] at h
    obtain ⟨hq, hlen, hfree, he⟩ := h
    have hmarked := marked_free p hfree
    refine ⟨hq, hlen, hfree.complete bits, ?_⟩
    rw [he, RingState.setTarget_complete (r := u.fill p.bytes) bits hfree hmarked,
      RingState.fill_complete bits hfree, RingState.complete_target bits hfree]
  | ret q res =>
    cases res with
    | ok =>
      simp only [hp] at h
    | errMem | errIf =>
      simp only [hp] at h
      exact ⟨h.1, h.2.1, by rw [h.2.2]⟩
  | idle | clearTbus | demand | advance => simp only [hp] at h

theorem Sent.complete {u : RingState n} {p : Pbuf} {after : List (BitVec 32)} {t : State n}
    (h : Sent u p after t) (bits : BitVec 32) : Sent u p (after ++ [bits]) (complete t bits) := by
  obtain ⟨hfree, hlen, h⟩ := h
  refine ⟨hfree, hlen, ?_⟩
  have hring := ring_complete t bits
  have hpc := complete_pc t bits
  rw [hpc, hring, run_concat]
  cases hp : t.pc with
  | clearTbus q | demand q | advance q =>
    simp only [hp] at h
    refine ⟨h.1, ?_⟩
    rw [h.2, RingState.moveTo_complete]
  | ret q res =>
    cases res with
    | ok =>
      simp only [hp] at h
      exact ⟨h.1, by rw [h.2]⟩
    | errMem | errIf => simp only [hp] at h
  | idle | checkLen | getTxBuf | wait | retry | copy | setSize | setSegment | setOwn =>
    simp only [hp] at h

theorem Progress.complete {r : RingState n} {p : Pbuf} {cs : List (BitVec 32)} {t : State n}
    (h : Progress r p cs t) (bits : BitVec 32) :
    Progress r p (cs ++ [bits]) (complete t bits) := by
  obtain hprep | ⟨before, after, rfl, hsent⟩ := h
  · left
    rw [run_concat]
    exact hprep.complete bits
  · right
    exact ⟨before, after ++ [bits], List.append_assoc _ _ _, hsent.complete bits⟩

/-- `ETH_GetTxBuf` finds a free descriptor, and the copy loop starts, or there is none. -/
theorem preparing_getTxBuf {u : RingState n} {p : Pbuf} {t : State n}
    (hlen : p.totLen ≤ ethMaxPacketSize) (he : ring t = u) {pc : Pc}
    (hfull : Preparing u p (t.goto pc)) :
    Preparing u p (match ethGetTxBuf t with
      | some dst => t.goto (.copy p dst p.segs 0)
      | none => t.goto pc) := by
  subst he
  cases ho : test (t.desc t.dmaTxDescToSet).status ethDmaTxDescOwn with
  | true =>
    simp only [ethGetTxBuf, ho, if_true]
    exact hfull
  | false =>
    simp only [ethGetTxBuf, ho, Bool.false_eq_true, if_false]
    refine ⟨rfl, hlen, ho, rfl, [], rfl, rfl, ?_⟩
    simp only [RingState.fill, List.flatten_nil, write_nil]
    rfl

/-- One segment is copied right behind the others. -/
theorem preparing_copy {u : RingState n} {p : Pbuf} {t : State n} {q : List UInt8}
    {rest : List (List UInt8)} {dst : ℕ} {off : BitVec 16}
    (h : Preparing u p t) (hpc : t.pc = .copy p dst (q :: rest) off) :
    Preparing u p { t with
      mem := write t.mem (dst + off.toNat) q
      pc := .copy p dst rest (off + BitVec.ofNat 16 q.length) } := by
  simp only [Preparing, hpc] at h
  obtain ⟨-, hlen, hfree, hdst, done, hsegs, hoff, he⟩ := h
  obtain ⟨-, hoff'⟩ := off_toNat hlen hsegs hoff
  refine ⟨rfl, hlen, hfree, hdst, done ++ [q], by simp [hsegs], hoff', ?_⟩
  have hmem : t.mem = write u.mem u.target.buffer1Addr done.flatten := congrArg RingState.mem he
  have hwrite : write t.mem (dst + off.toNat) q =
      write u.mem u.target.buffer1Addr (done ++ [q]).flatten := by
    rw [hmem, hdst, hoff, write_write_append]
    simp
  calc ring { t with
        mem := write t.mem (dst + off.toNat) q
        pc := .copy p dst rest (off + BitVec.ofNat 16 q.length) } =
      { ring t with mem := write t.mem (dst + off.toNat) q } := rfl
    _ = u.fill (done ++ [q]).flatten := by
      rw [he, hwrite]
      rfl

theorem setTarget_setTarget (r : RingState n) (d e : Desc (n + 1)) :
    (r.setTarget d).setTarget e = r.setTarget e := by
  simp only [RingState.setTarget, Function.update_idem]

theorem target_setTarget (r : RingState n) (d : Desc (n + 1)) : (r.setTarget d).target = d :=
  Function.update_self _ _ _

/-- The write of `OWN` completes the frame. -/
theorem setOwn_commit {u : RingState n} {p : Pbuf} {t : State n}
    (hlen : p.totLen ≤ ethMaxPacketSize)
    (he : ring t = (u.fill p.bytes).setTarget (marked p u.target)) (pc : Pc) :
    ring ((t.setDesc fun d => { d with status := d.status ||| ethDmaTxDescOwn }).goto pc) =
      (u.commit p).moveTo u.dmaTxDescToSet := by
  have hstatus : (marked p u.target).status ||| ethDmaTxDescOwn =
      u.target.status ||| (ethDmaTxDescOwn ||| ethDmaTxDescLs ||| ethDmaTxDescFs) := by
    have hbits : ethDmaTxDescLs ||| ethDmaTxDescFs ||| ethDmaTxDescOwn =
        ethDmaTxDescOwn ||| ethDmaTxDescLs ||| ethDmaTxDescFs := by decide
    rw [marked, BitVec.or_assoc, hbits]
  rw [ring_setDesc, he, target_setTarget, setTarget_setTarget, hstatus]
  simp only [RingState.commit, marked, sized, size_eq hlen]
  rfl

theorem Preparing.cpu {u : RingState n} {p : Pbuf} {t : State n} (h : Preparing u p t)
    (taken : Bool) : Preparing u p (cpuStep t taken) ∨ Sent u p [] (cpuStep t taken) := by
  have h0 := h
  cases hpc : t.pc with
  | checkLen q =>
    simp only [Preparing, hpc] at h
    obtain ⟨rfl, he⟩ := h
    simp only [cpuStep, hpc]
    left
    split
    · rename_i hgt
      exact ⟨rfl, hgt, he⟩
    · rename_i hle
      exact ⟨rfl, Nat.le_of_not_lt hle, he⟩
  | getTxBuf q =>
    simp only [Preparing, hpc] at h
    obtain ⟨rfl, hlen, he⟩ := h
    simp only [cpuStep, hpc]
    exact .inl (preparing_getTxBuf hlen he ⟨rfl, hlen, he⟩)
  | wait q =>
    simp only [Preparing, hpc] at h
    simp only [cpuStep, hpc]
    left
    cases taken <;> exact h
  | retry q =>
    simp only [Preparing, hpc] at h
    obtain ⟨rfl, hlen, he⟩ := h
    simp only [cpuStep, hpc]
    exact .inl (preparing_getTxBuf hlen he ⟨rfl, hlen, he⟩)
  | copy q dst rest off =>
    simp only [Preparing, hpc] at h
    obtain ⟨rfl, hlen, hfree, -, done, hsegs, -, he⟩ := h
    left
    cases rest with
    | cons s rest =>
      simp only [cpuStep, hpc]
      exact preparing_copy h0 hpc
    | nil =>
      simp only [cpuStep, hpc]
      rw [List.append_nil] at hsegs
      rw [← hsegs] at he
      exact ⟨rfl, hlen, hfree, he⟩
  | setSize q =>
    simp only [Preparing, hpc] at h
    obtain ⟨rfl, hlen, hfree, he⟩ := h
    simp only [cpuStep, hpc]
    left
    refine ⟨rfl, hlen, hfree, ?_⟩
    rw [ring_setDesc, he]
    rfl
  | setSegment q =>
    simp only [Preparing, hpc] at h
    obtain ⟨rfl, hlen, hfree, he⟩ := h
    simp only [cpuStep, hpc]
    left
    refine ⟨rfl, hlen, hfree, ?_⟩
    rw [ring_setDesc, he, target_setTarget, setTarget_setTarget]
    rfl
  | setOwn q =>
    simp only [Preparing, hpc] at h
    obtain ⟨rfl, hlen, hfree, he⟩ := h
    simp only [cpuStep, hpc]
    right
    exact ⟨hfree, hlen, rfl, setOwn_commit hlen he _⟩
  | ret q res =>
    simp only [cpuStep, hpc]
    exact .inl h0
  | idle | clearTbus | demand | advance => simp only [Preparing, hpc] at h

theorem commit_desc (u : RingState n) (p : Pbuf) :
    (u.commit p).desc u.dmaTxDescToSet =
      { u.target with
        controlBufferSize := BitVec.ofNat 32 p.totLen
        status := u.target.status ||| (ethDmaTxDescOwn ||| ethDmaTxDescLs ||| ethDmaTxDescFs) } :=
  Function.update_self _ _ _

/-- The links are no concern of the DMA, so the pointer moves as it would have at once. -/
theorem advance_commit {u : RingState n} {p : Pbuf} {after : List (BitVec 32)} {t : State n}
    (he : ring t = (run RingState.complete (u.commit p) after).moveTo u.dmaTxDescToSet) :
    (ring t).moveTo (t.desc t.dmaTxDescToSet).buffer2NextDescAddr =
      run RingState.complete (u.commit p) after := by
  have hnext : (ring t).target.buffer2NextDescAddr = u.target.buffer2NextDescAddr := by
    rw [he]
    change ((run RingState.complete (u.commit p) after).desc
      u.dmaTxDescToSet).buffer2NextDescAddr = _
    rw [RingState.run_complete_next, commit_desc]
  have hset := RingState.run_complete_toSet (u.commit p) after
  calc (ring t).moveTo (t.desc t.dmaTxDescToSet).buffer2NextDescAddr =
      (ring t).moveTo u.target.buffer2NextDescAddr := congrArg (ring t).moveTo hnext
    _ = (run RingState.complete (u.commit p) after).moveTo (u.commit p).dmaTxDescToSet := by
      rw [he]
      rfl
    _ = run RingState.complete (u.commit p) after := by
      rw [← hset]
      rfl

theorem Sent.cpu {u : RingState n} {p : Pbuf} {after : List (BitVec 32)} {t : State n}
    (h : Sent u p after t) (taken : Bool) : Sent u p after (cpuStep t taken) := by
  have h0 := h
  obtain ⟨hfree, hlen, h⟩ := h
  cases hpc : t.pc with
  | clearTbus q | demand q =>
    simp only [hpc] at h
    simp only [cpuStep, hpc]
    exact ⟨hfree, hlen, h⟩
  | advance q =>
    simp only [hpc] at h
    obtain ⟨rfl, he⟩ := h
    simp only [cpuStep, hpc]
    exact ⟨hfree, hlen, rfl, advance_commit he⟩
  | ret q res =>
    simp only [cpuStep, hpc]
    exact h0
  | idle | checkLen | getTxBuf | wait | retry | copy | setSize | setSegment | setOwn =>
    simp only [hpc] at h

theorem Progress.turn {r : RingState n} {p : Pbuf} {cs : List (BitVec 32)} {t : State n}
    (h : Progress r p cs t) (a : Turn) :
    Progress r p (cs ++ a.completion.toList) (turn t a) := by
  cases a with
  | complete bits => exact h.complete bits
  | cpu taken =>
    rw [Turn.completion, Option.toList_none, List.append_nil]
    obtain hprep | ⟨before, after, rfl, hsent⟩ := h
    · obtain hprep | hsent := hprep.cpu taken
      · exact .inl hprep
      · exact .inr ⟨cs, [], (List.append_nil cs).symm, hsent⟩
    · exact .inr ⟨before, after, rfl, hsent.cpu taken⟩

theorem Progress.turns {r : RingState n} {p : Pbuf} {cs : List (BitVec 32)} {t : State n}
    (h : Progress r p cs t) (turns : List Turn) :
    Progress r p (cs ++ completions turns) (run TxOutput.turn t turns) := by
  induction turns generalizing cs t with
  | nil =>
    rw [completions, List.filterMap_nil, List.append_nil]
    exact h
  | cons a turns ih =>
    have hcs : cs ++ completions (a :: turns) =
        cs ++ a.completion.toList ++ completions turns := by
      cases a <;> simp [completions, Turn.completion, List.filterMap_cons]
    rw [run_cons, hcs]
    exact ih (h.turn a)

/-- The turns of the sender that are left. -/
def turnsLeft : Pc → ℕ
  | .idle | .ret _ _ => 0
  | .checkLen p => p.segs.length + 11
  | .getTxBuf p => p.segs.length + 10
  | .wait p => p.segs.length + 9
  | .retry p => p.segs.length + 8
  | .copy _ _ rest _ => rest.length + 7
  | .setSize _ => 6
  | .setSegment _ => 5
  | .setOwn _ => 4
  | .clearTbus _ => 3
  | .demand _ => 2
  | .advance _ => 1

theorem cpuStep_turnsLeft (t : State n) (taken : Bool) :
    turnsLeft (cpuStep t taken).pc ≤ turnsLeft t.pc - 1 := by
  cases hpc : t.pc with
  | checkLen p =>
    simp only [cpuStep, hpc]
    split <;> simp [State.goto, turnsLeft]
  | getTxBuf p | retry p =>
    simp only [cpuStep, hpc]
    split <;> simp [State.goto, turnsLeft]
  | wait p =>
    simp only [cpuStep, hpc]
    cases taken <;> simp [State.goto, turnsLeft]
  | copy p dst rest off => cases rest <;> simp [cpuStep, hpc, State.goto, turnsLeft]
  | idle | ret | setSize | setSegment | setOwn | clearTbus | demand | advance =>
    simp [cpuStep, hpc, State.goto, State.setDesc, turnsLeft]

theorem run_turnsLeft (t : State n) (turns : List Turn) :
    turnsLeft (run turn t turns).pc ≤ turnsLeft t.pc - turns.countP isCpu := by
  induction turns generalizing t with
  | nil => exact Nat.le_refl _
  | cons a turns ih =>
    have hrest := ih (turn t a)
    rw [run_cons, List.countP_cons]
    cases a with
    | cpu taken =>
      have hone := cpuStep_turnsLeft t taken
      simp only [turn, isCpu, if_true] at hrest ⊢
      omega
    | complete bits =>
      simp only [turn, isCpu, complete_pc, Bool.false_eq_true, if_false] at hrest ⊢
      exact hrest

/-- From the ring `u` the chain `p` is sent and nothing else happens: `v` is the ring after
it. -/
structure Transmits (u : RingState n) (p : Pbuf) (v : RingState n) : Prop where
  free : u.Free
  bytes : read v.mem u.target.buffer1Addr p.totLen = p.bytes
  outside : ∀ a, a < u.target.buffer1Addr ∨ u.target.buffer1Addr + ethMaxPacketSize ≤ a →
    v.mem a = u.mem a
  desc : v.desc u.dmaTxDescToSet =
    { u.target with
      controlBufferSize := BitVec.ofNat 32 p.totLen
      status := u.target.status ||| (ethDmaTxDescOwn ||| ethDmaTxDescLs ||| ethDmaTxDescFs) }
  others : ∀ i, i ≠ u.dmaTxDescToSet → v.desc i = u.desc i
  moved : v.dmaTxDescToSet = u.target.buffer2NextDescAddr
  cur : v.cur = u.cur

theorem commit_transmits {u : RingState n} {p : Pbuf} (hfree : u.Free)
    (hlen : p.totLen ≤ ethMaxPacketSize) : Transmits u p (u.commit p) where
  free := hfree
  bytes := by
    have h := read_write u.mem u.target.buffer1Addr p.bytes
    rwa [p.bytes_length] at h
  outside a ha := by
    apply write_apart u.mem p.bytes
    rw [p.bytes_length]
    omega
  desc := commit_desc u p
  others i hi := Function.update_of_ne hi _ _
  moved := rfl
  cur := rfl

/-- What a call has done when it returns. -/
theorem Progress.returned {r : RingState n} {p q : Pbuf} {cs : List (BitVec 32)} {t : State n}
    {res : Result} (h : Progress r p cs t) (hpc : t.pc = .ret q res) :
    q = p ∧ (res = .errMem ↔ ethMaxPacketSize < p.totLen) ∧
      (res ≠ .ok → ring t = run RingState.complete r cs) ∧
      (res = .ok → ∃ before after, cs = before ++ after ∧ (run RingState.complete r before).Free ∧
        ring t = run RingState.complete ((run RingState.complete r before).commit p) after) := by
  obtain h | ⟨before, after, hcs, hfree, hlen, h⟩ := h
  · cases res with
    | ok => simp only [Preparing, hpc] at h
    | errMem =>
      simp only [Preparing, hpc] at h
      exact ⟨h.1, iff_of_true rfl h.2.1, fun _ => h.2.2, fun he => by cases he⟩
    | errIf b =>
      simp only [Preparing, hpc] at h
      refine ⟨h.1, iff_of_false (fun he => by cases he) (Nat.not_lt_of_ge h.2.1), fun _ => h.2.2,
        fun he => by cases he⟩
  · cases res with
    | ok =>
      simp only [hpc] at h
      refine ⟨h.1, iff_of_false (fun he => by cases he) (Nat.not_lt_of_ge hlen),
        fun hne => absurd rfl hne, fun _ => ?_⟩
      exact ⟨before, after, hcs, hfree, h.2⟩
    | errMem | errIf => simp only [hpc] at h

theorem Progress.ne_idle {r : RingState n} {p : Pbuf} {cs : List (BitVec 32)} {t : State n}
    (h : Progress r p cs t) : t.pc ≠ .idle := by
  intro hpc
  obtain h | ⟨before, after, -, -, -, h⟩ := h
  · simp only [Preparing, hpc] at h
  · simp only [hpc] at h

theorem progress_call (s : State n) (p : Pbuf) (turns : List Turn) :
    Progress (ring s) p (completions turns) (run turn (call (s.goto .idle) p) turns) := by
  have h0 : Progress (ring s) p [] (call (s.goto .idle) p) := .inl ⟨rfl, rfl⟩
  exact h0.turns turns

/-- Every turn of the sender brings the call closer to its return. -/
theorem call_returns (s : State n) (p : Pbuf) {turns : List Turn}
    (h : p.segs.length + 11 ≤ turns.countP isCpu) :
    ∃ res, (run turn (call (s.goto .idle) p) turns).pc = .ret p res := by
  have hprog := progress_call s p turns
  have hleft : turnsLeft (run turn (call (s.goto .idle) p) turns).pc ≤
      p.segs.length + 11 - turns.countP isCpu := run_turnsLeft (call (s.goto .idle) p) turns
  cases hpc : (run turn (call (s.goto .idle) p) turns).pc with
  | ret q res =>
    obtain ⟨rfl, -⟩ := hprog.returned hpc
    exact ⟨res, rfl⟩
  | idle => exact absurd hpc hprog.ne_idle
  | checkLen | getTxBuf | wait | retry | copy | setSize | setSegment | setOwn | clearTbus | demand
  | advance =>
    rw [hpc, turnsLeft] at hleft
    omega

/-- Beside any completions of the DMA a call of `low_level_output` returns, and it sends
exactly the chain or changes nothing. -/
theorem low_level_output_all_or_nothing (s : State n) (p : Pbuf) (turns : List Turn) :
    let t := run turn (call (s.goto .idle) p) turns
    (p.segs.length + 11 ≤ turns.countP isCpu → ∃ res, t.pc = .ret p res) ∧
    ∀ q res, t.pc = .ret q res →
      q = p ∧ (res = .errMem ↔ ethMaxPacketSize < p.totLen) ∧
      (res ≠ .ok → ring t = run RingState.complete (ring s) (completions turns)) ∧
      (res = .ok → ∃ before after v, completions turns = before ++ after ∧
        Transmits (run RingState.complete (ring s) before) p v ∧
        ring t = run RingState.complete v after) := by
  intro t
  refine ⟨call_returns s p, fun q res hpc => ?_⟩
  obtain ⟨hq, hmem, herr, hok⟩ := (progress_call s p turns).returned hpc
  refine ⟨hq, hmem, herr, fun he => ?_⟩
  obtain ⟨before, after, hcs, hfree, hring⟩ := hok he
  have hlen : p.totLen ≤ ethMaxPacketSize := Nat.le_of_not_lt fun hgt => by
    rw [hmem.mpr hgt] at he
    cases he
  exact ⟨before, after, _, hcs, commit_transmits hfree hlen, hring⟩

end EthDriver.TxOutput

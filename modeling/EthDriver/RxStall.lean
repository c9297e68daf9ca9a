import EthDriver.Wakeup
import Mathlib.Logic.Relation

namespace EthDriver.RxStall

open Bits Bytes Cyclic Descriptors Pbufs Runs RxRing RxInvariant

variable {n nr nt : ℕ}

/-- The DMA is suspended on a descriptor that has been handed back to it. -/
def Stuck (s : RxRing.State n) : Prop :=
  s.suspended = true ∧ test (s.desc s.cur).status ethDmaRxDescOwn = true

instance (s : RxRing.State n) : Decidable (Stuck s) := inferInstanceAs (Decidable (_ ∧ _))

/-- A descriptor of the processor holds a frame that `ETH_RecPeek` will return. -/
def Pending (s : RxRing.State n) : Prop :=
  ∃ i, CpuOwned s i ∧ good (s.desc i).status = true

instance (s : RxRing.State n) : Decidable (Pending s) := inferInstanceAs (Decidable (∃ _, _ ∧ _))

def resuming : Pc → Bool
  | .freeNext _ | .resume _ => true
  | _ => false

def busy : Pc → Bool
  | .idle | .retNull | .ret _ => false
  | _ => true

/-- A stuck DMA is going to be polled: by the `ETH_RecFree` in progress, or by
that of a good frame the task has not come to yet. -/
def Resumable (s : RxRing.State n) : Prop :=
  Stuck s → resuming s.pc = true ∨ busy s.pc = true ∧ Pending s

theorem pollDemand_not_stuck (s : RxRing.State n) : ¬ Stuck s.pollDemand := by
  simp only [State.pollDemand]
  split
  · exact fun h => Bool.false_ne_true h.1
  · rename_i ho
    exact fun h => ho h.2

/-- While the DMA is stuck it does nothing, and nothing it does gets it stuck. -/
theorem dmaStep_of_stuck {s : RxRing.State n} {a : DmaAct} (h : Stuck (dmaStep s a)) :
    dmaStep s a = s := by
  have hready : ready s = true → s.suspended = false := fun hr => by
    simp only [ready, Bool.and_eq_true, Bool.not_eq_true'] at hr
    exact hr.1
  cases a with
  | fill off data =>
    simp only [dmaStep] at h ⊢
    split at h
    · rename_i hr
      exact absurd ((hready hr.1).symm.trans h.1) Bool.false_ne_true
    · rename_i hr
      rw [if_neg hr]
  | close status last =>
    simp only [dmaStep] at h ⊢
    split at h
    · rename_i hr
      exact absurd ((hready hr).symm.trans h.1) Bool.false_ne_true
    · rename_i hr
      rw [if_neg hr]
  | suspend =>
    simp only [dmaStep] at h ⊢
    split at h
    · rename_i ho
      rw [if_pos ho]
    · rename_i ho
      exact absurd h.2 ho

theorem Resumable.dma {s : RxRing.State n} (h : Resumable s) (as : List DmaAct) :
    Resumable (run dmaStep s as) := by
  apply run_invariant (P := Resumable) _ h
  intro s a h hs
  have he := dmaStep_of_stuck hs
  rw [he] at hs ⊢
  exact h hs

theorem Resumable.call {s : RxRing.State n} (h : Resumable s) : Resumable (call s) := by
  simp only [RxRing.call]
  split
  · rename_i hpc
    exact fun hs => by simpa [hpc, resuming, busy] using h hs
  · rename_i hpc
    exact fun hs => by simpa [hpc, resuming, busy] using h hs
  · rename_i hpc
    exact fun hs => by simpa [hpc, resuming, busy] using h hs
  · exact h

theorem Resumable.goto {s : RxRing.State n} (h : Resumable s) {pc₀ pc : Pc} (hpc : s.pc = pc₀)
    (hr₀ : resuming pc₀ = false) (hb : busy pc = true) : Resumable (s.goto pc) := fun hs => by
  obtain hr | ⟨-, hp⟩ := h hs
  · rw [hpc, hr₀] at hr
    cases hr
  · exact .inr ⟨hb, hp⟩

theorem not_cpuOwned {s : RxRing.State n} (h : Inv s) (ha : advancing s.pc = false)
    (ho : ¬ CpuOwned s s.pDmaRxSet) (i : Fin (n + 1)) : ¬ CpuOwned s i := by
  have hseg : Segment (CpuOwned s) s.pDmaRxSet s.cur := by
    rw [h.setAt ha, h.cur]
    exact h.filled.window.segment
  exact fun hi => ho (hseg.start hi)

theorem handBack_self (s : RxRing.State n) :
    (s.handBack.desc s.pDmaRxSet).status = ethDmaRxDescOwn := by
  simp [State.handBack]

theorem handBack_of_ne {s : RxRing.State n} {i : Fin (n + 1)} (h : i ≠ s.pDmaRxSet) :
    s.handBack.desc i = s.desc i :=
  Function.update_of_ne h ..

theorem Pending.handBack {s : RxRing.State n} (h : Pending s) (hbad : good s.status = false) :
    Pending s.handBack := by
  obtain ⟨i, ho, hg⟩ := h
  have hne : i ≠ s.pDmaRxSet := fun he => by
    rw [he] at hg
    exact Bool.false_ne_true (hbad.symm.trans hg)
  have hd := handBack_of_ne hne
  exact ⟨i, by rw [CpuOwned, hd]; exact ho, by rw [hd]; exact hg⟩

theorem stuck_handBack {s : RxRing.State n} (h : Stuck s.handBack) :
    Stuck s ∨ s.suspended = true ∧ s.cur = s.pDmaRxSet := by
  by_cases he : s.cur = s.pDmaRxSet
  · exact .inr ⟨h.1, he⟩
  · refine .inl ⟨h.1, ?_⟩
    rw [← handBack_of_ne he]
    exact h.2

/-- One access of `low_level_input`, where a discard that gets the DMA stuck has a
good frame behind it. -/
theorem Resumable.cpuStep {s : RxRing.State n} (h : Resumable s) (hinv : Inv s)
    (hc : s.pc = .discard → s.suspended = true → s.cur = s.pDmaRxSet → Pending s)
    (q : Option Pbuf) : Resumable (cpuStep s q) := by
  have ht := hinv.tested
  cases hpc : s.pc <;> simp only [Tested, hpc] at ht <;> simp only [RxRing.cpuStep, hpc]
  case idle | retNull | ret => exact h
  case own =>
    cases ho : test s.status ethDmaRxDescOwn
    · exact h.goto hpc rfl rfl
    · -- the processor owns nothing, so no good frame is left to wait for
      have hnone : ¬ CpuOwned s s.pDmaRxSet := fun hown => Bool.false_ne_true (hown.symm.trans ho)
      intro hs
      obtain hr | ⟨-, i, hi, -⟩ := h hs
      · rw [hpc] at hr
        cases hr
      · exact absurd hi (not_cpuOwned hinv (by rw [hpc]; rfl) hnone i)
  case es | fs | ls => split <;> exact h.goto hpc rfl rfl
  case len => exact h.goto hpc rfl rfl
  case addr len => exact h.goto hpc rfl (by rfl : busy (.alloc _ _) = true)
  case discard =>
    intro hs
    refine .inr ⟨rfl, Pending.handBack ?_ ht.2⟩
    obtain hs | ⟨hsus, hcur⟩ := stuck_handBack (s := s) hs
    · obtain hr | ⟨-, hp⟩ := h hs
      · rw [hpc] at hr
        cases hr
      · exact hp
    · exact hc hpc hsus hcur
  case discardNext => exact h.goto hpc rfl rfl
  case alloc src len => cases q <;> exact h.goto hpc rfl rfl
  case take src len p => exact h.goto hpc rfl rfl
  case free src p => exact fun _ => .inl rfl
  case freeNext p => exact fun _ => .inl rfl
  case resume p => exact fun hs => absurd hs (pollDemand_not_stuck s)

open Board

/-- `low_level_input` returns `NULL` for lack of a frame only with the DMA running,
or suspended on a descriptor that is still the processor's. -/
def NotStalled (s : Board.State nr nt) : Prop := s.rx.pc = .retNull → ¬ Stuck s.rx

/-- The next access is the discard of a bad frame out of a full ring on which the
DMA is suspended. -/
def DiscardsLast (s : Board.State nr nt) : Prop :=
  s.isr = none ∧ s.netif = .drain ∧ s.rx.pc = .discard ∧ s.rx.suspended = true ∧
    s.rx.cur = s.rx.pDmaRxSet

instance (s : Board.State nr nt) : Decidable (DiscardsLast s) :=
  inferInstanceAs (Decidable (_ ∧ _ ∧ _ ∧ _ ∧ _))

/-- Such a discard happens only with a good frame in the ring. -/
def GoodFrameBehind (s : Board.State nr nt) : Board.Act → Prop
  | .netif _ => DiscardsLast s → Pending s.rx
  | _ => True

instance (s : Board.State nr nt) : ∀ a, Decidable (GoodFrameBehind s a)
  | .netif _ => inferInstanceAs (Decidable (_ → _))
  | .rxDma _ | .txDma _ | .isr | .netifTimeout | .send _ | .sender | .senderTimeout =>
    inferInstanceAs (Decidable True)

structure Flowing (s : Board.State nr nt) : Prop where
  ring : RingInv s
  rx : Resumable s.rx

theorem init_flowing (tab : Table (nt + 1)) (rxMem txMem : Memory) :
    Flowing (Board.init nr tab rxMem txMem) :=
  ⟨init_ringInv tab rxMem txMem, fun hs => absurd hs.1 Bool.false_ne_true⟩

theorem Resumable.netifStep {s : Board.State nr nt} (h : Flowing s) (hi : s.isr = none)
    (q : Option Pbuf) (hc : DiscardsLast s → Pending s.rx) : Resumable (netifStep s q).rx := by
  simp only [Board.netifStep]
  split
  · split
    · exact h.rx.call
    · exact h.rx
  · rename_i hn
    split
    · exact h.rx
    · exact h.rx
    · exact h.rx.call
    · exact h.rx.cpuStep h.ring.rx (fun hpc hs hcur => hc ⟨hi, hn, hpc, hs, hcur⟩) q
  · exact h.rx

theorem Resumable.netifTimeout {s : Board.State nr nt} (h : Resumable s.rx) :
    Resumable (netifTimeout s).rx := by
  simp only [Board.netifTimeout]
  split
  · exact h.call
  · exact h

theorem Flowing.step {s : Board.State nr nt} (h : Flowing s) (a : Board.Act)
    (hc : GoodFrameBehind s a) : Flowing (Board.step s a) := by
  refine ⟨h.ring.step a, ?_⟩
  cases a with
  | rxDma as => exact h.rx.dma as
  | txDma bits => simp only [Board.step, Board.txDma]; split <;> exact h.rx
  | isr =>
    simp only [Board.step]
    obtain he | he := (isrStep_frame s).2.2
    · rw [he]
      exact h.rx
    · rw [he]
      exact fun hs => absurd hs (pollDemand_not_stuck s.rx)
  | netif q =>
    exact step_task (P := fun t => Resumable t.rx) h.rx fun hi => Resumable.netifStep h hi q hc
  | netifTimeout =>
    exact step_task (P := fun t => Resumable t.rx) h.rx fun _ => h.rx.netifTimeout
  | send p => exact step_task (P := fun t => Resumable t.rx) h.rx fun _ => h.rx
  | sender =>
    apply step_task (P := fun t => Resumable t.rx) h.rx
    intro _
    exact (senderStep_rx s).symm ▸ h.rx
  | senderTimeout =>
    apply step_task (P := fun t => Resumable t.rx) h.rx
    intro _
    exact (senderTimeout_rx s).symm ▸ h.rx

/-- The task alone takes its call from `s` to `t`, with no memory for a `pbuf`. -/
def Drains : RxRing.State n → RxRing.State n → Prop :=
  Relation.ReflTransGen fun s t => busy s.pc = true ∧ t = RxRing.cpuStep s none

theorem Drains.step {s t : RxRing.State n} (h : Drains (RxRing.cpuStep s none) t)
    (hb : busy s.pc = true) : Drains s t :=
  h.head ⟨hb, rfl⟩

theorem drains_discard {s : RxRing.State n} (hpc : s.pc = .own) (ho : CpuOwned s s.pDmaRxSet)
    (hbad : good s.status = false) : Drains s (s.handBack.advance.goto .own) := by
  have hown : test s.status ethDmaRxDescOwn = false := ho
  have hend : Drains (s.goto .discard) (s.handBack.advance.goto .own) :=
    .step (.step .refl rfl) rfl
  have hls : test s.status ethDmaRxDescEs = false → test s.status ethDmaRxDescFs = true →
      Drains (s.goto .ls) (s.handBack.advance.goto .own) := by
    intro he hf
    have hl : test s.status ethDmaRxDescLs = false := by simpa [good, he, hf] using hbad
    refine .step ?_ rfl
    change Drains (s.goto (if test s.status ethDmaRxDescLs then .len else .discard)) _
    rwa [hl]
  have hfs : test s.status ethDmaRxDescEs = false →
      Drains (s.goto .fs) (s.handBack.advance.goto .own) := by
    intro he
    refine .step ?_ rfl
    change Drains (s.goto (if test s.status ethDmaRxDescFs then .ls else .discard)) _
    cases hf : test s.status ethDmaRxDescFs with
    | false => exact hend
    | true => exact hls he hf
  have hes : Drains (s.goto .es) (s.handBack.advance.goto .own) := by
    refine .step ?_ rfl
    change Drains (s.goto (if test s.status ethDmaRxDescEs then .discard else .fs)) _
    cases he : test s.status ethDmaRxDescEs with
    | false => exact hfs he
    | true => exact hend
  refine .step ?_ (by rw [hpc]; rfl)
  simp only [RxRing.cpuStep, hpc, hown]
  exact hes

theorem Stuck.handBack {s : RxRing.State n} (h : Stuck s) : Stuck s.handBack := by
  refine ⟨h.1, ?_⟩
  by_cases he : s.cur = s.pDmaRxSet
  · change test (s.handBack.desc s.cur).status _ = true
    rw [he, handBack_self]
    decide
  · change test (s.handBack.desc s.cur).status _ = true
    rw [handBack_of_ne he]
    exact h.2

theorem pending_of_handBack {s : RxRing.State n} (h : Pending s.handBack) : Pending s := by
  obtain ⟨i, ho, hg⟩ := h
  have hne : i ≠ s.pDmaRxSet := fun he => by
    rw [he, CpuOwned, handBack_self] at ho
    exact absurd ho (by decide)
  rw [CpuOwned, handBack_of_ne hne] at ho
  rw [handBack_of_ne hne] at hg
  exact ⟨i, ho, hg⟩

/-- With nothing but bad frames in the ring a stuck DMA stays stuck until the task
finds the ring empty. The induction is on the pieces still to be looked at. -/
theorem drains_stuck {s : RxRing.State n} (h : Inv s) (hpc : s.pc = .own) (hs : Stuck s)
    (hbad : ¬ Pending s) : ∃ t, Drains s t ∧ t.pc = .retNull ∧ Stuck t := by
  induction hm : (arrived s).length - s.handedBack generalizing s with
  | zero =>
    have ho : test s.status ethDmaRxDescOwn = true := by
      by_contra hne
      rw [Bool.not_eq_true] at hne
      have hlt := h.lt_arrived (by rw [hpc]; rfl) hne
      omega
    refine ⟨s.goto .retNull, .step ?_ (by rw [hpc]; rfl), rfl, hs⟩
    simp only [RxRing.cpuStep, hpc, ho]
    exact .refl
  | succ m ih =>
    have ha : advancing s.pc = false := by rw [hpc]; rfl
    have ho : CpuOwned s s.pDmaRxSet := by
      rw [h.setAt ha]
      exact h.filled.window.inside _ (Nat.le_refl _) (by omega)
    have hg : good s.status = false := by
      by_contra hne
      exact hbad ⟨_, ho, by rwa [Bool.not_eq_false] at hne⟩
    have hround := drains_discard hpc ho hg
    have hinv : Inv (s.handBack.advance.goto .own) := by
      have hd : Inv (s.goto .discard) :=
        h.goto hpc rfl rfl ⟨ho, hg⟩
      exact (hd.cpuStep none).cpuStep none
    have hlen : (arrived (s.handBack.advance.goto .own)).length -
        (s.handBack.advance.goto .own).handedBack = m := by
      change (arrived s).length - (s.handedBack + 1) = m
      omega
    obtain ⟨t, hdr, hnull, hst⟩ := ih hinv rfl hs.handBack (fun hp => hbad (pending_of_handBack hp))
      hlen
    exact ⟨t, hround.trans hdr, hnull, hst⟩

theorem Drains.lift {s : Board.State nr nt} (hi : s.isr = none) (hn : s.netif = .drain)
    {t : RxRing.State nr} (h : Drains s.rx t) : ∃ as, run Board.step s as = { s with rx := t } := by
  induction h with
  | refl => exact ⟨[], rfl⟩
  | tail _ hstep ih =>
    obtain ⟨as, has⟩ := ih
    obtain ⟨hb, rfl⟩ := hstep
    refine ⟨as ++ [.netif none], ?_⟩
    rw [run_concat, has]
    simp only [Board.step, hi, Option.isNone_none, if_true, taskStep, Board.netifStep, hn]
    split
    · rename_i hpc; rw [hpc] at hb; cases hb
    · rename_i hpc; rw [hpc] at hb; cases hb
    · rename_i hpc; rw [hpc] at hb; cases hb
    · rfl

theorem bad_frames_stall {s : Board.State nr nt} (h : RingInv s) {a : Board.Act}
    (hc : ¬ GoodFrameBehind s a) : CanFail Board.step NotStalled (Board.step s a) := by
  cases a with
  | rxDma | txDma | isr | netifTimeout | send | sender | senderTimeout => exact absurd trivial hc
  | netif q =>
    simp only [GoodFrameBehind, Classical.not_imp] at hc
    obtain ⟨⟨hi, hn, hpc, hsus, hcur⟩, hbad⟩ := hc
    have hstep : Board.step s (.netif q) = { s with rx := s.rx.handBack.goto .discardNext } := by
      simp only [Board.step, hi, Option.isNone_none, if_true, taskStep, Board.netifStep, hn, hpc,
        RxRing.cpuStep]
    have hinv : Inv (s.rx.handBack.advance.goto .own) := by
      have hd := (h.rx.cpuStep none).cpuStep none
      simp only [RxRing.cpuStep, hpc, State.goto] at hd
      exact hd
    have hs : Stuck (s.rx.handBack.advance.goto .own) := by
      refine ⟨hsus, ?_⟩
      change test (s.rx.handBack.desc s.rx.cur).status _ = true
      rw [hcur, handBack_self]
      decide
    obtain ⟨t, hdr, hnull, hst⟩ := drains_stuck hinv rfl hs fun hp =>
      hbad (pending_of_handBack hp)
    have hdr' : Drains (Board.step s (.netif q)).rx t := by
      rw [hstep]
      exact .step hdr rfl
    obtain ⟨as, has⟩ := hdr'.lift (by rw [hstep]; exact hi) (by rw [hstep]; exact hn)
    refine ⟨as, fun hns => ?_⟩
    rw [has] at hns
    exact hns hnull hst

/-- In every run in which the driver discards a bad frame under a suspended DMA only
with a good frame behind it, no drain ends with the DMA stalled. After any run,
a discard of that kind with no good frame behind it has a continuation that ends
stalled. -/
theorem drain_leaves_rx_running (tab : Table (nt + 1)) (rxMem txMem : Memory)
    (acts : List Board.Act) :
    (Meets Board.step GoodFrameBehind (Board.init nr tab rxMem txMem) acts →
      Throughout Board.step NotStalled (Board.init nr tab rxMem txMem) acts) ∧
    ∀ a, ¬ GoodFrameBehind (run Board.step (Board.init nr tab rxMem txMem) acts) a →
      ∃ more, ¬ Throughout Board.step NotStalled (Board.init nr tab rxMem txMem)
        (acts ++ a :: more) := by
  refine ⟨fun hm => ?_, fun a ha => ?_⟩
  · have hall : Throughout Board.step Flowing (Board.init nr tab rxMem txMem) acts :=
      throughout_of_meets (fun _ a h hc => h.step a hc) (init_flowing tab rxMem txMem) hm
    apply hall.mono
    intro s h hnull hs
    have hr := h.rx hs
    rw [hnull] at hr
    simp [resuming, busy] at hr
  · have hinv : RingInv (run Board.step (Board.init nr tab rxMem txMem) acts) :=
      run_invariant (fun _ a h => h.step a) (init_ringInv tab rxMem txMem) acts
    exact (bad_frames_stall hinv ha).not_throughout

/-- Bad frames fill the ring, the DMA suspends, the handler polls in vain and the
task then discards them all. -/
def stallRun : List Board.Act :=
  List.replicate 4 (.rxDma [.close ethDmaRxDescEs true]) ++ .rxDma [.suspend] ::
    List.replicate 8 .isr ++ List.replicate 18 (.netif none)

theorem discards_stall_rx : ¬ Throughout Board.step NotStalled bootState stallRun := fun h =>
  h.last (by decide +kernel) (by decide +kernel)

def resumedRun : List Board.Act :=
  List.replicate 3 (.rxDma [.close ethDmaRxDescEs true]) ++ .rxDma [.close 0 true] ::
    .rxDma [.suspend] :: List.replicate 8 .isr ++ List.replicate 24 (.netif none)

theorem good_frame_resumes_rx :
    (run Board.step bootState resumedRun).rx.handedBack = 4 ∧
      Throughout Board.step NotStalled bootState resumedRun :=
  ⟨by decide +kernel, (drain_leaves_rx_running _ _ _ resumedRun).1 (by decide +kernel)⟩

end EthDriver.RxStall

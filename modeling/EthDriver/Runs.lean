import Mathlib.Data.List.Basic
import Mathlib.Data.Option.Basic

namespace EthDriver.Runs

variable {σ τ α β : Type} (step : σ → α → σ)

/-- A run applies its actions in order. An action that is not enabled leaves
the state alone, so that every list of actions is a run. -/
def run (s : σ) (as : List α) : σ := as.foldl step s

@[simp] theorem run_nil (s : σ) : run step s [] = s := rfl

@[simp] theorem run_cons (s : σ) (a : α) (as : List α) :
    run step s (a :: as) = run step (step s a) as := rfl

theorem run_append (s : σ) (as bs : List α) :
    run step s (as ++ bs) = run step (run step s as) bs := List.foldl_append

theorem run_concat (s : σ) (as : List α) (a : α) :
    run step s (as ++ [a]) = step (run step s as) a := run_append step s as [a]

variable {step}

theorem run_invariant {P : σ → Prop} (hstep : ∀ s a, P s → P (step s a))
    {s : σ} (hs : P s) (as : List α) : P (run step s as) := by
  induction as generalizing s with
  | nil => exact hs
  | cons a as ih => exact ih (hstep s a hs)

/-- The same where only the actions with `Q` keep `P`. -/
theorem run_invariant_of {P : σ → Prop} {Q : α → Prop} (hstep : ∀ s a, Q a → P s → P (step s a))
    {s : σ} (hs : P s) {as : List α} (has : ∀ a ∈ as, Q a) : P (run step s as) := by
  induction as generalizing s with
  | nil => exact hs
  | cons a as ih =>
    apply ih (hstep s a (has a List.mem_cons_self) hs)
    exact fun b hb => has b (List.mem_cons_of_mem a hb)

variable (step)

/-- Every step of the run meets `C`, a condition on the state before the step
and on the action. -/
def Meets (C : σ → α → Prop) : σ → List α → Prop
  | _, [] => True
  | s, a :: as => C s a ∧ Meets C (step s a) as

/-- `P` holds in every state the run passes through, the first and the last
included. -/
def Throughout (P : σ → Prop) : σ → List α → Prop
  | s, [] => P s
  | s, a :: as => P s ∧ Throughout P (step s a) as

/-- Some step of the run meets `C`. -/
def Somewhere (C : σ → α → Prop) : σ → List α → Prop
  | _, [] => False
  | s, a :: as => C s a ∨ Somewhere C (step s a) as

/-- How many steps of the run meet `p`. -/
def stepCount (p : σ → α → Bool) : σ → List α → ℕ
  | _, [] => 0
  | s, a :: as => (p s a).toNat + stepCount p (step s a) as

/-- What the steps of the run report, in order. -/
def outputs (f : σ → α → Option β) : σ → List α → List β
  | _, [] => []
  | s, a :: as => (f s a).toList ++ outputs f (step s a) as

/-- Some run from `s` ends without `P`. -/
def CanFail (P : σ → Prop) (s : σ) : Prop := ∃ as, ¬ P (run step s as)

instance decidableMeets (C : σ → α → Prop) [∀ s a, Decidable (C s a)] :
    ∀ s as, Decidable (Meets step C s as)
  | _, [] => inferInstanceAs (Decidable True)
  | s, a :: as =>
    have := decidableMeets C (step s a) as
    inferInstanceAs (Decidable (_ ∧ _))

instance decidableSomewhere (C : σ → α → Prop) [∀ s a, Decidable (C s a)] :
    ∀ s as, Decidable (Somewhere step C s as)
  | _, [] => inferInstanceAs (Decidable False)
  | s, a :: as =>
    have := decidableSomewhere C (step s a) as
    inferInstanceAs (Decidable (_ ∨ _))

variable {step}

theorem Throughout.last {P : σ → Prop} {s : σ} {as : List α}
    (h : Throughout step P s as) : P (run step s as) := by
  induction as generalizing s with
  | nil => exact h
  | cons a as ih => exact ih h.2

theorem CanFail.of_step {P : σ → Prop} {s : σ} (a : α) (h : CanFail step P (step s a)) :
    CanFail step P s := by
  obtain ⟨as, hno⟩ := h
  exact ⟨a :: as, hno⟩

/-- A step after which `P` can fail lies on a run that does not keep `P`. -/
theorem CanFail.not_throughout {P : σ → Prop} {s : σ} {as : List α} {a : α}
    (h : CanFail step P (step (run step s as) a)) :
    ∃ more, ¬ Throughout step P s (as ++ a :: more) := by
  obtain ⟨more, hno⟩ := h
  refine ⟨more, fun hall => hno ?_⟩
  have hlast := hall.last
  rwa [run_append] at hlast

theorem Throughout.mono {P Q : σ → Prop} {s : σ} {as : List α}
    (h : Throughout step P s as) (hpq : ∀ s, P s → Q s) : Throughout step Q s as := by
  induction as generalizing s with
  | nil => exact hpq s h
  | cons a as ih => exact ⟨hpq s h.1, ih h.2⟩

/-- Where two conditions agree in every state of the invariant `J`, a run meets one
exactly when it meets the other. -/
theorem meets_congr {J : σ → Prop} {C D : σ → α → Prop} (hJ : ∀ s a, J s → J (step s a))
    (hiff : ∀ s a, J s → (C s a ↔ D s a)) {s : σ} (hj : J s) (as : List α) :
    Meets step C s as ↔ Meets step D s as := by
  induction as generalizing s with
  | nil => exact Iff.rfl
  | cons a as ih => exact and_congr (hiff s a hj) (ih (hJ s a hj))

theorem throughout_of_meets {P : σ → Prop} {C : σ → α → Prop}
    (hstep : ∀ s a, P s → C s a → P (step s a)) {s : σ} (hs : P s) {as : List α}
    (hm : Meets step C s as) : Throughout step P s as := by
  induction as generalizing s with
  | nil => exact hs
  | cons a as ih => exact ⟨hs, ih (hstep s a hs hm.1) hm.2⟩

/-- Where a step keeps `P` exactly under `C`, a run keeps `P` throughout
exactly when all its steps meet `C`. -/
theorem throughout_iff_meets {P J : σ → Prop} {C : σ → α → Prop}
    (hJ : ∀ s a, J s → J (step s a))
    (hstep : ∀ s a, J s → P s → (P (step s a) ↔ C s a))
    {s : σ} (hj : J s) (hs : P s) (as : List α) :
    Throughout step P s as ↔ Meets step C s as := by
  induction as generalizing s with
  | nil => exact ⟨fun _ => trivial, fun _ => hs⟩
  | cons a as ih =>
    have hnext := hstep s a hj hs
    constructor
    · rintro ⟨-, ht⟩
      have hp : P (step s a) := by
        cases as with
        | nil => exact ht
        | cons b bs => exact ht.1
      exact ⟨hnext.mp hp, (ih (hJ s a hj) hp).mp ht⟩
    · rintro ⟨hc, hm⟩
      exact ⟨hs, (ih (hJ s a hj) (hnext.mpr hc)).mpr hm⟩

variable (step) in
/-- A step that meets `f` uses up one unit of a potential, and only a step that meets `g`
adds to it, at most `w` units. -/
theorem stepCount_le_of_potential (pot : σ → ℕ) (w : ℕ) (f g : σ → α → Bool) {J : σ → Prop}
    (hJ : ∀ s a, J s → J (step s a))
    (hstep : ∀ s a, J s → pot (step s a) + (f s a).toNat ≤ pot s + w * (g s a).toNat)
    {s : σ} (hj : J s) (as : List α) :
    stepCount step f s as ≤ pot s + w * stepCount step g s as := by
  induction as generalizing s with
  | nil => exact Nat.zero_le _
  | cons a as ih =>
    have hone := hstep s a hj
    have hrest := ih (hJ s a hj)
    simp only [stepCount, Nat.mul_add]
    omega

/-- While a machine that does not restart is running, all its own actions count. -/
theorem countP_eq_stepCount (running : σ → Bool) (own : α → Bool)
    (hstop : ∀ s a, running s = false → running (step s a) = false) {s : σ} {as : List α}
    (hr : running (run step s as) = true) :
    as.countP own = stepCount step (fun s a => running s && own a) s as := by
  induction as generalizing s with
  | nil => rfl
  | cons a as ih =>
    have hs : running s = true := by
      by_contra hno
      rw [Bool.not_eq_true] at hno
      have hend : running (run step s (a :: as)) = false :=
        run_invariant (P := fun s => running s = false) (fun s a h => hstop s a h) hno (a :: as)
      exact Bool.false_ne_true (hend.symm.trans hr)
    rw [stepCount, ← ih hr, hs, Bool.true_and, List.countP_cons, Nat.add_comm]
    cases own a <;> rfl

section Refinement

variable {spec : τ → α → τ} {impl : τ → σ} {J : τ → Prop} {C : τ → α → Prop}
  (hJ : ∀ t a, J t → C t a → J (spec t a))
  (hsim : ∀ t a, J t → C t a → step (impl t) a = impl (spec t a))

include hJ hsim

/-- Where each step of `spec` that meets `C` is a step of the implementation `impl`, so is
each run whose steps meet `C`. -/
theorem run_refines {t : τ} (hj : J t) {as : List α} (hm : Meets spec C t as) :
    run step (impl t) as = impl (run spec t as) := by
  induction as generalizing t with
  | nil => rfl
  | cons a as ih =>
    rw [run_cons, run_cons, hsim t a hj hm.1]
    exact ih (hJ t a hj hm.1) hm.2

theorem outputs_refines {f : σ → α → Option β} {g : τ → α → Option β}
    (hout : ∀ t a, J t → C t a → f (impl t) a = g t a) {t : τ} (hj : J t) {as : List α}
    (hm : Meets spec C t as) : outputs step f (impl t) as = outputs spec g t as := by
  induction as generalizing t with
  | nil => rfl
  | cons a as ih =>
    rw [outputs, outputs, hout t a hj hm.1, hsim t a hj hm.1, ih (hJ t a hj hm.1) hm.2]

end Refinement

section Simulation

variable {spec : τ → α → τ} {R : σ → τ → Prop}
  (hstep : ∀ s t a, R s t → R (step s a) (spec t a))

include hstep

theorem run_simulates {s : σ} {t : τ} (h : R s t) (as : List α) :
    R (run step s as) (run spec t as) := by
  induction as generalizing s t with
  | nil => exact h
  | cons a as ih => exact ih (hstep s t a h)

/-- Two machines whose related states report the same report the same in every run. -/
theorem outputs_simulates {f : σ → α → Option β} {g : τ → α → Option β}
    (hout : ∀ s t a, R s t → f s a = g t a) {s : σ} {t : τ} (h : R s t) (as : List α) :
    outputs step f s as = outputs spec g t as := by
  induction as generalizing s t with
  | nil => rfl
  | cons a as ih => rw [outputs, outputs, hout s t a h, ih (hstep s t a h)]

end Simulation

section Calls

variable (call : σ → α → Option (σ × β))

/-- The state after a call that may stop the program for good. -/
def callStep (s : Option σ) (a : α) : Option σ := s.bind fun s => (call s a).map Prod.fst

def callReply (s : Option σ) (a : α) : Option β := s.bind fun s => (call s a).map Prod.snd

variable {call} {spec : τ → α → Option (τ × β)} {R : σ → τ → Prop}
  (hcall : ∀ s t a, R s t →
    Option.Rel (fun p q => R p.1 q.1 ∧ p.2 = q.2) (call s a) (spec t a))

include hcall

theorem callStep_simulates (s : Option σ) (t : Option τ) (a : α) (h : Option.Rel R s t) :
    Option.Rel R (callStep call s a) (callStep spec t a) := by
  cases h with
  | none => exact .none
  | some h =>
    rename_i s t
    have hrel := hcall s t a h
    simp only [callStep, Option.bind_some]
    generalize call s a = x at hrel ⊢
    generalize spec t a = y at hrel ⊢
    cases hrel with
    | none => exact .none
    | some h => exact .some h.1

theorem callReply_simulates (s : Option σ) (t : Option τ) (a : α) (h : Option.Rel R s t) :
    callReply call s a = callReply spec t a := by
  cases h with
  | none => rfl
  | some h =>
    rename_i s t
    have hrel := hcall s t a h
    simp only [callReply, Option.bind_some]
    generalize call s a = x at hrel ⊢
    generalize spec t a = y at hrel ⊢
    cases hrel with
    | none => rfl
    | some h => exact congrArg some h.2

/-- Where each call answers like the call of `spec`, so do the calls of every run, and both
stop the program at the same call. -/
theorem calls_simulate {s : Option σ} {t : Option τ} (h : Option.Rel R s t) (as : List α) :
    Option.Rel R (run (callStep call) s as) (run (callStep spec) t as) ∧
      outputs (callStep call) (callReply call) s as =
        outputs (callStep spec) (callReply spec) t as :=
  ⟨run_simulates (callStep_simulates hcall) h as,
    outputs_simulates (callStep_simulates hcall) (callReply_simulates hcall) h as⟩

end Calls

end EthDriver.Runs

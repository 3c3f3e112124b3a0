import Mathlib.Data.List.Basic

/-!
# Runs of a transition system

A transition system is a step function on states and inputs. A condition on the state before a
step and its input holds *along* a list of inputs when it holds at every step of the run; an
invariant kept by every step that meets the condition then holds at the end, and since the list is
arbitrary, in every state of the run.

## Main definitions

* `Run.Along`.

## Main results

* `Run.Along.invariant`: the invariant rule.
* `Run.Along.simulation`: the rule for two systems.
* `Run.forall_take_iff_along`: a property of all states of a run, if breaking the condition at a step
  breaks the property.
-/

namespace Run

variable {σ ι : Type*} {step : σ → ι → σ} {P : σ → ι → Prop}

/-- `P` holds before every step of the run of `cs` from `s`. -/
def Along (step : σ → ι → σ) (P : σ → ι → Prop) : σ → List ι → Prop
  | _, [] => True
  | s, c :: cs => P s c ∧ Along step P (step s c) cs

instance decidableAlong [∀ s c, Decidable (P s c)] :
    (s : σ) → (cs : List ι) → Decidable (Along step P s cs)
  | _, [] => instDecidableTrue
  | s, c :: cs =>
    have := decidableAlong (step s c) cs
    inferInstanceAs (Decidable (P s c ∧ Along step P (step s c) cs))

/-- A condition on the steps alone holds along every run of such steps. -/
theorem along_of_forall {Q : ι → Prop} {s : σ} {cs : List ι} (h : ∀ c ∈ cs, Q c) :
    Along step (fun _ c => Q c) s cs := by
  induction cs generalizing s with
  | nil => exact trivial
  | cons c cs ih =>
    exact ⟨h c List.mem_cons_self, ih fun c' hc' => h c' (List.mem_cons_of_mem c hc')⟩

/-- An invariant of the steps that meet the condition holds after the run. -/
theorem Along.invariant {I : σ → Prop} (hstep : ∀ s c, I s → P s c → I (step s c)) {s : σ}
    {cs : List ι} (h : Along step P s cs) (hs : I s) : I (cs.foldl step s) := by
  induction cs generalizing s with
  | nil => exact hs
  | cons c cs ih => exact ih h.2 (hstep s c hs h.1)

/-- A relation between the states of two systems that is kept by the steps whose first state meets
the condition. -/
theorem Along.simulation {τ : Type*} {step' : τ → ι → τ} {R : σ → τ → Prop}
    (hstep : ∀ s t c, R s t → P s c → R (step s c) (step' t c)) {s : σ} {t : τ} {cs : List ι}
    (h : Along step P s cs) (hs : R s t) : R (cs.foldl step s) (cs.foldl step' t) := by
  induction cs generalizing s t with
  | nil => exact hs
  | cons c cs ih => exact ih h.2 (hstep s t c hs h.1)

/-- If the steps that meet the condition are those that keep an invariant, and a step that does not
meet it breaks a property that follows from the invariant, then the property holds in every state of
a run exactly if the condition holds along it. -/
theorem forall_take_iff_along {I G : σ → Prop} (hG : ∀ s, I s → G s)
    (hstep : ∀ s c, I s → P s c → I (step s c)) (hbreak : ∀ s c, I s → ¬ P s c → ¬ G (step s c))
    {s : σ} (hs : I s) (cs : List ι) :
    (∀ n, G ((cs.take n).foldl step s)) ↔ Along step P s cs := by
  induction cs generalizing s with
  | nil =>
    refine iff_of_true (fun n => ?_) trivial
    rw [List.take_nil]
    exact hG s hs
  | cons c cs ih =>
    constructor
    · intro h
      have hc : P s c := by
        by_contra hc
        exact hbreak s c hs hc (h 1)
      exact ⟨hc, (ih (hstep s c hs hc)).mp fun n => h (n + 1)⟩
    · rintro ⟨hc, halong⟩ n
      cases n with
      | zero => exact hG s hs
      | succ n => exact (ih (hstep s c hs hc)).mpr halong n

end Run

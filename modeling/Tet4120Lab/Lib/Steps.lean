import Mathlib.Data.List.Basic
import Mathlib.Data.Option.Basic

/-!
# Runs of a partial step function

A system is a partial step function `step : σ → ι → Option σ` on states and actions.

* `run step s as` performs the actions `as` one after the other; it is `none` as soon as one of
  them is not enabled;
* `Along step P s as` says that every step of that run is taken from a state and with an action
  that meet `P`;
* `run_invariant` is the induction rule: what holds at the start and is kept by every step that
  meets `P` holds at the end of every run along `P`; `run_invariant_of_forall` is the case of an
  invariant that every step keeps.
-/

namespace Steps

variable {σ ι : Type*} {step : σ → ι → Option σ} {P : σ → ι → Prop}

/-- The state after the actions `as`, if all of them are enabled one after the other. -/
def run (step : σ → ι → Option σ) : σ → List ι → Option σ
  | s, [] => some s
  | s, a :: as => (step s a).bind fun t => run step t as

/-- Every step of the run from `s` along `as` is taken from a state and with an action in `P`. -/
def Along (step : σ → ι → Option σ) (P : σ → ι → Prop) : σ → List ι → Prop
  | _, [] => True
  | s, a :: as => P s a ∧ ∀ t, step s a = some t → Along step P t as

theorem run_cons (s : σ) (a : ι) (as : List ι) :
    run step s (a :: as) = (step s a).bind fun t => run step t as := rfl

theorem run_cons_eq_some {s u : σ} {a : ι} {as : List ι} :
    run step s (a :: as) = some u ↔ ∃ t, step s a = some t ∧ run step t as = some u := by
  rw [run_cons, Option.bind_eq_some_iff]

theorem run_append (s : σ) (as bs : List ι) :
    run step s (as ++ bs) = (run step s as).bind fun t => run step t bs := by
  induction as generalizing s with
  | nil => rfl
  | cons a as ih =>
    rw [List.cons_append, run_cons, run_cons]
    cases step s a with
    | none => rfl
    | some t => exact ih t

theorem run_append_of_eq {s t : σ} {as : List ι} (h : run step s as = some t) (bs : List ι) :
    run step s (as ++ bs) = run step t bs := by
  rw [run_append, h]; rfl

theorem along_of_forall (h : ∀ s a, P s a) (s : σ) (as : List ι) : Along step P s as := by
  induction as generalizing s with
  | nil => trivial
  | cons a as ih => exact ⟨h s a, fun t _ => ih t⟩

/-- A condition on the actions alone. -/
theorem along_of_forall_mem {p : ι → Prop} {as : List ι} (h : ∀ a ∈ as, p a) (s : σ) :
    Along step (fun _ a => p a) s as := by
  induction as generalizing s with
  | nil => trivial
  | cons a as ih =>
    exact ⟨h a (List.mem_cons_self ..), fun t _ => ih (fun b hb => h b (List.mem_cons_of_mem a hb)) t⟩

/-- The condition on a concrete run can be evaluated. -/
instance Along.instDecidable [∀ s a, Decidable (P s a)] :
    ∀ (s : σ) (as : List ι), Decidable (Along step P s as)
  | _, [] => isTrue trivial
  | s, a :: as =>
    match h : step s a with
    | none => decidable_of_iff (P s a)
        ⟨fun hP => ⟨hP, fun t ht => by rw [h] at ht; cases ht⟩, fun hP => hP.1⟩
    | some t =>
      have := instDecidable t as
      decidable_of_iff (P s a ∧ Along step P t as)
        ⟨fun hP => ⟨hP.1, fun u hu => by rw [h] at hu; cases hu; exact hP.2⟩,
          fun hP => ⟨hP.1, hP.2 t h⟩⟩

/-- An invariant of the steps in `P` holds at the end of every run along `P`. -/
theorem run_invariant {I : σ → Prop}
    (hstep : ∀ s a t, I s → P s a → step s a = some t → I t)
    {s t : σ} {as : List ι} (hs : I s) (hP : Along step P s as) (hrun : run step s as = some t) :
    I t := by
  induction as generalizing s with
  | nil => cases hrun; exact hs
  | cons a as ih =>
    obtain ⟨m, hm, hrest⟩ := run_cons_eq_some.1 hrun
    exact ih (hstep s a m hs hP.1 hm) (hP.2 m hm) hrest

/-- An invariant of all steps holds at the end of every run. -/
theorem run_invariant_of_forall {I : σ → Prop}
    (hstep : ∀ s a t, I s → step s a = some t → I t)
    {s t : σ} {as : List ι} (hs : I s) (hrun : run step s as = some t) : I t :=
  run_invariant (P := fun _ _ => True) (fun s a t hI _ ht => hstep s a t hI ht) hs
    (along_of_forall (fun _ _ => trivial) s as) hrun

end Steps

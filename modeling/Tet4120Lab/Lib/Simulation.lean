import Tet4120Lab.Lib.Steps

/-!
# Simulation of one system by another

Both systems are partial step functions.  A step of the concrete one either carries a label, an
action that the abstract one then takes, or it carries none and the abstract one stays where it is.

* `trace step label s as`: the labels of the run from `s` along `as`, in order;
* `Simulation`: the relation `R` between the states is kept, step by step, along steps in `P`;
* `Simulation.run`: then every run along `P` is a run of the abstract system along its trace;
* `trace_eq_filterMap`: the trace when the label does not depend on the state;
* `Abstraction`: the abstract state is a function of the concrete one, and the concrete system makes
  the abstract step whenever that is possible; `Abstraction.run_map` for runs.
-/

namespace Steps

variable {σ τ ι κ : Type*} {step : σ → ι → Option σ} {abstractStep : τ → κ → Option τ}
  {label : σ → ι → Option κ} {R : σ → τ → Prop} {P : σ → ι → Prop}

/-- The labels of a run. -/
def trace (step : σ → ι → Option σ) (label : σ → ι → Option κ) : σ → List ι → List κ
  | _, [] => []
  | s, a :: as =>
    (label s a).toList ++ match step s a with
      | none => []
      | some t => trace step label t as

/-- Step by step the abstract system follows the concrete one. -/
structure Simulation (step : σ → ι → Option σ) (abstractStep : τ → κ → Option τ)
    (label : σ → ι → Option κ) (P : σ → ι → Prop) (R : σ → τ → Prop) : Prop where
  stutter : ∀ {s a t q}, R s q → P s a → step s a = some t → label s a = none → R t q
  move : ∀ {s a t q k}, R s q → P s a → step s a = some t → label s a = some k →
    ∃ r, abstractStep q k = some r ∧ R t r

theorem trace_cons {s t : σ} {a : ι} (h : step s a = some t) (as : List ι) :
    trace step label s (a :: as) = (label s a).toList ++ trace step label t as := by
  rw [trace, h]

/-- **Every run of the concrete system is a run of the abstract one.** -/
theorem Simulation.run (h : Simulation step abstractStep label P R) {s t : σ} {q : τ} {as : List ι}
    (hR : R s q) (hP : Along step P s as) (hrun : Steps.run step s as = some t) :
    ∃ r, Steps.run abstractStep q (trace step label s as) = some r ∧ R t r := by
  induction as generalizing s q with
  | nil => cases hrun; exact ⟨q, rfl, hR⟩
  | cons a as ih =>
    obtain ⟨m, hm, hrest⟩ := run_cons_eq_some.1 hrun
    rw [trace_cons hm]
    cases hlabel : label s a with
    | none => exact ih (h.stutter hR hP.1 hm hlabel) (hP.2 m hm) hrest
    | some k =>
      obtain ⟨r, hr, hmr⟩ := h.move hR hP.1 hm hlabel
      obtain ⟨r', hr', htr'⟩ := ih hmr (hP.2 m hm) hrest
      exact ⟨r', run_cons_eq_some.2 ⟨r, hr, hr'⟩, htr'⟩

/-- A label that does not depend on the state. -/
theorem trace_eq_filterMap {f : ι → Option κ} {s t : σ} {as : List ι}
    (hrun : Steps.run step s as = some t) : trace step (fun _ a => f a) s as = as.filterMap f := by
  induction as generalizing s with
  | nil => rfl
  | cons a as ih =>
    obtain ⟨m, hm, hrest⟩ := run_cons_eq_some.1 hrun
    rw [trace_cons hm, ih hrest]
    cases hf : f a with
    | none => rw [List.filterMap_cons_none hf]; rfl
    | some k => rw [List.filterMap_cons_some hf]; rfl

/-! ### Abstraction functions -/

variable {I : σ → Prop} {Q : ι → Prop} {φ : σ → τ} {f : ι → Option κ}

/-- While `I` holds, the states through `φ` make the steps of the abstract system. -/
structure Abstraction (step : σ → ι → Option σ) (abstractStep : τ → κ → Option τ) (φ : σ → τ)
    (f : ι → Option κ) (I : σ → Prop) (Q : ι → Prop) : Prop where
  inv : ∀ {s a t}, I s → Q a → step s a = some t → I t
  quiet : ∀ {s a}, I s → Q a → f a = none → (step s a).map φ = some (φ s)
  move : ∀ {s a k}, I s → Q a → f a = some k → (step s a).map φ = abstractStep (φ s) k

theorem Abstraction.run_inv (h : Abstraction step abstractStep φ f I Q) {s t : σ} {as : List ι}
    (hs : I s) (has : ∀ a ∈ as, Q a) (hrun : Steps.run step s as = some t) : I t :=
  run_invariant (fun _ _ _ hs ha hst => h.inv hs ha hst) hs (along_of_forall_mem has s) hrun

/-- **The runs of the concrete system are, through `φ`, the runs of the abstract one.** -/
theorem Abstraction.run_map (h : Abstraction step abstractStep φ f I Q) {s : σ} {as : List ι}
    (hs : I s) (has : ∀ a ∈ as, Q a) :
    (Steps.run step s as).map φ = Steps.run abstractStep (φ s) (as.filterMap f) := by
  induction as generalizing s with
  | nil => rfl
  | cons a as ih =>
    have ha := has a (List.mem_cons_self ..)
    have hrest : ∀ b ∈ as, Q b := fun b hb => has b (List.mem_cons_of_mem a hb)
    rw [run_cons, Option.map_bind]
    cases hf : f a with
    | none =>
      obtain ⟨t, ht, hφ⟩ := Option.map_eq_some_iff.1 (h.quiet hs ha hf)
      rw [List.filterMap_cons_none hf, ht, ← hφ]
      exact ih (h.inv hs ha ht) hrest
    | some k =>
      rw [List.filterMap_cons_some hf, run_cons, ← h.move hs ha hf]
      cases ht : step s a with
      | none => rfl
      | some t => exact ih (h.inv hs ha ht) hrest

end Steps

import Mathlib.Data.List.Basic

/-!
# A program interleaved with its environment

A schedule is a list of events: instructions of the program and events of the environment.

* `code evs`: the instructions of the schedule, in order; `code evs = p` says that `evs`
  interleaves the program `p` with the environment;
* `code_eq_append_cons`: an instruction of the program splits the schedule;
* `forall_of_code`: what holds of the instructions and of the environment holds of every event.
-/

namespace Schedule

/-- One event of a schedule. -/
inductive Event (ι ε : Type*)
  | cpu (i : ι)
  | env (e : ε)
  deriving DecidableEq

variable {ι ε : Type*}

/-- The instruction an event performs. -/
def Event.instr? : Event ι ε → Option ι
  | .cpu i => some i
  | .env _ => none

/-- The instructions of a schedule. -/
def code (evs : List (Event ι ε)) : List ι := evs.filterMap Event.instr?

theorem code_append (xs ys : List (Event ι ε)) : code (xs ++ ys) = code xs ++ code ys :=
  List.filterMap_append

/-- The program on its own is a schedule of itself. -/
theorem code_map_cpu (p : List ι) : code (p.map .cpu : List (Event ι ε)) = p := by
  induction p with
  | nil => rfl
  | cons i p ih => exact congrArg (i :: ·) ih

theorem code_eq_append_cons {evs : List (Event ι ε)} {xs ys : List ι} {i : ι} :
    code evs = xs ++ i :: ys ↔
      ∃ as bs, evs = as ++ .cpu i :: bs ∧ code as = xs ∧ code bs = ys := by
  constructor
  · intro h
    obtain ⟨as, rest, rfl, has, hrest⟩ := List.filterMap_eq_append_iff.1 h
    obtain ⟨es, e, bs, rfl, hes, he, hbs⟩ := List.filterMap_eq_cons_iff.1 hrest
    cases e with
    | env e => cases he
    | cpu j =>
      cases he
      refine ⟨as ++ es, bs, by simp, ?_, hbs⟩
      have hnil : code es = [] := List.filterMap_eq_nil_iff.2 hes
      rw [code_append, hnil, List.append_nil]
      exact has
  · rintro ⟨as, bs, rfl, rfl, rfl⟩
    rw [code_append]
    rfl

theorem forall_of_code {P : Event ι ε → Prop} (henv : ∀ e, P (.env e)) {evs : List (Event ι ε)}
    (hcode : ∀ i ∈ code evs, P (.cpu i)) : ∀ ev ∈ evs, P ev := by
  intro ev hev
  cases ev with
  | env e => exact henv e
  | cpu i => exact hcode i (List.mem_filterMap.2 ⟨.cpu i, hev, rfl⟩)

end Schedule

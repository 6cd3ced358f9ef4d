import Tet4120Lab.Lib.Steps

/-!
# A bounded first-in first-out queue

* `BoundedQueue α n`: at most `n` elements; the bound is a field, so a queue that is too long cannot
  be built;
* `push`, `pop`: a push into a full queue and a pop from an empty one are not enabled;
* `BoundedQueue.step`: the two as steps of a system; a pop names the element it yields;
* `items_append_pushes`: along every run, what was there and what was pushed is, in this order, what
  was popped and what is left: nothing is lost, repeated or reordered.
-/

/-- At most `n` elements, oldest first. -/
structure BoundedQueue (α : Type*) (n : ℕ) where
  items : List α
  bound : items.length ≤ n

namespace BoundedQueue

variable {α : Type*} {n : ℕ}

@[ext] theorem ext {q r : BoundedQueue α n} (h : q.items = r.items) : q = r := by
  cases q
  cases r
  cases h
  rfl

/-- No element. -/
def empty : BoundedQueue α n := ⟨[], Nat.zero_le n⟩

/-- Append an element, if there is room. -/
def push (q : BoundedQueue α n) (x : α) : Option (BoundedQueue α n) :=
  if h : q.items.length < n then
    some ⟨q.items ++ [x], by rw [List.length_append]; exact h⟩
  else none

/-- The queue without its oldest element. -/
def tail (q : BoundedQueue α n) : BoundedQueue α n :=
  ⟨q.items.tail, by have := q.bound; rw [List.length_tail]; omega⟩

/-- Take the oldest element, if it is `x`. -/
def pop [DecidableEq α] (q : BoundedQueue α n) (x : α) : Option (BoundedQueue α n) :=
  if q.items.head? = some x then some q.tail else none

/-- An operation; a pop with the element it yields. -/
inductive Op (α : Type*)
  | push (x : α)
  | pop (x : α)

/-- The element a push appends. -/
def Op.pushed : Op α → Option α
  | .push x => some x
  | .pop _ => none

/-- The element a pop yields. -/
def Op.popped : Op α → Option α
  | .push _ => none
  | .pop x => some x

/-- One operation. -/
def step [DecidableEq α] (q : BoundedQueue α n) : Op α → Option (BoundedQueue α n)
  | .push x => q.push x
  | .pop x => q.pop x

theorem push_eq_some {q r : BoundedQueue α n} {x : α} :
    q.push x = some r ↔ q.items.length < n ∧ r.items = q.items ++ [x] := by
  unfold push
  split_ifs with h
  · rw [Option.some.injEq]
    exact ⟨fun hr => ⟨h, hr ▸ rfl⟩, fun hr => ext hr.2.symm⟩
  · exact iff_of_false (fun hr => by cases hr) fun hr => h hr.1

theorem pop_eq_some [DecidableEq α] {q r : BoundedQueue α n} {x : α} :
    q.pop x = some r ↔ q.items = x :: r.items := by
  unfold pop
  constructor
  · intro h
    split_ifs at h with hx
    cases h
    exact (List.cons_head?_tail hx).symm
  · intro h
    rw [if_pos (by rw [h]; rfl), Option.some.injEq]
    exact ext (show q.items.tail = r.items by rw [h]; rfl)

theorem exists_push {q : BoundedQueue α n} (h : q.items.length < n) (x : α) :
    ∃ r, q.push x = some r ∧ r.items = q.items ++ [x] := ⟨_, dif_pos h, rfl⟩

theorem exists_pop [DecidableEq α] {q : BoundedQueue α n} {x : α} {xs : List α}
    (h : q.items = x :: xs) : ∃ r, q.pop x = some r ∧ r.items = xs :=
  ⟨q.tail, if_pos (by rw [h]; rfl), show q.items.tail = xs by rw [h]; rfl⟩

/-- **What was there and what was pushed is what was popped and what is left.** -/
theorem items_append_pushes [DecidableEq α] {q r : BoundedQueue α n} {ops : List (Op α)}
    (hrun : Steps.run step q ops = some r) :
    q.items ++ ops.filterMap Op.pushed = ops.filterMap Op.popped ++ r.items := by
  induction ops generalizing q with
  | nil =>
    cases hrun
    simp
  | cons op ops ih =>
    obtain ⟨m, hm, hrest⟩ := Steps.run_cons_eq_some.1 hrun
    cases op with
    | push x =>
      have hitems := (push_eq_some.1 hm).2
      have hih := ih hrest
      rw [hitems, List.append_assoc] at hih
      exact hih
    | pop x =>
      have hitems := pop_eq_some.1 hm
      have hih := ih hrest
      rw [hitems]
      exact congrArg (x :: ·) hih

end BoundedQueue

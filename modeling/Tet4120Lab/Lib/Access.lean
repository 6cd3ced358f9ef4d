import Mathlib.Logic.Function.Basic
import Mathlib.Data.List.Basic

/-!
# Programs that access a shared memory cell by cell

The cells `x : ℓ` of a memory hold values of type `V x`.  A program loads and stores one cell at a
time, so that another party can access the memory between any two of its accesses.

* `Prog V α`: a program with result `α`; `fault` is an access that no cell answers;
* `Cells μ V`: a memory `μ` with these cells; `Lawful`: it is nothing but its cells;
* `next`, `run`: one access, and all of them with nobody else accessing the memory;
* `footprint`: the cells that run accesses; `Stays M S p m`: they are cells of `S`;
* `run_next`: one access does not change the outcome; `Stays.run_set`: nor does a store of someone
  else to a cell that is not accessed any more;
* `StoresBefore S`: before its last access the program stores to cells of `S` only;
* `AtMost n`: it makes at most `n` accesses, whatever it loads;
* `Cells.Refines`: one memory is kept in another; `Cells.Refines.next`: programs cannot tell.
-/

namespace Access

/-- A program that accesses cells with values `V`. -/
inductive Prog {ℓ : Type} (V : ℓ → Type) (α : Type) : Type
  | ret (a : α)
  | load (x : ℓ) (k : V x → Prog V α)
  | store (x : ℓ) (v : V x) (p : Prog V α)
  | fault

/-- A memory with cells. -/
structure Cells (μ : Type) {ℓ : Type} (V : ℓ → Type) where
  get : μ → (x : ℓ) → V x
  set : μ → (x : ℓ) → V x → μ

variable {μ ℓ : Type} {V : ℓ → Type} {α β : Type}

/-- The memory is nothing but its cells. -/
structure Cells.Lawful (M : Cells μ V) : Prop where
  get_set_self : ∀ m x v, M.get (M.set m x v) x = v
  get_set_of_ne : ∀ {m x v y}, y ≠ x → M.get (M.set m x v) y = M.get m y
  ext : ∀ {m n}, (∀ x, M.get m x = M.get n x) → m = n

namespace Prog

/-- First `p`, then `f` with its result. -/
def bind : Prog V α → (α → Prog V β) → Prog V β
  | ret a, f => f a
  | load x k, f => load x fun v => (k v).bind f
  | store x v p, f => store x v (p.bind f)
  | fault, _ => fault

instance : Monad (Prog V) where
  pure := ret
  bind := bind

/-- Load one cell. -/
def get (x : ℓ) : Prog V (V x) := load x ret

/-- Store to one cell. -/
def set (x : ℓ) (v : V x) : Prog V Unit := store x v (ret ())

/-- Stop with a fault unless there is a value. -/
def orFault : Option α → Prog V α
  | some a => ret a
  | none => fault

/-- The result of a program that has made all its accesses. -/
def result? : Prog V α → Option α
  | ret a => some a
  | _ => none

/-- Every store is to a cell of `S`. -/
def StoresIn (S : ℓ → Prop) : Prog V α → Prop
  | ret _ => True
  | load _ k => ∀ v, (k v).StoresIn S
  | store x _ p => S x ∧ p.StoresIn S
  | fault => True

/-- Every store is to a cell of `S` or the last access. -/
def StoresBefore (S : ℓ → Prop) : Prog V α → Prop
  | ret _ => True
  | load _ k => ∀ v, (k v).StoresBefore S
  | store x _ p => (p.result? = none → S x) ∧ p.StoresBefore S
  | fault => True

/-- There are at most `n` accesses, whatever the loads return; a fault is one. -/
def AtMost : Prog V α → ℕ → Prop
  | ret _, _ => True
  | load _ k, n + 1 => ∀ v, (k v).AtMost n
  | store _ _ p, n + 1 => p.AtMost n
  | fault, _ + 1 => True
  | _, 0 => False

variable (M : Cells μ V)

/-- One access. -/
def next : Prog V α → μ → Option (Prog V α × μ)
  | ret _, _ => none
  | load x k, m => some (k (M.get m x), m)
  | store x v p, m => some (p, M.set m x v)
  | fault, _ => none

/-- All accesses, one right after the other. -/
def run : Prog V α → μ → Option (α × μ)
  | ret a, m => some (a, m)
  | load x k, m => (k (M.get m x)).run m
  | store x v p, m => p.run (M.set m x v)
  | fault, _ => none

/-- The result, if one more access completes the program. -/
def last? (p : Prog V α) (m : μ) : Option α := (p.next M m).bind fun r => r.1.result?

/-- The cells that `run` accesses. -/
def footprint : Prog V α → μ → List ℓ
  | ret _, _ => []
  | load x k, m => x :: (k (M.get m x)).footprint m
  | store x v p, m => x :: p.footprint (M.set m x v)
  | fault, _ => []

variable {M}

/-! ### Sequences -/

@[simp] theorem run_pure (a : α) (m : μ) : (pure a : Prog V α).run M m = some (a, m) := rfl

@[simp] theorem run_get (x : ℓ) (m : μ) : (get x : Prog V (V x)).run M m = some (M.get m x, m) := rfl

@[simp] theorem run_set_cell (x : ℓ) (v : V x) (m : μ) :
    (set x v).run M m = some ((), M.set m x v) := rfl

@[simp] theorem run_orFault_some (a : α) (m : μ) : (orFault (some a) : Prog V α).run M m = some (a, m) :=
  rfl

@[simp] theorem run_bind (p : Prog V α) (f : α → Prog V β) (m : μ) :
    (p >>= f).run M m = (p.run M m).bind fun r => (f r.1).run M r.2 := by
  show (p.bind f).run M m = _
  induction p generalizing m with
  | ret a => rfl
  | load x k ih => exact ih _ m
  | store x v p ih => exact ih (M.set m x v)
  | fault => rfl

/-- The accesses of the run from `m` are to cells of `S`. -/
def Stays (M : Cells μ V) (S : ℓ → Prop) (p : Prog V α) (m : μ) : Prop :=
  ∀ x ∈ p.footprint M m, S x

variable {S : ℓ → Prop}

theorem stays_pure (a : α) (m : μ) : (pure a : Prog V α).Stays M S m := by
  intro x hx
  cases hx

theorem stays_orFault (a : Option α) (m : μ) : (orFault a : Prog V α).Stays M S m := by
  intro x hx
  cases a <;> cases hx

theorem stays_get {x : ℓ} (hx : S x) (m : μ) : (get x : Prog V (V x)).Stays M S m := by
  intro y hy
  rwa [List.mem_singleton.1 hy]

theorem stays_set {x : ℓ} (hx : S x) (v : V x) (m : μ) : (set x v).Stays M S m := by
  intro y hy
  rwa [List.mem_singleton.1 hy]

theorem Stays.bind {p : Prog V α} {f : α → Prog V β} {m : μ} (hp : p.Stays M S m)
    (hf : ∀ a n, p.run M m = some (a, n) → (f a).Stays M S n) : (p >>= f).Stays M S m := by
  show (p.bind f).Stays M S m
  induction p generalizing m with
  | ret a => exact hf a m rfl
  | load x k ih =>
    exact List.forall_mem_cons.2
      ⟨hp x (List.mem_cons_self ..), ih _ (fun y hy => hp y (List.mem_cons_of_mem x hy)) hf⟩
  | store x v p ih =>
    exact List.forall_mem_cons.2
      ⟨hp x (List.mem_cons_self ..), ih (fun y hy => hp y (List.mem_cons_of_mem x hy)) hf⟩
  | fault => exact hp

/-- Where the first part is known to end. -/
theorem Stays.bind_of_run {p : Prog V α} {f : α → Prog V β} {m n : μ} {a : α} (hp : p.Stays M S m)
    (hrun : p.run M m = some (a, n)) (hf : (f a).Stays M S n) : (p >>= f).Stays M S m :=
  hp.bind fun b n' h => by
    rw [hrun] at h
    cases h
    exact hf

/-! ### One access -/

variable {p q : Prog V α} {m n : μ}

/-- **One access does not change the outcome.** -/
theorem run_next (h : p.next M m = some (q, n)) : q.run M n = p.run M m := by
  cases p with
  | ret a => cases h
  | load x k => cases h; rfl
  | store x v p => cases h; rfl
  | fault => cases h

theorem last?_of_next (h : p.next M m = some (q, n)) : p.last? M m = q.result? := by
  rw [last?, h]
  rfl

theorem Stays.next (hp : p.Stays M S m) (h : p.next M m = some (q, n)) : q.Stays M S n := by
  cases p with
  | ret a => cases h
  | load x k => cases h; exact fun y hy => hp y (List.mem_cons_of_mem x hy)
  | store x v p => cases h; exact fun y hy => hp y (List.mem_cons_of_mem x hy)
  | fault => cases h

theorem run_of_result? {a : α} (h : p.result? = some a) (m : μ) : p.run M m = some (a, m) := by
  cases p with
  | ret b => cases h; rfl
  | load x k => cases h
  | store x v p => cases h
  | fault => cases h

/-- A program that does not fault has its result or makes another access. -/
theorem exists_next {r : α × μ} (h : p.run M m = some r) (hp : p.result? = none) :
    ∃ q n, p.next M m = some (q, n) := by
  cases p with
  | ret a => cases hp
  | load x k => exact ⟨_, _, rfl⟩
  | store x v p => exact ⟨_, _, rfl⟩
  | fault => cases h

/-! ### Stores of someone else -/

/-- Stores to different cells commute. -/
theorem set_comm (hM : M.Lawful) {x y : ℓ} (hxy : x ≠ y) (m : μ) (v : V x) (w : V y) :
    M.set (M.set m x v) y w = M.set (M.set m y w) x v := by
  apply hM.ext
  intro z
  by_cases hy : z = y
  · subst hy
    rw [hM.get_set_self, hM.get_set_of_ne (Ne.symm hxy), hM.get_set_self]
  · rw [hM.get_set_of_ne hy]
    by_cases hx : z = x
    · subst hx
      rw [hM.get_set_self, hM.get_set_self]
    · rw [hM.get_set_of_ne hx, hM.get_set_of_ne hx, hM.get_set_of_ne hy]

/-- **A store of someone else to a cell that is not accessed any more commutes with the rest of the
program.** -/
theorem Stays.run_set (hM : M.Lawful) (hp : p.Stays M S m) {x : ℓ} (hx : ¬ S x) (v : V x) :
    p.run M (M.set m x v) = (p.run M m).map fun r => (r.1, M.set r.2 x v) := by
  induction p generalizing m with
  | ret a => rfl
  | load y k ih =>
    have hy : y ≠ x := fun hyx => hx (hyx ▸ hp y (List.mem_cons_self ..))
    show (k (M.get (M.set m x v) y)).run M (M.set m x v) = _
    rw [hM.get_set_of_ne hy]
    exact ih _ fun z hz => hp z (List.mem_cons_of_mem y hz)
  | store y w p ih =>
    have hy : y ≠ x := fun hyx => hx (hyx ▸ hp y (List.mem_cons_self ..))
    show p.run M (M.set (M.set m x v) y w) = _
    rw [set_comm hM hy.symm]
    exact ih fun z hz => hp z (List.mem_cons_of_mem y hz)
  | fault => rfl

/-- Nor does it change which cells the rest accesses. -/
theorem Stays.set (hM : M.Lawful) (hp : p.Stays M S m) {x : ℓ} (hx : ¬ S x) (v : V x) :
    p.Stays M S (M.set m x v) := by
  induction p generalizing m with
  | ret a => exact hp
  | load y k ih =>
    have hy : S y := hp y (List.mem_cons_self ..)
    refine List.forall_mem_cons.2 ⟨hy, ?_⟩
    have hyx : y ≠ x := fun h => hx (h ▸ hy)
    rw [hM.get_set_of_ne hyx]
    exact ih _ fun z hz => hp z (List.mem_cons_of_mem y hz)
  | store y w p ih =>
    have hy : S y := hp y (List.mem_cons_self ..)
    refine List.forall_mem_cons.2 ⟨hy, ?_⟩
    have hxy : x ≠ y := fun h => hx (h ▸ hy)
    rw [set_comm hM hxy]
    exact ih fun z hz => hp z (List.mem_cons_of_mem y hz)
  | fault => exact hp

/-! ### Where the stores go -/

variable {T : ℓ → Prop}

theorem storesIn_bind {p : Prog V α} {f : α → Prog V β} (hp : p.StoresIn S)
    (hf : ∀ a, (f a).StoresIn S) : (p >>= f).StoresIn S := by
  show (p.bind f).StoresIn S
  induction p with
  | ret a => exact hf a
  | load x k ih => exact fun v => ih v (hp v)
  | store x v p ih => exact ⟨hp.1, ih hp.2⟩
  | fault => trivial

theorem storesBefore_bind {p : Prog V α} {f : α → Prog V β} (hp : p.StoresIn S)
    (hf : ∀ a, (f a).StoresBefore S) : (p >>= f).StoresBefore S := by
  show (p.bind f).StoresBefore S
  induction p with
  | ret a => exact hf a
  | load x k ih => exact fun v => ih v (hp v)
  | store x v p ih => exact ⟨fun _ => hp.1, ih hp.2⟩
  | fault => trivial

theorem storesIn_orFault (a : Option α) : (orFault a : Prog V α).StoresIn S := by
  cases a <;> trivial

/-- An access that is not the last one changes nothing or a cell of `S`. -/
theorem StoresBefore.next (h : p.StoresBefore S) (hp : p.Stays M T m)
    (hn : p.next M m = some (q, n)) :
    q.StoresBefore S ∧ (q.result? = none → n = m ∨ ∃ x v, S x ∧ T x ∧ n = M.set m x v) := by
  cases p with
  | ret a => cases hn
  | load x k => cases hn; exact ⟨h _, fun _ => Or.inl rfl⟩
  | store x v p =>
    cases hn
    exact ⟨h.2, fun hq => Or.inr ⟨x, v, h.1 hq, hp x (List.mem_cons_self ..), rfl⟩⟩
  | fault => cases hn

/-! ### How many accesses there are -/

section

variable {k n : ℕ}

theorem atMost_pure (a : α) (n : ℕ) : (pure a : Prog V α).AtMost n := by
  cases n <;> trivial

theorem AtMost.mono {p : Prog V α} (hp : p.AtMost k) (hk : k ≤ n) : p.AtMost n := by
  induction p generalizing k n with
  | ret a => exact atMost_pure a n
  | load x f ih =>
    obtain _ | k := k
    · exact hp.elim
    · obtain _ | n := n
      · omega
      · exact fun v => ih v (hp v) (by omega)
  | store x v p ih =>
    obtain _ | k := k
    · exact hp.elim
    · obtain _ | n := n
      · omega
      · exact ih (k := k) hp (by omega)
  | fault =>
    obtain _ | k := k
    · exact hp.elim
    · obtain _ | n := n
      · omega
      · trivial

/-- The accesses of a sequence add up. -/
theorem AtMost.bind {p : Prog V α} {f : α → Prog V β} (hp : p.AtMost k)
    (hf : ∀ a, (f a).AtMost n) : (p >>= f).AtMost (k + n) := by
  show (p.bind f).AtMost (k + n)
  induction p generalizing k with
  | ret a => exact (hf a).mono (by omega)
  | load x g ih =>
    obtain _ | k := k
    · exact hp.elim
    · rw [Nat.add_right_comm]
      exact fun v => ih v (hp v)
  | store x v p ih =>
    obtain _ | k := k
    · exact hp.elim
    · rw [Nat.add_right_comm]
      exact ih (k := k) hp
  | fault =>
    obtain _ | k := k
    · exact hp.elim
    · rw [Nat.add_right_comm]
      trivial

/-- One access is one less to make. -/
theorem AtMost.next {m' : μ} (hp : p.AtMost k) (h : p.next M m = some (q, m')) :
    ∃ j, k = j + 1 ∧ q.AtMost j := by
  cases p with
  | ret a => cases h
  | load x f =>
    cases h
    obtain _ | k := k
    · exact hp.elim
    · exact ⟨k, rfl, hp _⟩
  | store x v p =>
    cases h
    obtain _ | k := k
    · exact hp.elim
    · exact ⟨k, rfl, hp⟩
  | fault => cases h

end

end Prog

/-! ### One memory kept in another -/

variable {ν : Type} {M : Cells μ V} {N : Cells ν V} {I : μ → Prop} {φ : μ → ν}

/-- While `I` holds of it, the memory `M` keeps the memory `N`. -/
structure Cells.Refines (M : Cells μ V) (N : Cells ν V) (I : μ → Prop) (φ : μ → ν) : Prop where
  get_eq : ∀ {m x}, I m → N.get (φ m) x = M.get m x
  set_eq : ∀ {m x v}, I m → φ (M.set m x v) = N.set (φ m) x v
  inv_set : ∀ {m x v}, I m → I (M.set m x v)

/-- **A program takes the same accesses on either memory.** -/
theorem Cells.Refines.next (h : M.Refines N I φ) (p : Prog V α) {m : μ} (hm : I m) :
    (p.next M m).map (Prod.map id φ) = p.next N (φ m) := by
  cases p with
  | ret a => rfl
  | load x k =>
    show some (k (M.get m x), φ m) = some (k (N.get (φ m) x), φ m)
    rw [h.get_eq hm]
  | store x v p =>
    show some (p, φ (M.set m x v)) = some (p, N.set (φ m) x v)
    rw [h.set_eq hm]
  | fault => rfl

theorem Cells.Refines.inv_next (h : M.Refines N I φ) {p q : Prog V α} {m n : μ} (hm : I m)
    (hn : p.next M m = some (q, n)) : I n := by
  cases p with
  | ret a => cases hn
  | load x k => cases hn; exact hm
  | store x v p => cases hn; exact h.inv_set hm
  | fault => cases hn

end Access

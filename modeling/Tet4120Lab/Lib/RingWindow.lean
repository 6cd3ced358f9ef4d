import Mathlib.Data.Fin.Basic
import Mathlib.Data.Nat.ModEq
import Mathlib.Data.List.Basic
import Mathlib.Logic.Function.Basic

/-!
# A window of an unbounded sequence kept in a ring

A ring of `N` slots holds the elements number `lo, …, xs.length - 1` of a growing sequence `xs`,
element number `i` in slot `(base + i) % N`.  One slot always stays free, so the two residues
`(base + lo) % N` and `(base + xs.length) % N` tell an empty window from a full one.

* `RingWindow rep slots base xs lo`: slot number `i` of the window represents `xs[i]`;
* `update_free`, `push`, `pop`: writing the free slot, publishing it, giving up the oldest slot;
* `mod_eq_iff`, `succ_mod_ne_iff`: the empty and the full test on the residues.

The element type, the slot type and the relation `rep` between them are arbitrary.
-/

/-- The elements number `lo, …, xs.length - 1` of `xs` lie in the ring, with one slot to spare. -/
structure RingWindow {N : ℕ} [NeZero N] {σ α : Type*} (rep : σ → α → Prop) (slots : Fin N → σ)
    (base : ℕ) (xs : List α) (lo : ℕ) : Prop where
  lo_le : lo ≤ xs.length
  room : xs.length < lo + N
  slot : ∀ (i : ℕ) (hi : i < xs.length), lo ≤ i → rep (slots (Fin.ofNat N (base + i))) xs[i]

namespace RingWindow

/-! ### Residues -/

theorem mod_eq_iff {N a b : ℕ} (hab : a ≤ b) (hbN : b < a + N) : a % N = b % N ↔ a = b := by
  constructor
  · intro h
    obtain ⟨d, rfl⟩ := Nat.exists_eq_add_of_le hab
    have hd : d < N := by omega
    have hdvd : N ∣ a + d - a := (Nat.modEq_iff_dvd' hab).1 h
    rw [Nat.add_sub_cancel_left] at hdvd
    have hd0 : d = 0 := Nat.eq_zero_of_dvd_of_lt hdvd hd
    omega
  · rintro rfl; rfl

theorem succ_mod_ne_iff {N a b : ℕ} (hab : a ≤ b) (hbN : b < a + N) :
    (b + 1) % N ≠ a % N ↔ b + 1 < a + N := by
  constructor
  · intro h
    by_contra hge
    have hb : b + 1 = a + N := by omega
    exact h (by rw [hb, Nat.add_mod_right])
  · intro hlt h
    have := (mod_eq_iff (by omega) hlt).1 h.symm
    omega

variable {N : ℕ} [NeZero N] {σ α : Type*} {rep : σ → α → Prop} {slots : Fin N → σ}
  {base : ℕ} {xs : List α} {lo : ℕ}

/-- The free slot: the one the next element goes to. -/
theorem ofNat_ne_of_lt (h : RingWindow rep slots base xs lo) {i : ℕ} (hlo : lo ≤ i)
    (hi : i < xs.length) : Fin.ofNat N (base + i) ≠ Fin.ofNat N (base + xs.length) := by
  have := h.room
  intro heq
  have hval : (base + i) % N = (base + xs.length) % N := congrArg Fin.val heq
  have := (mod_eq_iff (by omega) (by omega)).1 hval
  omega

/-- Writing the free slot touches no element of the window. -/
theorem update_free (h : RingWindow rep slots base xs lo) (v : σ) :
    RingWindow rep (Function.update slots (Fin.ofNat N (base + xs.length)) v) base xs lo where
  lo_le := h.lo_le
  room := h.room
  slot i hi hlo := by
    rw [Function.update_of_ne (h.ofNat_ne_of_lt hlo hi)]
    exact h.slot i hi hlo

/-- Publishing the free slot, when one more stays free. -/
theorem push (h : RingWindow rep slots base xs lo) {x : α}
    (hx : rep (slots (Fin.ofNat N (base + xs.length))) x) (hroom : xs.length + 1 < lo + N) :
    RingWindow rep slots base (xs ++ [x]) lo where
  lo_le := by have := h.lo_le; simp; omega
  room := by simpa using hroom
  slot i hi hlo := by
    by_cases hold : i < xs.length
    · rw [List.getElem_append_left hold]
      exact h.slot i hold hlo
    · have hi' : i = xs.length := by simp at hi; omega
      subst hi'
      simpa using hx

/-- Giving up the oldest slot. -/
theorem pop (h : RingWindow rep slots base xs lo) (hne : lo < xs.length) :
    RingWindow rep slots base xs (lo + 1) where
  lo_le := hne
  room := by have := h.room; omega
  slot i hi hlo := h.slot i hi (by omega)

/-- The oldest element of a window that is not empty. -/
theorem head (h : RingWindow rep slots base xs lo) (hne : lo < xs.length) :
    rep (slots (Fin.ofNat N (base + lo))) xs[lo] :=
  h.slot lo hne le_rfl

end RingWindow

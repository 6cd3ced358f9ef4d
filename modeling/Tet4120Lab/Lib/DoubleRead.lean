import Mathlib.Order.Monotone.Basic

/-!
# Reading a wide register half by half

A register is read in two accesses, one for its high and one for its low part, while its value may
change before every access: `c k` is the value at access number `k`.  The loop reads high, low and
high again, and starts over when the two high parts differ.

* `readLoop`: the loop, from access `k` on, with the number of the next access after it;
* `readLoop_eq_some`: if the high part never falls, the loop returns the value that the register had at
  one of its accesses, so a read takes effect at one moment within the call;
* `readLoop_isSome`: each round that fails sees the high part rise, so `n + 1` rounds are enough when
  the high part rises by `n` steps at most.
-/

namespace DoubleRead

variable {α β γ δ : Type*} (high : α → β) (low : α → γ) (join : β → γ → δ)

/-- `do { h = high; l = low; } while (high != h)`, from access `k` on. -/
def readLoop [DecidableEq β] (c : ℕ → α) : ℕ → ℕ → Option (δ × ℕ)
  | 0, _ => none
  | fuel + 1, k =>
      if high (c (k + 2)) ≠ high (c k) then readLoop c fuel (k + 3)
      else some (join (high (c k)) (low (c (k + 1))), k + 3)

variable {high low join} {c : ℕ → α}

/-- Between two equal high parts the high part did not change. -/
theorem high_eq_of_between {ρ : Type*} [PartialOrder ρ] {rank : β → ρ}
    (hrank : Function.Injective rank) (hc : Monotone fun k => rank (high (c k))) {i j k : ℕ}
    (hij : i ≤ j) (hjk : j ≤ k) (h : high (c k) = high (c i)) : high (c j) = high (c i) :=
  hrank (le_antisymm (h ▸ hc hjk) (hc hij))

variable [DecidableEq β]

/-- **What the loop returns is the value at one access of the call.** -/
theorem readLoop_eq_some {ρ : Type*} [PartialOrder ρ] {rank : β → ρ}
    (hrank : Function.Injective rank) (hc : Monotone fun k => rank (high (c k))) {fuel k k' : ℕ}
    {v : δ} (h : readLoop high low join c fuel k = some (v, k')) :
    ∃ j, k < j ∧ j < k' ∧ v = join (high (c j)) (low (c j)) := by
  induction fuel generalizing k with
  | zero => cases h
  | succ fuel ih =>
    rw [readLoop] at h
    by_cases heq : high (c (k + 2)) = high (c k)
    · rw [if_neg (not_not.2 heq)] at h
      cases h
      have hmid : high (c (k + 1)) = high (c k) :=
        high_eq_of_between hrank hc (Nat.le_succ k) (Nat.le_succ (k + 1)) heq
      exact ⟨k + 1, Nat.lt_succ_self k, by omega, by rw [hmid]⟩
    · rw [if_pos heq] at h
      obtain ⟨j, hlo, hhi, hv⟩ := ih h
      exact ⟨j, by omega, hhi, hv⟩

/-- **The loop returns within `n + 1` rounds if the high part rises by at most `n` meanwhile.** -/
theorem readLoop_isSome {rank : β → ℕ} (hrank : Function.Injective rank)
    (hc : Monotone fun k => rank (high (c k))) {n k : ℕ}
    (h : rank (high (c (k + 3 * n + 2))) ≤ rank (high (c k)) + n) :
    (readLoop high low join c (n + 1) k).isSome = true := by
  induction n generalizing k with
  | zero =>
    have heq : high (c (k + 2)) = high (c k) := hrank (le_antisymm h (hc (Nat.le_add_right k 2)))
    rw [readLoop, if_neg (not_not.2 heq)]
    rfl
  | succ n ih =>
    rw [readLoop]
    by_cases heq : high (c (k + 2)) = high (c k)
    · rw [if_neg (not_not.2 heq)]
      rfl
    · -- this round saw the high part rise
      have hrise : rank (high (c k)) < rank (high (c (k + 2))) :=
        lt_of_le_of_ne (hc (Nat.le_add_right k 2)) fun hr => heq (hrank hr).symm
      have hnext : rank (high (c (k + 2))) ≤ rank (high (c (k + 3))) := hc (Nat.le_succ (k + 2))
      rw [if_pos heq]
      refine ih ?_
      rw [show k + 3 + 3 * n + 2 = k + 3 * (n + 1) + 2 by omega]
      omega

end DoubleRead

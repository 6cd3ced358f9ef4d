import Mathlib.Algebra.Order.Archimedean.Basic
import Mathlib.Data.Int.Log
import Mathlib.Data.Rat.Floor
import Mathlib.Tactic.FieldSimp
import Mathlib.Tactic.Linarith
import Mathlib.Tactic.Positivity

/-!
# Rounding to nearest, ties to even

Binary floating point with a `p`-bit significand and an unbounded exponent, over the rationals.

* `roundHalfEven x`: the integer nearest to `x`, the even one of two;
* `ulpExp p x`: the exponent of a unit in the last place of `x`;
* `roundNE p x`: `x` rounded to a multiple of that unit;
* `roundNE_of_representable`, `roundNE_neg`, `roundNE_mono`: a representable number is its own
  rounding, and rounding is odd and monotone;
* `IsRounding`: what these three facts say, for any function;
* `IsFormat`: the representable numbers are what is rounded to, and reach beyond every bound;
* `exists_ne_rnd`: adding large multiples of a number changes every other number.
-/

namespace Rounding

/-- `x` is an integer of less than `p` bits times a power of two. -/
def Representable (p : ℕ) (x : ℚ) : Prop := ∃ m e : ℤ, |m| < 2 ^ p ∧ x = m * 2 ^ e

/-- The nearest integer; of two nearest integers the even one. -/
def roundHalfEven (x : ℚ) : ℤ :=
  if x - ⌊x⌋ < 1 / 2 then ⌊x⌋
  else if 1 / 2 < x - ⌊x⌋ then ⌊x⌋ + 1
  else if ⌊x⌋ % 2 = 0 then ⌊x⌋ else ⌊x⌋ + 1

/-- The exponent of a unit in the last place of `x ≠ 0`. -/
def ulpExp (p : ℕ) (x : ℚ) : ℤ := Int.log 2 |x| + 1 - p

/-- `x` rounded to a `p`-bit significand. -/
def roundNE (p : ℕ) (x : ℚ) : ℚ :=
  if x = 0 then 0 else roundHalfEven (x / 2 ^ ulpExp p x) * 2 ^ ulpExp p x

/-! ### The nearest integer -/

@[simp] theorem roundHalfEven_intCast (n : ℤ) : roundHalfEven n = n := by
  simp [roundHalfEven]

theorem roundHalfEven_eq {x : ℚ} {n : ℤ} (hle : |x - n| ≤ 1 / 2)
    (htie : |x - n| = 1 / 2 → n % 2 = 0) : roundHalfEven x = n := by
  have hfloor := Int.floor_le x
  have hlt := Int.lt_floor_add_one x
  obtain ⟨hlo, hhi⟩ := abs_le.1 hle
  -- `n` is the floor of `x` or the next integer
  have hcases : n = ⌊x⌋ ∨ n = ⌊x⌋ + 1 := by
    have h1 : ((⌊x⌋ : ℤ) : ℚ) < ((n + 1 : ℤ) : ℚ) := by push_cast; linarith
    have h2 : ((n : ℤ) : ℚ) < ((⌊x⌋ + 2 : ℤ) : ℚ) := by push_cast; linarith
    have h1' := Int.cast_lt.1 h1
    have h2' := Int.cast_lt.1 h2
    omega
  unfold roundHalfEven
  rcases hcases with rfl | rfl
  · rcases lt_or_eq_of_le hhi with hlt' | heq
    · rw [if_pos hlt']
    · have heven := htie (by rw [heq]; norm_num)
      rw [if_neg (by linarith), if_neg (by linarith), if_pos heven]
  · push_cast at hlo hhi htie
    rcases lt_or_eq_of_le (show (1 : ℚ) / 2 ≤ x - ⌊x⌋ by linarith) with hgt | heq
    · rw [if_neg (by linarith), if_pos hgt]
    · have hodd : (⌊x⌋ + 1) % 2 = 0 :=
        htie (by rw [show x - (⌊x⌋ + 1 : ℚ) = -(1 / 2) by linarith]; norm_num)
      rw [if_neg (by linarith), if_neg (by linarith), if_neg (by omega)]

/-- The nearest integer is at most a half away, and even if it is a half away. -/
theorem roundHalfEven_spec (x : ℚ) : |x - roundHalfEven x| ≤ 1 / 2 ∧
    (|x - roundHalfEven x| = 1 / 2 → roundHalfEven x % 2 = 0) := by
  have hfloor := Int.floor_le x
  have hlt := Int.lt_floor_add_one x
  unfold roundHalfEven
  split_ifs with h1 h2 h3
  · rw [abs_of_nonneg (by linarith)]
    exact ⟨h1.le, fun h => absurd h h1.ne⟩
  · push_cast
    rw [abs_of_nonpos (by linarith)]
    exact ⟨by linarith, fun h => by linarith⟩
  · rw [abs_of_nonneg (by linarith)]
    exact ⟨by linarith, fun _ => h3⟩
  · push_cast
    rw [abs_of_nonpos (by linarith)]
    exact ⟨by linarith, fun _ => by omega⟩

theorem roundHalfEven_neg (x : ℚ) : roundHalfEven (-x) = -roundHalfEven x := by
  obtain ⟨hle, htie⟩ := roundHalfEven_spec x
  have habs : |-x - ((-roundHalfEven x : ℤ) : ℚ)| = |x - roundHalfEven x| := by
    push_cast
    rw [← abs_neg]
    ring_nf
  refine roundHalfEven_eq (habs ▸ hle) fun h => ?_
  have := htie (habs ▸ h)
  omega

theorem roundHalfEven_mono {x y : ℚ} (hxy : x ≤ y) : roundHalfEven x ≤ roundHalfEven y := by
  by_contra hlt
  obtain ⟨hx, -⟩ := roundHalfEven_spec x
  obtain ⟨hy, -⟩ := roundHalfEven_spec y
  have hgap : ((roundHalfEven y + 1 : ℤ) : ℚ) ≤ roundHalfEven x := by exact_mod_cast Int.not_le.1 hlt
  push_cast at hgap
  -- both are half way between the two integers, so they are equal
  have heq : x = y := by linarith [(abs_le.1 hx).1, (abs_le.1 hy).2]
  exact hlt (heq ▸ le_rfl)

theorem le_roundHalfEven {n : ℤ} {x : ℚ} (h : (n : ℚ) ≤ x) : n ≤ roundHalfEven x := by
  simpa using roundHalfEven_mono h

theorem roundHalfEven_le {n : ℤ} {x : ℚ} (h : x ≤ n) : roundHalfEven x ≤ n := by
  simpa using roundHalfEven_mono h

/-! ### Representable numbers -/

theorem two_zpow_sub_one (e : ℤ) : (2 : ℚ) ^ (e - 1) = 2 ^ e / 2 := by
  rw [zpow_sub₀ (by norm_num), zpow_one]

theorem two_pow_mul_zpow (p : ℕ) (e : ℤ) : (2 : ℚ) ^ p * 2 ^ e = 2 ^ (p + e) := by
  rw [zpow_add₀ (by norm_num), zpow_natCast]

/-- A multiple of a power of two is a multiple of the smaller powers of two. -/
theorem exists_int_mul (m : ℤ) {q e : ℤ} (h : q ≤ e) : ∃ n : ℤ, (m : ℚ) * 2 ^ e = n * 2 ^ q := by
  obtain ⟨k, hk⟩ := Int.eq_ofNat_of_zero_le (Int.sub_nonneg.2 h)
  refine ⟨m * 2 ^ k, ?_⟩
  push_cast
  rw [mul_assoc, ← zpow_natCast, ← zpow_add₀ (by norm_num), ← hk, Int.sub_add_cancel]

@[simp] theorem roundNE_zero (p : ℕ) : roundNE p 0 = 0 := if_pos rfl

theorem representable_intCast {p : ℕ} {n : ℤ} (h : |n| < 2 ^ p) : Representable p n :=
  ⟨n, 0, h, by simp⟩

/-- The unit in the last place of a representable number divides it. -/
theorem ulpExp_le {p : ℕ} {x : ℚ} {m e : ℤ} (hx : x ≠ 0) (hm : |m| < 2 ^ p) (h : x = m * 2 ^ e) :
    ulpExp p x ≤ e := by
  have hpos : 0 < |x| := abs_pos.2 hx
  have hpow : (0 : ℚ) < 2 ^ e := zpow_pos (by norm_num) e
  have hm' : (|m| : ℚ) < 2 ^ p := by exact_mod_cast hm
  have hlt : |x| < ((2 : ℕ) : ℚ) ^ ((p : ℤ) + e) := by
    calc |x| = |(m : ℚ)| * 2 ^ e := by rw [h, abs_mul, abs_of_pos hpow]
      _ < 2 ^ p * 2 ^ e := mul_lt_mul_of_pos_right hm' hpow
      _ = ((2 : ℕ) : ℚ) ^ ((p : ℤ) + e) := by rw [two_pow_mul_zpow, Nat.cast_ofNat]
  have hlog := (Int.lt_zpow_iff_log_lt (by norm_num) hpos).1 hlt
  unfold ulpExp
  omega

/-- **A representable number is its own rounding.** -/
theorem roundNE_of_representable {p : ℕ} {x : ℚ} (h : Representable p x) : roundNE p x = x := by
  obtain ⟨m, e, hm, hx⟩ := h
  by_cases hx0 : x = 0
  · simp [hx0]
  · have hulp : (2 : ℚ) ^ ulpExp p x ≠ 0 := zpow_ne_zero _ (by norm_num)
    -- in units of the last place `x` is an integer
    obtain ⟨n, hn⟩ := exists_int_mul m (ulpExp_le hx0 hm hx)
    have hquot : x / 2 ^ ulpExp p x = n := by rw [div_eq_iff hulp, ← hn, ← hx]
    rw [roundNE, if_neg hx0, hquot, roundHalfEven_intCast, ← hquot, div_mul_cancel₀ _ hulp]

theorem roundNE_intCast {p : ℕ} {n : ℤ} (h : |n| < 2 ^ p) : roundNE p n = n :=
  roundNE_of_representable (representable_intCast h)

/-! ### Binades -/

theorem representable_of_abs_le {p : ℕ} (hp : 0 < p) {m : ℤ} (hm : |m| ≤ 2 ^ p) (e : ℤ) :
    Representable p (m * 2 ^ e) := by
  rcases lt_or_eq_of_le hm with hlt | heq
  · exact ⟨m, e, hlt, rfl⟩
  · -- a significand of `2 ^ p` is a power of two
    have hone : |(1 : ℤ)| < 2 ^ p := by
      rw [abs_one]
      exact one_lt_pow₀ (by norm_num) hp.ne'
    have hpow := two_pow_mul_zpow p e
    rcases (abs_eq (by positivity)).1 heq with rfl | rfl
    · exact ⟨1, p + e, hone, by push_cast; rw [hpow]; ring⟩
    · exact ⟨-1, p + e, by simpa using hone, by push_cast; rw [neg_mul, hpow]; ring⟩

theorem Representable.neg {p : ℕ} {x : ℚ} (h : Representable p x) : Representable p (-x) := by
  obtain ⟨m, e, hm, rfl⟩ := h
  exact ⟨-m, e, by rwa [abs_neg], by push_cast; ring⟩

@[simp] theorem ulpExp_neg (p : ℕ) (x : ℚ) : ulpExp p (-x) = ulpExp p x := by
  rw [ulpExp, abs_neg, ulpExp]

theorem roundNE_neg (p : ℕ) (x : ℚ) : roundNE p (-x) = -roundNE p x := by
  by_cases hx : x = 0
  · simp [hx]
  · rw [roundNE, roundNE, if_neg hx, if_neg (neg_ne_zero.2 hx), ulpExp_neg, neg_div,
      roundHalfEven_neg]
    push_cast
    ring

/-- In the binade below `2 ^ p * 2 ^ e` the unit in the last place is `2 ^ e`. -/
theorem ulpExp_eq {p : ℕ} {x : ℚ} {e : ℤ} (hlo : 2 ^ p * 2 ^ (e - 1) ≤ x)
    (hhi : x < 2 ^ p * 2 ^ e) : ulpExp p x = e := by
  rw [two_pow_mul_zpow] at hlo hhi
  have hpos : 0 < x := lt_of_lt_of_le (zpow_pos (by norm_num) _) hlo
  have h1 : p + (e - 1) ≤ Int.log 2 x :=
    (Int.zpow_le_iff_le_log (by norm_num) hpos).1 (by exact_mod_cast hlo)
  have h2 : Int.log 2 x < p + e :=
    (Int.lt_zpow_iff_log_lt (by norm_num) hpos).1 (by exact_mod_cast hhi)
  unfold ulpExp
  rw [abs_of_pos hpos]
  omega

/-- Every positive number lies in the binade of its unit in the last place. -/
theorem binade_ulpExp (p : ℕ) {x : ℚ} (hx : 0 < x) :
    2 ^ p * 2 ^ (ulpExp p x - 1) ≤ x ∧ x < 2 ^ p * 2 ^ ulpExp p x := by
  have hlo := Int.zpow_log_le_self (b := 2) (by norm_num) hx
  have hhi := Int.lt_zpow_succ_log_self (b := 2) (by norm_num) x
  have hexp : ulpExp p x = Int.log 2 x + 1 - p := by rw [ulpExp, abs_of_pos hx]
  rw [two_pow_mul_zpow, two_pow_mul_zpow, show (p : ℤ) + (ulpExp p x - 1) = Int.log 2 x by omega,
    show (p : ℤ) + ulpExp p x = Int.log 2 x + 1 by omega]
  exact ⟨by exact_mod_cast hlo, by exact_mod_cast hhi⟩

theorem roundNE_of_pos {p : ℕ} {x : ℚ} (hx : 0 < x) :
    roundNE p x = roundHalfEven (x / 2 ^ ulpExp p x) * 2 ^ ulpExp p x := if_neg hx.ne'

/-- Rounding does not leave the closed binade. -/
theorem roundNE_mem_binade {p : ℕ} (hp : 0 < p) {x : ℚ} (hx : 0 < x) :
    2 ^ p * 2 ^ (ulpExp p x - 1) ≤ roundNE p x ∧ roundNE p x ≤ 2 ^ p * 2 ^ ulpExp p x := by
  obtain ⟨hlo, hhi⟩ := binade_ulpExp p hx
  obtain ⟨q, rfl⟩ : ∃ q, p = q + 1 := ⟨p - 1, by omega⟩
  rw [roundNE_of_pos hx]
  generalize ulpExp (q + 1) x = e at *
  have hunit : (0 : ℚ) < 2 ^ e := zpow_pos (by norm_num) e
  -- both bounds are whole units
  have hlow : (2 : ℚ) ^ (q + 1) * 2 ^ (e - 1) = ((2 ^ q : ℤ) : ℚ) * 2 ^ e := by
    rw [two_zpow_sub_one]
    push_cast
    ring
  have hhigh : (2 : ℚ) ^ (q + 1) * 2 ^ e = ((2 ^ (q + 1) : ℤ) : ℚ) * 2 ^ e := by push_cast; rfl
  rw [hlow] at hlo ⊢
  rw [hhigh] at hhi ⊢
  have h1 : (2 ^ q : ℤ) ≤ roundHalfEven (x / 2 ^ e) := le_roundHalfEven ((le_div_iff₀ hunit).2 hlo)
  have h2 : roundHalfEven (x / 2 ^ e) ≤ (2 ^ (q + 1) : ℤ) :=
    roundHalfEven_le ((div_le_iff₀ hunit).2 hhi.le)
  exact ⟨mul_le_mul_of_nonneg_right (Int.cast_le.2 h1) hunit.le,
    mul_le_mul_of_nonneg_right (Int.cast_le.2 h2) hunit.le⟩

theorem roundNE_pos {p : ℕ} (hp : 0 < p) {x : ℚ} (hx : 0 < x) : 0 < roundNE p x :=
  (mul_pos (pow_pos (by norm_num) p) (zpow_pos (by norm_num) _)).trans_le (roundNE_mem_binade hp hx).1

theorem roundNE_nonneg {p : ℕ} (hp : 0 < p) {x : ℚ} (hx : 0 ≤ x) : 0 ≤ roundNE p x := by
  rcases hx.eq_or_lt with rfl | hpos
  · simp
  · exact (roundNE_pos hp hpos).le

theorem roundNE_mono_of_pos {p : ℕ} (hp : 0 < p) {x y : ℚ} (hx : 0 < x) (hxy : x ≤ y) :
    roundNE p x ≤ roundNE p y := by
  have hy : 0 < y := hx.trans_le hxy
  have hexp : ulpExp p x ≤ ulpExp p y := by
    have := Int.log_mono_right (b := 2) hx hxy
    rw [ulpExp, ulpExp, abs_of_pos hx, abs_of_pos hy]
    omega
  rcases hexp.eq_or_lt with heq | hlt
  · have hunit : (0 : ℚ) < 2 ^ ulpExp p y := zpow_pos (by norm_num) _
    rw [roundNE_of_pos hx, roundNE_of_pos hy, heq]
    have := roundHalfEven_mono ((div_le_div_iff_of_pos_right hunit).2 hxy)
    exact mul_le_mul_of_nonneg_right (Int.cast_le.2 this) hunit.le
  · -- a power of two lies between the two binades
    have hpow : (2 : ℚ) ^ ulpExp p x ≤ 2 ^ (ulpExp p y - 1) :=
      zpow_le_zpow_right₀ (by norm_num) (by omega)
    calc roundNE p x ≤ 2 ^ p * 2 ^ ulpExp p x := (roundNE_mem_binade hp hx).2
      _ ≤ 2 ^ p * 2 ^ (ulpExp p y - 1) := mul_le_mul_of_nonneg_left hpow (pow_pos (by norm_num) p).le
      _ ≤ roundNE p y := (roundNE_mem_binade hp hy).1

/-- **Rounding is monotone.** -/
theorem roundNE_mono {p : ℕ} (hp : 0 < p) : Monotone (roundNE p) := by
  intro x y hxy
  rcases lt_or_ge 0 x with hx | hx
  · exact roundNE_mono_of_pos hp hx hxy
  · rcases lt_or_ge y 0 with hy | hy
    · have h := roundNE_mono_of_pos hp (neg_pos.2 hy) (neg_le_neg hxy)
      rw [roundNE_neg, roundNE_neg] at h
      exact neg_le_neg_iff.1 h
    · have h := roundNE_nonneg hp (neg_nonneg.2 hx)
      rw [roundNE_neg] at h
      exact (neg_nonneg.1 h).trans (roundNE_nonneg hp hy)

theorem representable_roundNE {p : ℕ} (hp : 0 < p) (x : ℚ) : Representable p (roundNE p x) := by
  have hpos : ∀ {x : ℚ}, 0 < x → Representable p (roundNE p x) := by
    intro x hx
    have hunit : (0 : ℚ) < 2 ^ ulpExp p x := zpow_pos (by norm_num) _
    have hhi := (roundNE_mem_binade hp hx).2
    have hnonneg := roundNE_nonneg hp hx.le
    rw [roundNE_of_pos hx] at hhi hnonneg ⊢
    have h1 : ((roundHalfEven (x / 2 ^ ulpExp p x) : ℤ) : ℚ) ≤ ((2 ^ p : ℤ) : ℚ) := by
      push_cast
      exact le_of_mul_le_mul_right hhi hunit
    have h0 : ((0 : ℤ) : ℚ) ≤ roundHalfEven (x / 2 ^ ulpExp p x) := by
      push_cast
      exact nonneg_of_mul_nonneg_left hnonneg hunit
    refine representable_of_abs_le hp ?_ _
    rw [abs_of_nonneg (Int.cast_le.1 h0)]
    exact Int.cast_le.1 h1
  rcases lt_trichotomy x 0 with hx | rfl | hx
  · have h := (hpos (neg_pos.2 hx)).neg
    rwa [roundNE_neg, neg_neg] at h
  · rw [roundNE_zero]
    exact ⟨0, 0, by simp, by simp⟩
  · exact hpos hx

theorem representable_succ {p : ℕ} (hp : 0 < p) {m : ℤ} (h0 : 0 ≤ m) (hm : m < 2 ^ p) (e : ℤ) :
    Representable p ((m + 1 : ℤ) * 2 ^ e) := by
  refine representable_of_abs_le hp ?_ e
  rw [abs_of_nonneg (by omega)]
  omega

/-- Below `2 ^ p * 2 ^ q` the next representable number is at most `2 ^ q` away. -/
theorem Representable.exists_gt {p : ℕ} (hp : 0 < p) {t : ℚ} (ht : Representable p t)
    (hnonneg : 0 ≤ t) {q : ℤ} (hlt : t < 2 ^ p * 2 ^ q) :
    ∃ r, Representable p r ∧ t < r ∧ r ≤ t + 2 ^ q := by
  -- `t` is a multiple of a power of two that is at most `2 ^ q`
  have hmul : ∃ n k : ℤ, t = n * 2 ^ k ∧ n < 2 ^ p ∧ k ≤ q := by
    obtain ⟨m, e, hm, rfl⟩ := ht
    rcases le_total e q with heq | hqe
    · exact ⟨m, e, rfl, (abs_lt.1 hm).2, heq⟩
    · obtain ⟨n, hn⟩ := exists_int_mul m hqe
      rw [hn] at hlt ⊢
      have h := lt_of_mul_lt_mul_right hlt (zpow_pos (by norm_num) q).le
      exact ⟨n, q, rfl, by exact_mod_cast h, le_rfl⟩
  obtain ⟨n, k, rfl, hn, hkq⟩ := hmul
  have hunit : (0 : ℚ) < 2 ^ k := zpow_pos (by norm_num) k
  have hpow : (2 : ℚ) ^ k ≤ 2 ^ q := zpow_le_zpow_right₀ (by norm_num) hkq
  have hn0 : 0 ≤ n := by
    have h : (0 : ℚ) ≤ n := nonneg_of_mul_nonneg_left hnonneg hunit
    exact_mod_cast h
  refine ⟨(n + 1 : ℤ) * 2 ^ k, representable_succ hp hn0 hn k, ?_, ?_⟩
  · push_cast
    linarith
  · push_cast
    linarith

/-! ### Roundings in general -/

/-- A monotone, odd function that fixes the representable numbers. -/
structure IsRounding {α : Type*} [Preorder α] [Neg α] (rep : α → Prop) (rnd : α → α) : Prop where
  mono : Monotone rnd
  neg : ∀ x, rnd (-x) = -rnd x
  fix : ∀ x, rep x → rnd x = x

theorem isRounding_roundNE {p : ℕ} (hp : 0 < p) : IsRounding (Representable p) (roundNE p) where
  mono := roundNE_mono hp
  neg := roundNE_neg p
  fix _ := roundNE_of_representable

namespace IsRounding

variable {K : Type*} [Field K] [LinearOrder K] [IsStrictOrderedRing K] {rep : K → Prop}
  {rnd : K → K}

theorem zero (h : IsRounding rep rnd) : rnd 0 = 0 := by
  have h0 := h.neg 0
  rw [neg_zero] at h0
  exact self_eq_neg.1 h0

theorem nonneg (h : IsRounding rep rnd) {x : K} (hx : 0 ≤ x) : 0 ≤ rnd x := by
  simpa [h.zero] using h.mono hx

end IsRounding

/-! ### Roundings to an unbounded format -/

/-- A rounding onto the representable numbers, which have `1` and are closed under doubling. -/
structure IsFormat {K : Type*} [Field K] [LinearOrder K] (rep : K → Prop) (rnd : K → K) : Prop
    extends IsRounding rep rnd where
  rep_rnd : ∀ x, rep (rnd x)
  one : rep 1
  double : ∀ x, rep x → rep (2 * x)

theorem isFormat_roundNE {p : ℕ} (hp : 0 < p) : IsFormat (Representable p) (roundNE p) where
  toIsRounding := isRounding_roundNE hp
  rep_rnd := representable_roundNE hp
  one := ⟨1, 0, by simpa using one_lt_pow₀ (one_lt_two : (1 : ℤ) < 2) hp.ne', by norm_num⟩
  double := by
    rintro x ⟨m, e, hm, rfl⟩
    exact ⟨m, e + 1, hm, by rw [zpow_add₀ two_ne_zero, zpow_one]; ring⟩

namespace IsFormat

variable {K : Type*} [Field K] [LinearOrder K] {rep : K → Prop} {rnd : K → K} {x : K}

theorem rep_neg (h : IsFormat rep rnd) (hx : rep x) : rep (-x) := by
  rw [← h.fix x hx, ← h.neg]
  exact h.rep_rnd (-x)

theorem rep_mul_two_pow (h : IsFormat rep rnd) (hx : rep x) (k : ℕ) : rep (x * 2 ^ k) := by
  induction k with
  | zero => simpa using hx
  | succ k ih =>
    have hsucc : x * 2 ^ (k + 1) = 2 * (x * 2 ^ k) := by ring
    rw [hsucc]
    exact h.double _ ih

theorem rep_two_pow (h : IsFormat rep rnd) (k : ℕ) : rep (2 ^ k) := by
  simpa using h.rep_mul_two_pow h.one k

variable [IsStrictOrderedRing K] [Archimedean K]

/-- Once a power of two times `x` exceeds `|y|`, twice that number is not absorbed by `y`. -/
theorem exists_lt_rnd (h : IsFormat rep rnd) (hx : rep x) (hpos : 0 < x) (y : K) :
    ∃ j, ∀ k, j ≤ k → y < rnd (x * 2 ^ k + y) := by
  obtain ⟨i, hi⟩ := pow_unbounded_of_one_lt (|y| / x) (one_lt_two : (1 : K) < 2)
  rw [div_lt_iff₀ hpos, mul_comm] at hi
  refine ⟨i + 1, fun k hk => ?_⟩
  have hpow : (2 : K) ^ (i + 1) ≤ 2 ^ k := pow_le_pow_right₀ one_le_two hk
  have hgrow : x * 2 ^ (i + 1) ≤ x * 2 ^ k := mul_le_mul_of_nonneg_left hpow hpos.le
  have htwice : x * 2 ^ (i + 1) = x * 2 ^ i + x * 2 ^ i := by ring
  calc
    y ≤ |y| := le_abs_self y
    _ < x * 2 ^ i := hi
    _ = rnd (x * 2 ^ i) := (h.fix _ (h.rep_mul_two_pow hx i)).symm
    _ ≤ rnd (x * 2 ^ k + y) := h.mono (by linarith [neg_abs_le y])

/-- **No number absorbs all the multiples of another by powers of two.** -/
theorem exists_ne_rnd (h : IsFormat rep rnd) (hx : rep x) (hne : x ≠ 0) (y : K) :
    ∃ j, ∀ k, j ≤ k → rnd (x * 2 ^ k + y) ≠ y := by
  rcases lt_or_gt_of_ne hne with hneg | hpos
  · obtain ⟨j, hj⟩ := h.exists_lt_rnd (h.rep_neg hx) (neg_pos.2 hneg) (-y)
    refine ⟨j, fun k hk heq => ?_⟩
    have hlt := hj k hk
    rw [neg_mul, ← neg_add, h.neg, heq] at hlt
    exact lt_irrefl _ hlt
  · obtain ⟨j, hj⟩ := h.exists_lt_rnd hx hpos y
    exact ⟨j, fun k hk => (hj k hk).ne'⟩

end IsFormat

end Rounding

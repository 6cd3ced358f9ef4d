import Tet4120Lab.Lib.Rounding

/-!
# Adding a constant over and over

A positive number `T` is added to `0` again and again, and the sum is rounded to `p` bits after
every addition.

* `accumulate p T n`: the sum after `n` additions;
* `stallPoint p T`: `2 ^ p` times the least power of two that is at least `T`;
* `accumulate_lt_succ_iff`: an addition makes the sum larger exactly when the sum is below that
  point;
* `exists_accumulate_lt_succ_iff`: that is so for the first `2 ^ p` additions at least, and for no
  addition after the first `2 ^ p + 2 ^ (p - 1)`.
-/

namespace Rounding

/-- The sum of `n` terms `T`, rounded after every addition. -/
def accumulate (p : ℕ) (T : ℚ) : ℕ → ℚ
  | 0 => 0
  | n + 1 => roundNE p (accumulate p T n + T)

theorem accumulate_succ (p : ℕ) (T : ℚ) (n : ℕ) :
    accumulate p T (n + 1) = roundNE p (accumulate p T n + T) := rfl

/-- From here on adding `T` changes nothing. -/
def stallPoint (p : ℕ) (T : ℚ) : ℚ := 2 ^ p * 2 ^ Int.clog 2 T

theorem stallPoint_pos (p : ℕ) (T : ℚ) : 0 < stallPoint p T :=
  mul_pos (pow_pos (by norm_num) p) (zpow_pos (by norm_num) _)

theorem le_clog (T : ℚ) : T ≤ 2 ^ Int.clog 2 T := by
  exact_mod_cast Int.self_le_zpow_clog (b := 2) (by norm_num) T

theorem clog_lt {T : ℚ} (hT : 0 < T) : 2 ^ (Int.clog 2 T - 1) < T := by
  exact_mod_cast Int.zpow_pred_clog_lt_self (b := 2) (by norm_num) hT

/-! ### One addition -/

section Addition

variable {p : ℕ} {T : ℚ} {c : ℤ}

/-- At `2 ^ p * 2 ^ c` a term of at most `2 ^ c` is at most half a unit in the last place. -/
theorem roundNE_add_eq_self (hp : 2 ≤ p) (hpos : 0 < T) (hT : T ≤ 2 ^ c) :
    roundNE p (2 ^ p * 2 ^ c + T) = 2 ^ p * 2 ^ c := by
  obtain ⟨q, rfl⟩ : ∃ q, p = q + 2 := ⟨p - 2, by omega⟩
  have hunit : (0 : ℚ) < 2 ^ c := zpow_pos (by norm_num) c
  have hsucc : (2 : ℚ) ^ (c + 1) = 2 * 2 ^ c := by rw [zpow_add_one₀ (by norm_num)]; ring
  have hunits : (2 : ℚ) ^ c < 2 ^ (q + 2) * 2 ^ c :=
    lt_mul_of_one_lt_left hunit (one_lt_pow₀ (by norm_num) (by omega))
  have hulp : ulpExp (q + 2) (2 ^ (q + 2) * 2 ^ c + T) = c + 1 := by
    refine ulpExp_eq ?_ ?_
    · rw [add_sub_cancel_right]
      linarith
    · rw [hsucc, mul_left_comm]
      linarith
  have hquot : (2 ^ (q + 2) * 2 ^ c + T) / 2 ^ (c + 1) - ((2 ^ (q + 1) : ℤ) : ℚ)
      = T / (2 * 2 ^ c) := by
    rw [hsucc]
    push_cast
    field_simp
    ring
  have hround : roundHalfEven ((2 ^ (q + 2) * 2 ^ c + T) / 2 ^ (c + 1)) = 2 ^ (q + 1) := by
    refine roundHalfEven_eq ?_ fun _ => ?_
    · rw [hquot, abs_of_pos (by positivity), div_le_div_iff₀ (by positivity) (by norm_num)]
      linarith
    · -- the tie goes to the power of two, whose significand is even
      rw [pow_succ, Int.mul_emod_left]
  rw [roundNE_of_pos (by positivity), hulp, hround, hsucc]
  push_cast
  ring

/-- In the last binade before that a term of more than half a unit counts as a whole one. -/
theorem roundNE_add_eq_add (hp : 0 < p) (hlo : 2 ^ (c - 1) < T) (hhi : T ≤ 2 ^ c) {m : ℤ}
    (hm : (2 : ℚ) ^ p * 2 ^ (c - 1) ≤ m * 2 ^ c) (hmp : m < 2 ^ p) :
    roundNE p (m * 2 ^ c + T) = m * 2 ^ c + 2 ^ c := by
  have hunit : (0 : ℚ) < 2 ^ c := zpow_pos (by norm_num) c
  have hm0 : 0 ≤ m := by
    have h := (mul_pos (pow_pos two_pos p) (zpow_pos two_pos _)).trans_le hm
    have h0 : (0 : ℚ) < m := pos_of_mul_pos_left h hunit.le
    exact_mod_cast h0.le
  have hnext : (m : ℚ) * 2 ^ c + 2 ^ c = (m + 1 : ℤ) * 2 ^ c := by push_cast; ring
  have hhalf := two_zpow_sub_one c
  rcases hhi.eq_or_lt with rfl | hlt
  · rw [hnext]
    exact roundNE_of_representable (representable_succ hp hm0 hmp c)
  · have hbound : (m : ℚ) + 1 ≤ 2 ^ p := by exact_mod_cast hmp
    have hulp : ulpExp p (m * 2 ^ c + T) = c := by
      refine ulpExp_eq (by linarith) ?_
      have := mul_le_mul_of_nonneg_right hbound hunit.le
      linarith
    have hquot : (m * 2 ^ c + T) / 2 ^ c - ((m + 1 : ℤ) : ℚ) = -(1 - T / 2 ^ c) := by
      push_cast
      field_simp
      ring
    have hhalf : 1 - T / 2 ^ c < 1 / 2 := by
      rw [sub_lt_comm, lt_div_iff₀ hunit]
      linarith
    have hnonneg : 0 ≤ 1 - T / 2 ^ c := by
      rw [sub_nonneg, div_le_one hunit]
      exact hhi
    have habs : |(m * 2 ^ c + T) / 2 ^ c - ((m + 1 : ℤ) : ℚ)| < 1 / 2 := by
      rw [hquot, abs_neg, abs_of_nonneg hnonneg]
      exact hhalf
    have hpos : 0 < m * 2 ^ c + T := by
      have h : (0 : ℚ) ≤ m := by exact_mod_cast hm0
      have hT : 0 < T := by linarith
      positivity
    rw [roundNE_of_pos hpos, hulp, roundHalfEven_eq habs.le fun h => absurd h habs.ne, hnext]

/-- A representable number of that binade is a multiple of its unit. -/
theorem Representable.exists_int_mul {t : ℚ} (ht : Representable p t)
    (hlo : (2 : ℚ) ^ p * 2 ^ (c - 1) ≤ t) (hhi : t < 2 ^ p * 2 ^ c) :
    ∃ m : ℤ, t = m * 2 ^ c ∧ m < 2 ^ p := by
  have hunit : (0 : ℚ) < 2 ^ c := zpow_pos (by norm_num) c
  obtain ⟨m, e, hm, rfl⟩ := ht
  have hce : c ≤ e := by
    by_contra hlt
    have hm' : (m : ℚ) < 2 ^ p := by exact_mod_cast (abs_lt.1 hm).2
    have hpow : (2 : ℚ) ^ e ≤ 2 ^ (c - 1) := zpow_le_zpow_right₀ (by norm_num) (by omega)
    have hlt' : (m : ℚ) * 2 ^ e < 2 ^ p * 2 ^ (c - 1) :=
      mul_lt_mul hm' hpow (zpow_pos (by norm_num) e) (by positivity)
    linarith
  obtain ⟨n, hn⟩ := Rounding.exists_int_mul m hce
  rw [hn] at hhi ⊢
  exact ⟨n, rfl, by exact_mod_cast lt_of_mul_lt_mul_right hhi hunit.le⟩

/-- **Below `2 ^ p * 2 ^ c` an addition makes a representable number larger.** -/
theorem lt_roundNE_add (hp : 0 < p) (hlo : 2 ^ (c - 1) < T) (hhi : T ≤ 2 ^ c) {t : ℚ}
    (ht : Representable p t) (hnonneg : 0 ≤ t) (hlt : t < 2 ^ p * 2 ^ c) :
    t < roundNE p (t + T) := by
  rcases lt_or_ge t (2 ^ p * 2 ^ (c - 1)) with hlow | htop
  · -- the next representable number is at most `T` away
    obtain ⟨r, hr, htr, hrt⟩ := ht.exists_gt hp hnonneg hlow
    calc t < r := htr
      _ = roundNE p r := (roundNE_of_representable hr).symm
      _ ≤ roundNE p (t + T) := roundNE_mono hp (by linarith)
  · obtain ⟨m, rfl, hm⟩ := ht.exists_int_mul htop hlt
    rw [roundNE_add_eq_add hp hlo hhi htop hm]
    exact lt_add_of_pos_right _ (zpow_pos (by norm_num) c)

end Addition

/-! ### The sum -/

section Sum

variable {p : ℕ} {T : ℚ}

theorem representable_accumulate (hp : 0 < p) (n : ℕ) : Representable p (accumulate p T n) := by
  cases n with
  | zero => exact ⟨0, 0, by simp, by simp [accumulate]⟩
  | succ n => exact representable_roundNE hp _

theorem accumulate_nonneg (hp : 0 < p) (hT : 0 < T) (n : ℕ) : 0 ≤ accumulate p T n := by
  induction n with
  | zero => exact le_rfl
  | succ n ih => exact roundNE_nonneg hp (by linarith)

theorem roundNE_stallPoint_add (hp : 2 ≤ p) (hT : 0 < T) :
    roundNE p (stallPoint p T + T) = stallPoint p T := roundNE_add_eq_self hp hT (le_clog T)

theorem accumulate_le_stallPoint (hp : 2 ≤ p) (hT : 0 < T) (n : ℕ) :
    accumulate p T n ≤ stallPoint p T := by
  induction n with
  | zero => exact (stallPoint_pos p T).le
  | succ n ih =>
    calc roundNE p (accumulate p T n + T)
        ≤ roundNE p (stallPoint p T + T) := roundNE_mono (by omega) (by linarith)
      _ = stallPoint p T := roundNE_stallPoint_add hp hT

/-- **An addition makes the sum larger exactly below the stall point.** -/
theorem accumulate_lt_succ_iff (hp : 2 ≤ p) (hT : 0 < T) (n : ℕ) :
    accumulate p T n < accumulate p T (n + 1) ↔ accumulate p T n < stallPoint p T := by
  constructor
  · intro h
    exact h.trans_le (accumulate_le_stallPoint hp hT (n + 1))
  · intro h
    exact lt_roundNE_add (by omega) (clog_lt hT) (le_clog T) (representable_accumulate (by omega) n)
      (accumulate_nonneg (by omega) hT n) h

theorem accumulate_mono (hp : 2 ≤ p) (hT : 0 < T) : Monotone (accumulate p T) := by
  apply monotone_nat_of_le_succ
  intro n
  rcases (accumulate_le_stallPoint hp hT n).lt_or_eq with hlt | heq
  · exact ((accumulate_lt_succ_iff hp hT n).2 hlt).le
  · rw [accumulate_succ, heq, roundNE_stallPoint_add hp hT]

/-! ### The number of additions -/

theorem representable_natCast_mul (hp : 0 < p) {n : ℕ} (hn : n ≤ 2 ^ p) (e : ℤ) :
    Representable p (n * 2 ^ e) := by
  have habs : |(n : ℤ)| ≤ 2 ^ p := by
    rw [Nat.abs_cast]
    exact_mod_cast hn
  exact_mod_cast representable_of_abs_le hp habs e

/-- For `2 ^ p` additions the sum is at most that of terms `2 ^ c ≥ T`, which is exact. -/
theorem accumulate_le (hp : 0 < p) {c : ℤ} (hhi : T ≤ 2 ^ c) {n : ℕ} (hn : n ≤ 2 ^ p) :
    accumulate p T n ≤ n * 2 ^ c := by
  induction n with
  | zero => simp [accumulate]
  | succ n ih =>
    rw [← roundNE_of_representable (representable_natCast_mul hp hn c)]
    refine roundNE_mono hp ?_
    have := ih (by omega)
    push_cast
    linarith

/-- For `2 ^ p` additions the sum is at least that of terms `2 ^ c ≤ T`, which is exact. -/
theorem le_accumulate (hp : 0 < p) {c : ℤ} (hlo : 2 ^ c ≤ T) {n : ℕ} (hn : n ≤ 2 ^ p) :
    n * 2 ^ c ≤ accumulate p T n := by
  induction n with
  | zero => simp [accumulate]
  | succ n ih =>
    rw [← roundNE_of_representable (representable_natCast_mul hp hn c)]
    refine roundNE_mono hp ?_
    have := ih (by omega)
    push_cast
    linarith

theorem accumulate_lt_stallPoint (hp : 0 < p) {n : ℕ} (hn : n < 2 ^ p) :
    accumulate p T n < stallPoint p T := by
  have hn' : (n : ℚ) < 2 ^ p := by exact_mod_cast hn
  calc accumulate p T n ≤ n * 2 ^ Int.clog 2 T := accumulate_le hp (le_clog T) hn.le
    _ < stallPoint p T := mul_lt_mul_of_pos_right hn' (zpow_pos (by norm_num) _)

/-- After `2 ^ p` additions the sum has reached the last binade, where it grows by whole units. -/
theorem min_le_accumulate (hp : 2 ≤ p) (hT : 0 < T) (n : ℕ) :
    min (stallPoint p T) (2 ^ p * 2 ^ (Int.clog 2 T - 1) + n * 2 ^ Int.clog 2 T)
      ≤ accumulate p T (2 ^ p + n) := by
  have hstart : (2 : ℚ) ^ p * 2 ^ (Int.clog 2 T - 1) ≤ accumulate p T (2 ^ p) := by
    exact_mod_cast le_accumulate (n := 2 ^ p) (by omega) (clog_lt hT).le le_rfl
  induction n with
  | zero => simpa using Or.inr hstart
  | succ n ih =>
    rw [← Nat.add_assoc (2 ^ p), accumulate_succ]
    rcases (accumulate_le_stallPoint hp hT (2 ^ p + n)).eq_or_lt with heq | hlt
    · rw [heq, roundNE_stallPoint_add hp hT]
      exact min_le_left _ _
    · have hsum := (min_le_iff.1 ih).resolve_left (not_le.2 hlt)
      have hbinade := hstart.trans (accumulate_mono hp hT (Nat.le_add_right (2 ^ p) n))
      obtain ⟨m, hm, hmp⟩ :=
        (representable_accumulate (by omega) (2 ^ p + n)).exists_int_mul hbinade hlt
      rw [hm] at hsum hbinade ⊢
      rw [roundNE_add_eq_add (by omega) (clog_lt hT) (le_clog T) hbinade hmp]
      refine (min_le_right _ _).trans ?_
      push_cast
      linarith

theorem accumulate_eq_stallPoint (hp : 2 ≤ p) (hT : 0 < T) {n : ℕ}
    (hn : 2 ^ p + 2 ^ (p - 1) ≤ n) : accumulate p T n = stallPoint p T := by
  have hstall : accumulate p T (2 ^ p + 2 ^ (p - 1)) = stallPoint p T := by
    refine le_antisymm (accumulate_le_stallPoint hp hT _) ?_
    refine le_trans (le_min le_rfl ?_) (min_le_accumulate hp hT (2 ^ (p - 1)))
    obtain ⟨q, rfl⟩ : ∃ q, p = q + 1 := ⟨p - 1, by omega⟩
    rw [stallPoint, two_zpow_sub_one, Nat.add_sub_cancel]
    push_cast
    exact le_of_eq (by ring)
  exact le_antisymm (accumulate_le_stallPoint hp hT n) (hstall ▸ accumulate_mono hp hT hn)

/-- **The sum grows for a while, and then never again.** -/
theorem exists_accumulate_lt_succ_iff (hp : 2 ≤ p) (hT : 0 < T) :
    ∃ N : ℕ, 2 ^ p ≤ N ∧ N ≤ 2 ^ p + 2 ^ (p - 1) ∧
      ∀ n, accumulate p T n < accumulate p T (n + 1) ↔ n < N := by
  have hstall : ∃ n, accumulate p T n = stallPoint p T :=
    ⟨_, accumulate_eq_stallPoint hp hT le_rfl⟩
  refine ⟨Nat.find hstall, ?_, Nat.find_min' hstall (accumulate_eq_stallPoint hp hT le_rfl), ?_⟩
  · by_contra hlt
    exact (accumulate_lt_stallPoint (by omega) (not_le.1 hlt)).ne (Nat.find_spec hstall)
  · intro n
    rw [accumulate_lt_succ_iff hp hT]
    constructor
    · intro h
      by_contra hge
      have hmono := accumulate_mono hp hT (not_lt.1 hge)
      rw [Nat.find_spec hstall] at hmono
      exact absurd h (not_lt.2 hmono)
    · intro h
      exact lt_of_le_of_ne (accumulate_le_stallPoint hp hT n) (Nat.find_min hstall h)

end Sum

end Rounding

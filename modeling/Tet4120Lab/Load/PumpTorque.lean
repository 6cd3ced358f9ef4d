import Tet4120Lab.Load.Controller

/-!
# RunPump under rounding

Every product and every sum of `RunPump` is rounded by a function `rnd` that is monotone and odd
and fixes the representable numbers; nothing else is assumed of it.

* `pumpTerm`: the rounded products of both branches, without the sum;
* `pumpTerm_neg`, `pumpTerm_mono`: it is odd, and monotone for `k_L >= 0`;
* `runPump_mono_odd`: the torque is monotone in the speed, and odd without `t_constant`;
* `outputs_mono`: over a whole run of the controller a higher speed never gives a lower torque.
-/

namespace Tet4120

open Rounding

/-- The two rounded products of `RunPump`, `k_L * n * n` or `-k_L * n * n`. -/
def pumpTerm (rnd : ℚ → ℚ) (kL n : ℚ) : ℚ :=
  if 0 ≤ n then rnd (rnd (kL * n) * n) else rnd (rnd (-kL * n) * n)

theorem runPump_rounded (rnd : ℚ → ℚ) (d : PumpData ℚ) (n : ℚ) :
    runPump (.rounded rnd) d n = rnd (pumpTerm rnd d.kL n + d.tConstant) := by
  by_cases hn : 0 ≤ n <;> simp [runPump, FloatOps.rounded, pumpTerm, hn]

section Term

variable {rep : ℚ → Prop} {rnd : ℚ → ℚ} {kL : ℚ}

/-- Both branches agree up to the sign, whatever the sign of `k_L`. -/
theorem pumpTerm_neg (h : IsRounding rep rnd) (kL n : ℚ) :
    pumpTerm rnd kL (-n) = -pumpTerm rnd kL n := by
  rcases lt_trichotomy n 0 with hn | rfl | hn
  · rw [pumpTerm, pumpTerm, if_pos (by linarith), if_neg (not_le.2 hn), mul_neg, mul_neg, h.neg,
      neg_mul]
  · simp [pumpTerm, h.zero]
  · rw [pumpTerm, pumpTerm, if_neg (by linarith), if_pos hn.le, neg_mul_neg, mul_neg, h.neg]

theorem pumpTerm_nonneg (h : IsRounding rep rnd) (hk : 0 ≤ kL) {n : ℚ} (hn : 0 ≤ n) :
    0 ≤ pumpTerm rnd kL n := by
  rw [pumpTerm, if_pos hn]
  exact h.nonneg (mul_nonneg (h.nonneg (mul_nonneg hk hn)) hn)

/-- For speeds that are not negative both factors grow with the speed. -/
theorem pumpTerm_mono_of_nonneg (h : IsRounding rep rnd) (hk : 0 ≤ kL) {n₁ n₂ : ℚ} (hn : 0 ≤ n₁)
    (hle : n₁ ≤ n₂) : pumpTerm rnd kL n₁ ≤ pumpTerm rnd kL n₂ := by
  have hn₂ : 0 ≤ n₂ := hn.trans hle
  rw [pumpTerm, pumpTerm, if_pos hn, if_pos hn₂]
  have hfactor : rnd (kL * n₁) ≤ rnd (kL * n₂) := h.mono (mul_le_mul_of_nonneg_left hle hk)
  exact h.mono (mul_le_mul hfactor hle hn (h.nonneg (mul_nonneg hk hn₂)))

theorem pumpTerm_mono (h : IsRounding rep rnd) (hk : 0 ≤ kL) : Monotone (pumpTerm rnd kL) := by
  intro n₁ n₂ hle
  rcases le_total 0 n₁ with hn₁ | hn₁
  · exact pumpTerm_mono_of_nonneg h hk hn₁ hle
  · rcases le_total 0 n₂ with hn₂ | hn₂
    · -- across the switch at 0 the signs decide
      have hneg := pumpTerm_nonneg h hk (neg_nonneg.2 hn₁)
      rw [pumpTerm_neg h] at hneg
      exact (neg_nonneg.1 hneg).trans (pumpTerm_nonneg h hk hn₂)
    · -- on the negative side the factors move against each other: reflect
      have hrefl := pumpTerm_mono_of_nonneg h hk (neg_nonneg.2 hn₂) (neg_le_neg hle)
      rw [pumpTerm_neg h, pumpTerm_neg h] at hrefl
      exact neg_le_neg_iff.1 hrefl

/-- At standstill the torque is `t_constant`. -/
theorem runPump_zero (h : IsRounding rep rnd) (kL : ℚ) {tConstant : ℚ} (ht : rep tConstant) :
    runPump (.rounded rnd) ⟨kL, tConstant⟩ 0 = tConstant := by
  simp [runPump_rounded, pumpTerm, h.zero, h.fix tConstant ht]

theorem runPump_mono (h : IsRounding rep rnd) (hk : 0 ≤ kL) (tConstant : ℚ) :
    Monotone (runPump (.rounded rnd) ⟨kL, tConstant⟩) := by
  intro n₁ n₂ hle
  rw [runPump_rounded, runPump_rounded]
  exact h.mono (add_le_add_left (pumpTerm_mono h hk hle) tConstant)

end Term

/-- **The pump torque is monotone in the speed, and odd without `t_constant`.** -/
theorem runPump_mono_odd {rep : ℚ → Prop} {rnd : ℚ → ℚ} (h : IsRounding rep rnd) {kL : ℚ}
    (hk : 0 ≤ kL) :
    (∀ tConstant n₁ n₂ : ℚ, n₁ ≤ n₂ →
      runPump (.rounded rnd) ⟨kL, tConstant⟩ n₁ ≤ runPump (.rounded rnd) ⟨kL, tConstant⟩ n₂) ∧
    ∀ n : ℚ, runPump (.rounded rnd) ⟨kL, 0⟩ (-n) = -runPump (.rounded rnd) ⟨kL, 0⟩ n := by
  refine ⟨fun tConstant n₁ n₂ hle => runPump_mono h hk tConstant hle, fun n => ?_⟩
  rw [runPump_rounded, runPump_rounded, pumpTerm_neg h, add_zero, add_zero, h.neg]

/-- The `fp32_t` nearest to `1.0e-4`, on both sides of the switch. -/
theorem runPump_mono_odd_fp32 :
    runPump .fp32 ⟨roundNE 24 (1 / 10000), 1 / 2⟩ (-1000)
        ≤ runPump .fp32 ⟨roundNE 24 (1 / 10000), 1 / 2⟩ 3 ∧
      runPump .fp32 ⟨roundNE 24 (1 / 10000), 0⟩ (-1000)
        = -runPump .fp32 ⟨roundNE 24 (1 / 10000), 0⟩ 1000 := by
  have hround := isRounding_roundNE (show 0 < 24 by decide)
  have hk : 0 ≤ roundNE 24 (1 / 10000) := roundNE_nonneg (by decide) (by norm_num)
  obtain ⟨hmono, hodd⟩ := runPump_mono_odd hround hk
  exact ⟨hmono (1 / 2) (-1000) 3 (by norm_num), hodd 1000⟩

/-! ### The controller -/

/-- **A run of the controller never answers a higher speed with a lower torque.** -/
theorem outputs_mono {rep : ℚ → Prop} {rnd : ℚ → ℚ} (h : IsRounding rep rnd)
    {load1 : Controller.LoadParameters ℚ} (hk : 0 ≤ load1.pump.kL) (e : LoadEmulator ℚ)
    {speeds : List ℚ} (hspeeds : speeds.Pairwise (· ≤ ·)) :
    (Controller.outputs (.rounded rnd)
      (Controller.initializeEmulator (.rounded rnd) load1 e) speeds).Pairwise (· ≤ ·) := by
  rw [Controller.outputs_initializeEmulator, List.pairwise_map]
  exact hspeeds.imp fun hle => runPump_mono h hk load1.pump.tConstant hle

end Tet4120

import Tet4120Lab.Lib.Rounding
import Tet4120Lab.Sfun.Ports

/-!
# What the parameter check leaves to mdlOutputs

`mdlOutputs` dereferences `mxGetPr` of all four mask parameters and converts the selector less
`1` to an `int` and that to a `LoadType`.  `mdlCheckParameters` does not look at the selector, nor
at whether an array is sparse or complex.

* `Double`: a `real_T` value, its difference with `1` and the conversion to `int`;
* `Sufficient`: what `mdlOutputs` needs of the parameters;
* `checkSufficient_iff`: the parameters for which the check is sufficient;
* `reads_of_sufficient`: with such parameters a step reads its parameters without a fault, and
  runs the load the selector names.
-/

namespace Tet4120.Sfun

open Rounding

/-- A value of `real_T`. -/
inductive Double
  | nan
  | inf (negative : Bool)
  | finite (q : ℚ)
  deriving DecidableEq

/-- `x - 1`; the exponent of the result is in range when that of `x` is. -/
def Double.subOne : Double → Double
  | .nan => .nan
  | .inf negative => .inf negative
  | .finite q => .finite (roundNE 53 (q - 1))

/-- The fraction is discarded. -/
def truncate (q : ℚ) : ℤ := q.num.tdiv q.den

/-- The conversion to `int`, undefined outside its range. -/
def Double.toInt : Double → Option ℤ
  | .finite q => if -2 ^ 31 ≤ truncate q ∧ truncate q < 2 ^ 31 then some (truncate q) else none
  | _ => none

/-- The block on `real_T` values; the conversions from and to `fp32_t` are arbitrary. -/
def doubleBlockOps {F : Type} (ops : FloatOps F) (toFp32 : Double → F) (ofFp32 : F → Double) :
    BlockOps F Double where
  toFloatOps := ops
  toFp32 := toFp32
  ofFp32 := ofFp32
  selectorToInt x := x.subOne.toInt

@[simp] theorem truncate_intCast (n : ℤ) : truncate n = n := by simp [truncate]

/-- An integer selector is converted exactly. -/
theorem toInt_subOne_intCast {n : ℤ} (hlo : 0 ≤ n) (hhi : n ≤ 4) :
    (Double.finite (n + 1)).subOne.toInt = some n := by
  have hround : roundNE 53 ((n : ℚ) + 1 - 1) = n := by
    rw [add_sub_cancel_right]
    -- an integer of at most 53 bits is its own rounding
    exact roundNE_intCast (abs_lt.2 ⟨by omega, by omega⟩)
  rw [Double.subOne, hround, Double.toInt, truncate_intCast, if_pos ⟨by omega, by omega⟩]

/-! ### The check -/

/-- What `mdlOutputs` needs: every pointer it dereferences is that of a non-empty, real, full
double array, and the selector converts to an enumerator that its exact value names. -/
structure Sufficient (params : MaskParams Double) : Prop where
  isParamDouble : ∀ i, (params i).isParamDouble = true
  selector : ∃ (x : Double) (n : ℤ), (params .loadSelect).pr[0]? = some x ∧ x.subOne.toInt = some n ∧
    (LoadType.ofInt n).isNamed = true ∧ x = .finite (n + 1)

/-- What the check accepts is sufficient. -/
def CheckSufficient (params : MaskParams Double) : Prop :=
  mdlCheckParameters params = none → Sufficient params

/-- **When the check is sufficient.** -/
theorem checkSufficient_iff (params : MaskParams Double) :
    CheckSufficient params ↔
      mdlCheckParameters params ≠ none ∨
        ((∀ i, (params (.aux i)).isSparse = false ∧ (params (.aux i)).isComplex = false) ∧
          (params .loadSelect).isParamDouble = true ∧
          ∃ k : ℕ, 1 ≤ k ∧ k ≤ 5 ∧ (params .loadSelect).pr[0]? = some (.finite k)) := by
  rw [CheckSufficient, Decidable.imp_iff_not_or]
  refine or_congr_right' fun hcheck => ?_
  rw [not_not, mdlCheckParameters_eq_none_iff] at hcheck
  constructor
  · intro h
    obtain ⟨x, n, hx, -, hnamed, rfl⟩ := h.selector
    obtain ⟨hlo, hhi⟩ := (LoadType.isNamed_ofInt_iff n).1 hnamed
    refine ⟨fun i => ?_, h.isParamDouble .loadSelect, (n + 1).toNat, by omega, by omega, ?_⟩
    · obtain ⟨-, -, hsparse, hcomplex⟩ := (MxArray.isParamDouble_iff _).1 (h.isParamDouble (.aux i))
      exact ⟨hsparse, hcomplex⟩
    · rw [hx]
      have hcast : (((n + 1).toNat : ℤ) : ℚ) = ((n + 1 : ℤ) : ℚ) := by
        rw [Int.toNat_of_nonneg (by omega)]
      push_cast at hcast
      rw [hcast]
  · rintro ⟨hreal, hdouble, k, hlo, hhi, hk⟩
    refine ⟨fun i => ?_, .finite k, k - 1, hk, ?_, ?_, ?_⟩
    · cases i with
      | aux j =>
        obtain ⟨hclass, hone⟩ := hcheck j
        exact (MxArray.isParamDouble_iff _).2 ⟨hclass, by omega, (hreal j).1, (hreal j).2⟩
      | loadSelect => exact hdouble
    · have h := toInt_subOne_intCast (n := (k : ℤ) - 1) (by omega) (by omega)
      simpa using h
    · exact (LoadType.isNamed_ofInt_iff _).2 ⟨by omega, by omega⟩
    · simp

/-- **With sufficient parameters a step reads them without a fault and runs the selected load.** -/
theorem reads_of_sufficient {F : Type} (ops : FloatOps F) (toFp32 : Double → F)
    (ofFp32 : F → Double) {params : MaskParams Double} (h : Sufficient params)
    (u0 u1 u2 : Double) :
    ∃ (n : ℤ) (r : StepReads F), (params .loadSelect).pr[0]? = some (.finite (n + 1)) ∧
      (contiguous u0 u1 u2 params).reads (doubleBlockOps ops toFp32 ofFp32) = .ok r ∧
      r.loadType = LoadType.ofInt n ∧ r.loadType.isNamed = true := by
  obtain ⟨x, n, hx, hn, hnamed, rfl⟩ := h.selector
  choose v hv using fun i => (params i).exists_pr_of_isParamDouble (h.isParamDouble i)
  have hselect : v .loadSelect = .finite (n + 1) :=
    Option.some.inj ((hv .loadSelect).symm.trans hx)
  have hread := reads_contiguous (doubleBlockOps ops toFp32 ofFp32) u0 u1 u2 hv (n := n)
    (by rw [hselect]; exact hn)
  exact ⟨n, _, hx, hread, rfl, hnamed⟩

/-- Three scalar doubles and the selector `0.5`. -/
def halfSelector : MaskParams Double
  | .aux _ => .ofList [.finite 1]
  | .loadSelect => .ofList [.finite (1 / 2)]

/-- The check accepts the selector `0.5`, and the pump runs. -/
theorem halfSelector_not_checkSufficient :
    mdlCheckParameters halfSelector = none ∧
      (Double.finite (1 / 2)).subOne.toInt = some 0 ∧ ¬ CheckSufficient halfSelector := by
  refine ⟨by decide, ?_, fun h => ?_⟩
  · have hround : roundNE 53 (1 / 2 - 1 : ℚ) = -1 / 2 := by
      have hrep : Representable 53 (-1 / 2 : ℚ) := ⟨-1, -1, by norm_num, by norm_num⟩
      rw [show (1 / 2 - 1 : ℚ) = -1 / 2 by norm_num]
      exact roundNE_of_representable hrep
    rw [Double.subOne, hround]
    decide +kernel
  · obtain ⟨x, n, hx, -, -, hxn⟩ := (h (by decide)).selector
    have hhalf : x = .finite (1 / 2) := (Option.some.inj hx).symm
    rw [hhalf, Double.finite.injEq] at hxn
    have h2 : (1 : ℚ) = ((2 * (n + 1) : ℤ) : ℚ) := by push_cast; linarith
    have h2' : (1 : ℤ) = 2 * (n + 1) := by exact_mod_cast h2
    omega

end Tet4120.Sfun

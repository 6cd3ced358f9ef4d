import Tet4120Lab.Fp32
import Mathlib.Data.Sign.Basic
import Mathlib.Tactic.Linarith
import Mathlib.Tactic.Ring

/-!
# SwLoadEmulator: what the two builds share

`SwLoadEmulator.cpp` exists twice: in the controller, and beside the S-function, built with
`SIMULINK`.  Both have the pump torque `RunPump` and the dispatch of `Run`, which differ in the
torque of the branch `HydroPower` only.

* `runPump` and `LoadEmulator.run`, the latter with the hydro torque as a parameter;
* `runPump_exact`: in exact arithmetic the pump torque is `sign n * k_L * n ^ 2 + t_constant`.

The flags `b_error_max`, … are never used and left out.
-/

namespace Tet4120

/-- `enum class LoadType`; its values are `int`s, with or without a name. -/
inductive LoadType
  | pump
  | electricVehicle
  | shipPropulsion
  | windPower
  | hydroPower
  | unnamed (value : ℤ)
  deriving DecidableEq

/-- The conversion of an `int` to `LoadType`. -/
def LoadType.ofInt (n : ℤ) : LoadType :=
  if n = 0 then .pump
  else if n = 1 then .electricVehicle
  else if n = 2 then .shipPropulsion
  else if n = 3 then .windPower
  else if n = 4 then .hydroPower
  else .unnamed n

/-- One of the five enumerators. -/
def LoadType.isNamed : LoadType → Bool
  | .unnamed _ => false
  | _ => true

theorem LoadType.isNamed_ofInt_iff (n : ℤ) :
    (LoadType.ofInt n).isNamed = true ↔ 0 ≤ n ∧ n ≤ 4 := by
  unfold LoadType.ofInt
  split_ifs <;> simp [LoadType.isNamed] <;> omega

/-- `PumpDataStruct`. -/
structure PumpData (F : Type*) where
  kL : F
  tConstant : F

/-- The fields of `LoadEmulator` that both builds have. -/
structure LoadEmulator (F : Type*) where
  loadType : LoadType
  pumpData : PumpData F
  tLoadNm : F

section Run

variable {F : Type*} (ops : FloatOps F)

/-- `RunPump(ActSpeed_rpm)`. -/
def runPump (d : PumpData F) (actSpeedRpm : F) : F :=
  if ops.nonneg actSpeedRpm then
    ops.add (ops.mul (ops.mul d.kL actSpeedRpm) actSpeedRpm) d.tConstant
  else
    ops.add (ops.mul (ops.mul (ops.neg d.kL) actSpeedRpm) actSpeedRpm) d.tConstant

/-- The `switch` of `Run`; `hydro` is the torque of the branch `HydroPower`. -/
def torqueOf (d : PumpData F) (loadType : LoadType) (hydro actualSpeedRpm : F) : F :=
  match loadType with
  | .pump => runPump ops d actualSpeedRpm
  | .electricVehicle => runPump ops d actualSpeedRpm
  | .shipPropulsion => ops.lit (3 / 10)
  | .windPower => ops.lit (4 / 10)
  | .hydroPower => hydro
  | .unnamed _ => ops.lit 0

/-- `Run(Actual_Speed_rpm)`; the value returned is a reference to `m_T_load_Nm`. -/
def LoadEmulator.run (e : LoadEmulator F) (hydro actualSpeedRpm : F) : LoadEmulator F :=
  { e with tLoadNm := torqueOf ops e.pumpData e.loadType hydro actualSpeedRpm }

end Run

/-- **The pump torque in exact arithmetic.** -/
theorem runPump_exact (lit : ℚ → ℚ) (d : PumpData ℚ) (n : ℚ) :
    runPump (.exact lit) d n = (SignType.sign n : ℚ) * d.kL * n ^ 2 + d.tConstant := by
  simp only [runPump, FloatOps.exact, decide_eq_true_eq]
  rcases lt_trichotomy n 0 with hneg | rfl | hpos
  · rw [if_neg (not_le.2 hneg), sign_neg hneg]
    simp only [SignType.coe_neg_one]
    ring
  · simp
  · rw [if_pos hpos.le, sign_pos hpos]
    simp only [SignType.coe_one]
    ring

end Tet4120

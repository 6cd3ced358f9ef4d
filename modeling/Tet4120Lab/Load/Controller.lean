import Tet4120Lab.Load.Emulator
import Mathlib.Data.UInt

/-!
# SwLoadEmulator.cpp in the controller

`Initialize` copies the pump parameters of the database but sets `m_LoadType` to `0`, and the only
function that sets it, `setLoadType`, is not part of this build.  So `Run` always takes the branch
`Pump`, whatever `Parameters.Load1.LoadType` is.

* `initializeEmulator`, `run` and `outputs`, a sequence of calls of `Run`;
* `outputs_initializeEmulator`: every call returns the pump torque of its own speed;
* `honoursConfiguration_iff`: the configurations for which that is the configured load.
-/

namespace Tet4120.Controller

/-- `LoadParameters::PumpStruct`. -/
structure PumpStruct (F : Type*) where
  kL : F
  tConstant : F

/-- `LoadParameters`; the structures of the other loads are not read. -/
structure LoadParameters (F : Type*) where
  loadType : UInt16
  pump : PumpStruct F

section Run

variable {F : Type*} (ops : FloatOps F)

/-- `Initialize()`; the parameters are `Parameters.Load1`. -/
def initializeEmulator (load1 : LoadParameters F) (e : LoadEmulator F) : LoadEmulator F :=
  { e with
    loadType := .ofInt 0
    tLoadNm := ops.lit 0
    pumpData := ⟨load1.pump.kL, load1.pump.tConstant⟩ }

/-- `Run(Actual_Speed_rpm)`. -/
def run (e : LoadEmulator F) (actualSpeedRpm : F) : LoadEmulator F :=
  e.run ops (ops.lit (5 / 10)) actualSpeedRpm

/-- The torques returned by a sequence of calls of `Run`. -/
def outputs : LoadEmulator F → List F → List F
  | _, [] => []
  | e, n :: ns => (run ops e n).tLoadNm :: outputs (run ops e n) ns

end Run

/-- Every call returns the pump torque of its own speed, whatever the calls before it were. -/
theorem outputs_initializeEmulator {F : Type*} (ops : FloatOps F) (load1 : LoadParameters F)
    (e : LoadEmulator F) (speeds : List F) :
    outputs ops (initializeEmulator ops load1 e) speeds
      = speeds.map (runPump ops ⟨load1.pump.kL, load1.pump.tConstant⟩) := by
  -- generalized to the object between two calls, whose `m_LoadType` stays as `Initialize` set it
  have hgen : ∀ (e : LoadEmulator F), e.loadType = .pump →
      outputs ops e speeds = speeds.map (runPump ops e.pumpData) := by
    induction speeds with
    | nil => intro e _; rfl
    | cons n ns ih =>
      intro e he
      rw [outputs, ih (run ops e n) he, List.map_cons]
      simp [run, LoadEmulator.run, torqueOf, he]
  exact hgen (initializeEmulator ops load1 e) rfl

/-! ### The configured load -/

/-- The constant torque of a branch of `Run` other than `Pump` and `ElectricVehicle`. -/
def constantTorque (lit : ℚ → ℚ) : LoadType → ℚ
  | .shipPropulsion => lit (3 / 10)
  | .windPower => lit (4 / 10)
  | .hydroPower => lit (5 / 10)
  | _ => lit 0

/-- The torque of the load model that `LoadType` selects, in exact arithmetic. -/
def configuredTorque (lit : ℚ → ℚ) (load1 : LoadParameters ℚ) (n : ℚ) : ℚ :=
  match LoadType.ofInt load1.loadType.toNat with
  | .pump => (SignType.sign n : ℚ) * load1.pump.kL * n ^ 2 + load1.pump.tConstant
  | .electricVehicle => (SignType.sign n : ℚ) * load1.pump.kL * n ^ 2 + load1.pump.tConstant
  | loadType => constantTorque lit loadType

/-- Every call of `Run` after `Initialize` returns the torque of the configured load. -/
def HonoursConfiguration (lit : ℚ → ℚ) (load1 : LoadParameters ℚ) : Prop :=
  ∀ (e : LoadEmulator ℚ) (speeds : List ℚ),
    outputs (.exact lit) (initializeEmulator (.exact lit) load1 e) speeds
      = speeds.map (configuredTorque lit load1)

theorem configuredTorque_of_le_one {lit : ℚ → ℚ} {load1 : LoadParameters ℚ}
    (h : load1.loadType.toNat ≤ 1) (n : ℚ) : configuredTorque lit load1 n
      = (SignType.sign n : ℚ) * load1.pump.kL * n ^ 2 + load1.pump.tConstant := by
  unfold configuredTorque
  rcases Nat.le_one_iff_eq_zero_or_eq_one.1 h with h | h <;> rw [h] <;> rfl

theorem configuredTorque_of_one_lt {lit : ℚ → ℚ} {load1 : LoadParameters ℚ}
    (h : 1 < load1.loadType.toNat) (n : ℚ) : configuredTorque lit load1 n
      = constantTorque lit (LoadType.ofInt load1.loadType.toNat) := by
  unfold configuredTorque
  split
  · rename_i heq
    unfold LoadType.ofInt at heq
    split_ifs at heq
    omega
  · rename_i heq
    unfold LoadType.ofInt at heq
    split_ifs at heq
    omega
  · rfl

/-- **The configurations the controller honours.** -/
theorem honoursConfiguration_iff (lit : ℚ → ℚ) (load1 : LoadParameters ℚ) :
    HonoursConfiguration lit load1 ↔
      load1.loadType.toNat ≤ 1 ∨
        (load1.pump.kL = 0 ∧
          load1.pump.tConstant = constantTorque lit (LoadType.ofInt load1.loadType.toNat)) := by
  simp only [HonoursConfiguration, outputs_initializeEmulator]
  rcases Nat.lt_or_ge 1 load1.loadType.toNat with hgt | hle
  · simp only [Nat.not_le.2 hgt, false_or]
    constructor
    · intro h
      -- two speeds pin down both pump parameters
      have hpair := h ⟨.pump, ⟨0, 0⟩, 0⟩ [0, 1]
      simp only [List.map_cons, List.map_nil, runPump_exact, configuredTorque_of_one_lt hgt,
        List.cons.injEq, and_true] at hpair
      obtain ⟨h0, h1⟩ := hpair
      simp only [sign_zero, SignType.coe_zero, zero_mul, zero_add, sign_one, SignType.coe_one,
        one_mul, one_pow, mul_one] at h0 h1
      exact ⟨by linarith, h0⟩
    · rintro ⟨hk, ht⟩ e speeds
      apply List.map_congr_left
      intro n _
      rw [runPump_exact, configuredTorque_of_one_lt hgt, ← ht, hk]
      ring
  · simp only [hle, true_or, iff_true]
    intro e speeds
    apply List.map_congr_left
    intro n _
    rw [runPump_exact, configuredTorque_of_le_one hle]

/-- Ship propulsion, with the pump constants of the database. -/
def shipConfiguration : LoadParameters ℚ := ⟨2, ⟨109 / 10000000, 0⟩⟩

theorem shipConfiguration_not_honoured : ¬ HonoursConfiguration id shipConfiguration := by
  intro h
  have hrun := h ⟨.pump, ⟨0, 0⟩, 0⟩ [1000]
  exact absurd hrun (by decide +kernel)

end Tet4120.Controller

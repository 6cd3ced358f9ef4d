import Tet4120Lab.Sfun.Block

/-!
# Port accesses of the block

`mdlInitializeSizes` declares three input ports of width `1`; `mdlOutputs` takes the pointer array
of port `0` and reads its elements `1`, `2` and `0`.

* `wired`: what Simulink hands to a step, as many pointers for each port as it is wide;
* `RespectsPorts`: the step accesses no element outside an array, and uses the signals of ports
  `1`, `2` and `0`;
* `not_respectsPorts`: no step does;
* `reads_contiguous`: the signals a step reads when the pointers of the three ports happen to lie
  one behind the other.
-/

namespace Tet4120.Sfun

/-- A signal element for each input port and each index below its width. -/
abbrev Signals (D : Type) := (p : Fin numOfInputs) → Fin (blockSizes.inputPortWidth p) → D

theorem inputPortWidth_pos (p : Fin numOfInputs) : 0 < blockSizes.inputPortWidth p := by
  revert p; decide

/-- The signal wired to port `p`. -/
def Signals.port {D : Type} (u : Signals D) (p : Fin numOfInputs) : D :=
  u p ⟨0, inputPortWidth_pos p⟩

/-- The inputs of a step on the declared ports: the pointer array of a port has one pointer for
each of its elements. -/
def wired {D : Type} (u : Signals D) (params : MaskParams D) : StepInputs D where
  portPtrs p := if h : p < numOfInputs then List.ofFn (u ⟨p, h⟩) else []
  params := params
  outputWidth := blockSizes.outputPortWidth 0

/-- A step on the declared ports stays inside their arrays, and its output is the torque for the
signals of ports `1` and `2` and the speed of port `0`. -/
structure RespectsPorts {F D : Type} (ops : BlockOps F D) (e : SimLoadEmulator F) (u : Signals D)
    (params : MaskParams D) : Prop where
  input_index : ∀ port index, mdlOutputs ops ⟨some e⟩ (wired u params)
    ≠ .error (.inputIndex port index)
  output_index : ∀ index, mdlOutputs ops ⟨some e⟩ (wired u params) ≠ .error (.outputIndex index)
  signals : ∀ s y, mdlOutputs ops ⟨some e⟩ (wired u params) = .ok (s, y) →
    ∃ r : StepReads F, y = ops.ofFp32 (r.torque ops.toFloatOps e.pumpData) ∧
      r.sig0 = ops.toFp32 (u.port 1) ∧ r.sig1 = ops.toFp32 (u.port 2) ∧
        r.speed = ops.toFp32 (u.port 0)

/-- Element `1` of the pointer array of port `0` does not exist. -/
theorem mdlOutputs_wired {F D : Type} (ops : BlockOps F D) (e : SimLoadEmulator F) (u : Signals D)
    (params : MaskParams D) :
    mdlOutputs ops ⟨some e⟩ (wired u params) = .error (.inputIndex 0 1) := by
  have hread : (wired u params).signal 0 1 = .error (.inputIndex 0 1) := rfl
  simp only [mdlOutputs, SimStruct.object, hread]
  rfl

/-- **No step on the declared ports respects them.** -/
theorem not_respectsPorts {F D : Type} (ops : BlockOps F D) (e : SimLoadEmulator F) (u : Signals D)
    (params : MaskParams D) : ¬ RespectsPorts ops e u params := fun h =>
  h.input_index 0 1 (mdlOutputs_wired ops e u params)

/-- All signals `0`, a pump selected. -/
theorem zeroSignals_not_respectsPorts :
    ¬ RespectsPorts exactBlockOps ⟨⟨.pump, ⟨0, 0⟩, 0⟩, fun _ => 0, 0, 0⟩ (fun _ _ => 0)
      (fun _ => .ofList [1]) := fun h =>
  h.input_index 0 1 rfl

/-- The pointers of the three ports in one table. -/
def contiguous {D : Type} (u0 u1 u2 : D) (params : MaskParams D) : StepInputs D where
  portPtrs p := [u0, u1, u2].drop p
  params := params
  outputWidth := blockSizes.outputPortWidth 0

/-- **With the pointers in one table a step reads the signals of ports `1`, `2` and `0`.** -/
theorem reads_contiguous {F D : Type} (ops : BlockOps F D) (u0 u1 u2 : D)
    {params : MaskParams D} {v : ParamIdx → D} {n : ℤ}
    (hparams : ∀ i, (params i).pr[0]? = some (v i)) (hn : ops.selectorToInt (v .loadSelect) = some n) :
    (contiguous u0 u1 u2 params).reads ops = .ok
      { sig0 := ops.toFp32 u1
        sig1 := ops.toFp32 u2
        param := auxValues (ops.toFp32 (v (.aux .var0))) (ops.toFp32 (v (.aux .var1)))
          (ops.toFp32 (v (.aux .var2)))
        loadType := .ofInt n
        speed := ops.toFp32 u0 } := by
  have hparam : ∀ i, (contiguous u0 u1 u2 params).param i = .ok (v i) := by
    intro i
    simp [StepInputs.param, contiguous, hparams]
  have hselect : (contiguous u0 u1 u2 params).tempLoadType ops = .ok n := by
    simp [StepInputs.tempLoadType, hparam, hn, bind, Except.bind]
  simp only [StepInputs.reads, hparam, hselect]
  rfl

end Tet4120.Sfun

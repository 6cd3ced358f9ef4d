import Tet4120Lab.Load.Emulator
import Tet4120Lab.Sfun.Parameters
import Mathlib.Logic.Function.Basic

/-!
# sfun_load_emu.cpp: the block

`mdlStart` creates and initializes a `LoadEmulator` of the `SIMULINK` build; `mdlOutputs` copies
the signals and the mask values into it and calls `Run`.  The `fp32_t` operations and the
conversions from and to `real_T` are arbitrary.

* `SimLoadEmulator` and its setters, `mdlStart`, `mdlOutputs`; a `Fault` is an access outside an
  array or a conversion without a defined result;
* `mdlOutputs_eq`: `mdlOutputs` reads its inputs, and its output depends on what it read and on
  `m_PumpData` only.
-/

namespace Tet4120.Sfun

/-- The operations on `fp32_t` and `real_T`; `selectorToInt` is `int tempLoadType = x - 1`, which
has no defined result when the difference is no `int`. -/
structure BlockOps (F D : Type) extends FloatOps F where
  toFp32 : D → F
  ofFp32 : F → D
  selectorToInt : D → Option ℤ

/-- Exact arithmetic on both sides; a selector converts by truncation. -/
def exactBlockOps : BlockOps ℚ ℚ where
  toFloatOps := .exact id
  toFp32 := id
  ofFp32 := id
  selectorToInt x := some ((x - 1).num.tdiv (x - 1).den)

/-- `LoadEmulator` as `SIMULINK` declares it. -/
structure SimLoadEmulator (F : Type) extends LoadEmulator F where
  paramVar : AuxIdx → F
  inputSig0 : F
  inputSig1 : F

namespace SimLoadEmulator

variable {F : Type} (ops : FloatOps F) (e : SimLoadEmulator F)

/-- The pump data `Initialize` of this build sets. -/
def initialPumpData : PumpData F := ⟨ops.lit (1 / 10000), ops.lit 0⟩

/-- `Initialize()`. -/
def initializeEmulator : SimLoadEmulator F :=
  { e with loadType := .ofInt 0, tLoadNm := ops.lit 0, pumpData := initialPumpData ops }

/-- `setParamFromMask(index, newParam)`. -/
def setParamFromMask (index : AuxIdx) (newParam : F) : SimLoadEmulator F :=
  { e with paramVar := Function.update e.paramVar index newParam }

/-- `setLoadType(arg)`. -/
def setLoadType (arg : LoadType) : SimLoadEmulator F := { e with loadType := arg }

/-- `setSig0(signal)`. -/
def setSig0 (signal : F) : SimLoadEmulator F := { e with inputSig0 := signal }

/-- `setSig1(signal)`. -/
def setSig1 (signal : F) : SimLoadEmulator F := { e with inputSig1 := signal }

/-- `getSineWaves()`. -/
def getSineWaves : F :=
  ops.add
    (ops.add (ops.mul (e.paramVar .var0) e.inputSig0) (ops.mul (e.paramVar .var1) e.inputSig1))
    (e.paramVar .var2)

/-- `Run(Actual_Speed_rpm)`. -/
def run (actualSpeedRpm : F) : SimLoadEmulator F :=
  { e with toLoadEmulator := e.toLoadEmulator.run ops (e.getSineWaves ops) actualSpeedRpm }

end SimLoadEmulator

/-! ### mdlStart and mdlOutputs -/

/-- The block: the object `ssGetPWork(S)[0]` points to. -/
structure SimStruct (F : Type) where
  pwork : Option (SimLoadEmulator F)

/-- What goes wrong in a step. -/
inductive Fault
  | noObject
  | inputIndex (port index : ℕ)
  | outputIndex (index : ℕ)
  | paramPointer (param : ParamIdx)
  | intConversion
  deriving DecidableEq

/-- What one step can read: the pointer array of each input port, dereferenced, the mask
parameters, and the length of the output signal. -/
structure StepInputs (D : Type) where
  portPtrs : ℕ → List D
  params : MaskParams D
  outputWidth : ℕ

section Outputs

variable {F D : Type} (ops : BlockOps F D)

/-- `ssGetPWork(S)[0]`. -/
def SimStruct.object (s : SimStruct F) : Except Fault (SimLoadEmulator F) :=
  match s.pwork with
  | some e => .ok e
  | none => .error .noObject

/-- `*ssGetInputPortRealSignalPtrs(S, port)[index]`. -/
def StepInputs.signal (inp : StepInputs D) (port index : ℕ) : Except Fault D :=
  match (inp.portPtrs port)[index]? with
  | some x => .ok x
  | none => .error (.inputIndex port index)

/-- `*mxGetPr(ssGetSFcnParam(S, i))`. -/
def StepInputs.param (inp : StepInputs D) (i : ParamIdx) : Except Fault D :=
  match (inp.params i).pr[0]? with
  | some x => .ok x
  | none => .error (.paramPointer i)

/-- `int tempLoadType = *mxGetPr(LOAD_SELECTOR(S)) - 1`. -/
def StepInputs.tempLoadType (inp : StepInputs D) : Except Fault ℤ := do
  match ops.selectorToInt (← inp.param .loadSelect) with
  | some n => .ok n
  | none => .error .intConversion

/-- `o_pump_load[index] = y`. -/
def StepInputs.writeOutput (inp : StepInputs D) (index : ℕ) (y : D) : Except Fault D :=
  if index < inp.outputWidth then .ok y else .error (.outputIndex index)

/-- `mdlStart(S)`; `contents` is what the memory of the new object holds. -/
def mdlStart (contents : SimLoadEmulator F) : SimStruct F :=
  ⟨some (contents.initializeEmulator ops.toFloatOps)⟩

/-- `mdlOutputs(S, tid)`: the block and the output after the step. -/
def mdlOutputs (s : SimStruct F) (inp : StepInputs D) : Except Fault (SimStruct F × D) := do
  let e ← s.object
  let e := e.setSig0 (ops.toFp32 (← inp.signal 0 1))
  let e := e.setSig1 (ops.toFp32 (← inp.signal 0 2))
  let e := e.setParamFromMask .var0 (ops.toFp32 (← inp.param (.aux .var0)))
  let e := e.setParamFromMask .var1 (ops.toFp32 (← inp.param (.aux .var1)))
  let e := e.setParamFromMask .var2 (ops.toFp32 (← inp.param (.aux .var2)))
  let e := e.setLoadType (.ofInt (← inp.tempLoadType ops))
  let e := e.run ops.toFloatOps (ops.toFp32 (← inp.signal 0 0))
  let y ← inp.writeOutput 0 (ops.ofFp32 e.tLoadNm)
  return (⟨some e⟩, y)

/-! ### What a step reads -/

/-- The values a step reads, as it uses them. -/
structure StepReads (F : Type) where
  sig0 : F
  sig1 : F
  param : AuxIdx → F
  loadType : LoadType
  speed : F

/-- The torque of a step. -/
def StepReads.torque (ops : FloatOps F) (r : StepReads F) (d : PumpData F) : F :=
  torqueOf ops d r.loadType
    (ops.add (ops.add (ops.mul (r.param .var0) r.sig0) (ops.mul (r.param .var1) r.sig1))
      (r.param .var2))
    r.speed

/-- Three values as a function of their index. -/
def auxValues (p0 p1 p2 : F) : AuxIdx → F
  | .var0 => p0
  | .var1 => p1
  | .var2 => p2

/-- The reads of a step, in their order, up to the first fault. -/
def StepInputs.reads (inp : StepInputs D) : Except Fault (StepReads F) := do
  let sig0 ← inp.signal 0 1
  let sig1 ← inp.signal 0 2
  let p0 ← inp.param (.aux .var0)
  let p1 ← inp.param (.aux .var1)
  let p2 ← inp.param (.aux .var2)
  let tempLoadType ← inp.tempLoadType ops
  let speed ← inp.signal 0 0
  if 0 < inp.outputWidth then
    return { sig0 := ops.toFp32 sig0
             sig1 := ops.toFp32 sig1
             param := auxValues (ops.toFp32 p0) (ops.toFp32 p1) (ops.toFp32 p2)
             loadType := .ofInt tempLoadType
             speed := ops.toFp32 speed }
  else .error (.outputIndex 0)

/-- The object after a step: everything but the pump data comes from what was read. -/
def StepReads.object (ops : FloatOps F) (r : StepReads F) (d : PumpData F) : SimLoadEmulator F where
  loadType := r.loadType
  pumpData := d
  tLoadNm := r.torque ops d
  paramVar := r.param
  inputSig0 := r.sig0
  inputSig1 := r.sig1

/-- Three calls of `setParamFromMask` overwrite all of `param_var`. -/
theorem update_aux (f : AuxIdx → F) (p0 p1 p2 : F) :
    Function.update (Function.update (Function.update f .var0 p0) .var1 p1) .var2 p2
      = auxValues p0 p1 p2 := by
  funext i
  cases i <;> simp [Function.update, auxValues]

/-- **A step reads its inputs; block and output depend on what it read and on the pump data.** -/
theorem mdlOutputs_eq (e : SimLoadEmulator F) (inp : StepInputs D) :
    mdlOutputs ops ⟨some e⟩ inp = (inp.reads ops).map fun r =>
      (⟨some (r.object ops.toFloatOps e.pumpData)⟩,
        ops.ofFp32 (r.torque ops.toFloatOps e.pumpData)) := by
  unfold mdlOutputs StepInputs.reads
  simp only [SimStruct.object]
  -- one case for each read: a fault ends both sides
  cases inp.signal 0 1 with
  | error f => rfl
  | ok sig0 =>
  cases inp.signal 0 2 with
  | error f => rfl
  | ok sig1 =>
  cases inp.param (.aux .var0) with
  | error f => rfl
  | ok p0 =>
  cases inp.param (.aux .var1) with
  | error f => rfl
  | ok p1 =>
  cases inp.param (.aux .var2) with
  | error f => rfl
  | ok p2 =>
  cases inp.tempLoadType ops with
  | error f => rfl
  | ok n =>
  cases inp.signal 0 0 with
  | error f => rfl
  | ok speed =>
  have hparam := update_aux e.paramVar (ops.toFp32 p0) (ops.toFp32 p1) (ops.toFp32 p2)
  by_cases hout : 0 < inp.outputWidth
  · simp [bind, Except.bind, pure, Except.pure, Except.map, StepInputs.writeOutput, hout,
      SimLoadEmulator.setSig0, SimLoadEmulator.setSig1, SimLoadEmulator.setParamFromMask,
      SimLoadEmulator.setLoadType, SimLoadEmulator.run, SimLoadEmulator.getSineWaves,
      LoadEmulator.run, StepReads.object, StepReads.torque, hparam]
  · simp [bind, Except.bind, Except.map, StepInputs.writeOutput, hout]

end Outputs

end Tet4120.Sfun

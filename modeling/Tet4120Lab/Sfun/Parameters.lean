import Mathlib.Data.List.Basic
import Mathlib.Data.Fin.VecNotation

/-!
# sfun_load_emu.cpp: mask parameters and sizes

A mask parameter is an `mxArray` of any class.  `mdlCheckParameters` looks at the class and the
number of elements of the first three; `IS_PARAM_DOUBLE`, which also asks for a real and full
array, is defined in the file and never used.

* `MxArray`, with the doubles that may be read through the pointer `mxGetPr` returns;
* `mdlCheckParameters`: the error status it sets, if any;
* `mdlInitializeSizes`: the sizes the block declares when there is no error.
-/

namespace Tet4120.Sfun

/-- `mxClassID`. -/
inductive MxClassID
  | unknown
  | cell
  | struct
  | logical
  | char
  | void
  | double
  | single
  | int8
  | uint8
  | int16
  | uint16
  | int32
  | uint32
  | int64
  | uint64
  | function
  | object
  deriving DecidableEq

/-- An `mxArray`.  `pr` lists the doubles behind the pointer `mxGetPr` returns; there are none
when that pointer is null or points to data of another class. -/
structure MxArray (D : Type*) where
  classID : MxClassID
  isSparse : Bool
  isComplex : Bool
  numberOfElements : ℕ
  pr : List D
  class_of_pr : pr ≠ [] → classID = .double
  length_pr : classID = .double → isSparse = false → isComplex = false →
    pr.length = numberOfElements

namespace MxArray

variable {D : Type*} (p : MxArray D)

/-- `mxIsNumeric`. -/
def mxIsNumeric : Bool :=
  match p.classID with
  | .double | .single | .int8 | .uint8 | .int16 | .uint16 | .int32 | .uint32 | .int64 | .uint64 =>
      true
  | _ => false

/-- `mxIsLogical`. -/
def mxIsLogical : Bool := p.classID == .logical

/-- `mxIsEmpty`. -/
def mxIsEmpty : Bool := p.numberOfElements == 0

/-- `mxIsDouble`. -/
def mxIsDouble : Bool := p.classID == .double

/-- `IS_PARAM_DOUBLE(pVal)`. -/
def isParamDouble : Bool :=
  p.mxIsNumeric && !p.mxIsLogical && !p.mxIsEmpty && !p.isSparse && !p.isComplex && p.mxIsDouble

/-- A full real double array with the given elements. -/
def ofList (xs : List D) : MxArray D where
  classID := .double
  isSparse := false
  isComplex := false
  numberOfElements := xs.length
  pr := xs
  class_of_pr _ := rfl
  length_pr _ _ _ := rfl

theorem isParamDouble_iff : p.isParamDouble = true ↔
    p.classID = .double ∧ p.numberOfElements ≠ 0 ∧ p.isSparse = false ∧ p.isComplex = false := by
  cases hclass : p.classID <;>
    simp [isParamDouble, mxIsNumeric, mxIsLogical, mxIsEmpty, mxIsDouble, hclass, and_assoc]

/-- An array that meets `IS_PARAM_DOUBLE` has an element to read. -/
theorem exists_pr_of_isParamDouble (h : p.isParamDouble = true) : ∃ x, p.pr[0]? = some x := by
  obtain ⟨hclass, hne, hsparse, hcomplex⟩ := p.isParamDouble_iff.1 h
  have hlen := p.length_pr hclass hsparse hcomplex
  exact ⟨p.pr[0], List.getElem?_eq_getElem (by omega)⟩

end MxArray

/-- The indices `VAR0_IDX`, `VAR1_IDX`, `VAR2_IDX`, of the mask parameters and of `param_var`. -/
inductive AuxIdx
  | var0
  | var1
  | var2
  deriving DecidableEq

/-- The indices of the mask parameters; the last is `LOAD_SELECT`. -/
inductive ParamIdx
  | aux (i : AuxIdx)
  | loadSelect
  deriving DecidableEq

/-- The mask parameters. -/
abbrev MaskParams (D : Type*) := ParamIdx → MxArray D

/-! ### mdlCheckParameters -/

section Check

variable {D : Type*}

/-- One of the three checks: the error status it sets. -/
def checkAuxParam (p : MxArray D) (message : String) : Option String :=
  if !p.mxIsDouble || p.numberOfElements != 1 then some message else none

/-- `mdlCheckParameters(S)`: the error status it sets. -/
def mdlCheckParameters (params : MaskParams D) : Option String :=
  (checkAuxParam (params (.aux .var0)) "Aux Param 0 must be entered as a scalar double.").or
    ((checkAuxParam (params (.aux .var1)) "Aux Param 1 must be entered as a scalar double.").or
      (checkAuxParam (params (.aux .var2)) "Aux Param 2 must be entered as a scalar double."))

theorem checkAuxParam_eq_none_iff {p : MxArray D} {message : String} :
    checkAuxParam p message = none ↔ p.classID = .double ∧ p.numberOfElements = 1 := by
  simp [checkAuxParam, MxArray.mxIsDouble]

/-- The check accepts exactly the scalar doubles, sparse and complex ones among them, and any
selector. -/
theorem mdlCheckParameters_eq_none_iff {params : MaskParams D} :
    mdlCheckParameters params = none ↔
      ∀ i, (params (.aux i)).classID = .double ∧ (params (.aux i)).numberOfElements = 1 := by
  rw [mdlCheckParameters, Option.or_eq_none_iff, Option.or_eq_none_iff, checkAuxParam_eq_none_iff,
    checkAuxParam_eq_none_iff, checkAuxParam_eq_none_iff]
  constructor
  · rintro ⟨h0, h1, h2⟩ i
    cases i with
    | var0 => exact h0
    | var1 => exact h1
    | var2 => exact h2
  · intro h
    exact ⟨h .var0, h .var1, h .var2⟩

end Check

/-! ### mdlInitializeSizes -/

/-- `NUM_OF_INPUTS`. -/
abbrev numOfInputs : ℕ := 3

/-- `NUM_OF_OUTPUTS`. -/
abbrev numOfOutputs : ℕ := 1

/-- The sizes a block declares. -/
structure BlockSizes where
  numContStates : ℕ
  numDiscStates : ℕ
  inputPortWidth : Fin numOfInputs → ℕ
  outputPortWidth : Fin numOfOutputs → ℕ
  numPWork : ℕ

/-- What `mdlInitializeSizes` declares after its checks. -/
def blockSizes : BlockSizes where
  numContStates := 0
  numDiscStates := 0
  inputPortWidth := ![1, 1, 1]
  outputPortWidth := ![1]
  numPWork := 1

/-- The mask parameters of a block that has the right number of them. -/
def maskParams {D : Type*} (p0 p1 p2 p3 : MxArray D) : MaskParams D
  | .aux .var0 => p0
  | .aux .var1 => p1
  | .aux .var2 => p2
  | .loadSelect => p3

/-- `mdlInitializeSizes(S)`: an error status, or the sizes; nothing is declared unless there are
`NPARAMS` parameters. -/
def mdlInitializeSizes {D : Type*} : List (MxArray D) → Except String (Option BlockSizes)
  | [p0, p1, p2, p3] =>
      match mdlCheckParameters (maskParams p0 p1 p2 p3) with
      | some message => .error message
      | none => .ok (some blockSizes)
  | _ => .ok none

/-- The block declares its sizes exactly when it has four parameters and the check accepts them. -/
theorem mdlInitializeSizes_eq_sizes_iff {D : Type*} (params : List (MxArray D)) :
    mdlInitializeSizes params = .ok (some blockSizes) ↔
      ∃ p0 p1 p2 p3, params = [p0, p1, p2, p3] ∧
        mdlCheckParameters (maskParams p0 p1 p2 p3) = none := by
  constructor
  · intro h
    unfold mdlInitializeSizes at h
    split at h
    · rename_i p0 p1 p2 p3
      refine ⟨p0, p1, p2, p3, rfl, ?_⟩
      cases hcheck : mdlCheckParameters (maskParams p0 p1 p2 p3) with
      | none => rfl
      | some message => rw [hcheck] at h; cases h
    · cases h
  · rintro ⟨p0, p1, p2, p3, rfl, hcheck⟩
    simp [mdlInitializeSizes, hcheck]

end Tet4120.Sfun

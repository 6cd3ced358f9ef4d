import Tet4120Lab.Load.PumpTorque
import Tet4120Lab.Sfun.History
import Tet4120Lab.Sfun.Selector

/-!
# The two copies of SwLoadEmulator.cpp

A load is tried out in the block and then runs in the controller.  The copy in the block takes its
pump constants from `Initialize` and everything else from the mask; the copy in the controller
takes its pump constants from the database and never leaves the branch `Pump`.

* `maskValues`: what a step takes from the mask;
* `outputs_of_blockRun`: the outputs of a run of the block are the torques of its reads;
* `Matches`: the mask values for which both copies are one load;
* `blockAgrees_iff`: whatever else happens in a run, the controller answers the speeds the block
  has read with the outputs of the block, exactly when all masks in use match.
-/

namespace Tet4120

open Rounding Sfun

namespace Sfun

section Reads

variable {F D : Type} (ops : BlockOps F D)

/-- The values of the mask as a step uses them. -/
structure MaskValues (F : Type) where
  param : AuxIdx → F
  loadType : LoadType

/-- What a step takes from the mask, if it is there. -/
def maskValues (params : MaskParams D) : Option (MaskValues F) := do
  let p0 ← (params (.aux .var0)).pr[0]?
  let p1 ← (params (.aux .var1)).pr[0]?
  let p2 ← (params (.aux .var2)).pr[0]?
  let selector ← (params .loadSelect).pr[0]?
  let tempLoadType ← ops.selectorToInt selector
  return { param := auxValues (ops.toFp32 p0) (ops.toFp32 p1) (ops.toFp32 p2)
           loadType := .ofInt tempLoadType }

/-- The reads of all steps of a run that read without a fault. -/
def readsOf (es : List (BlockEvent F D)) : List (StepReads F) :=
  es.filterMap fun e =>
    match e with
    | .outputs inp => (inp.reads ops).toOption
    | .restore _ => none

variable {ops}

theorem maskValues_eq_some {params : MaskParams D} {v : MaskValues F}
    (h : maskValues ops params = some v) : ∃ (w : ParamIdx → D) (n : ℤ),
      (∀ i, (params i).pr[0]? = some (w i)) ∧ ops.selectorToInt (w .loadSelect) = some n ∧
      v = ⟨auxValues (ops.toFp32 (w (.aux .var0))) (ops.toFp32 (w (.aux .var1)))
        (ops.toFp32 (w (.aux .var2))), .ofInt n⟩ := by
  simp only [maskValues, Option.bind_eq_bind, Option.bind_eq_some_iff] at h
  obtain ⟨p0, h0, p1, h1, p2, h2, x, hx, n, hn, hv⟩ := h
  have hall : ∀ i, ∃ y, (params i).pr[0]? = some y := by
    rintro (⟨_ | _ | _⟩ | _)
    · exact ⟨p0, h0⟩
    · exact ⟨p1, h1⟩
    · exact ⟨p2, h2⟩
    · exact ⟨x, hx⟩
  choose w hw using hall
  obtain rfl := Option.some.inj (h0.symm.trans (hw (.aux .var0)))
  obtain rfl := Option.some.inj (h1.symm.trans (hw (.aux .var1)))
  obtain rfl := Option.some.inj (h2.symm.trans (hw (.aux .var2)))
  obtain rfl := Option.some.inj (hx.symm.trans (hw .loadSelect))
  exact ⟨w, n, hw, hn, (Option.some.inj hv).symm⟩

theorem bind_eq_ok {α β : Type} {x : Except Fault α} {f : α → Except Fault β} {b : β} :
    x >>= f = .ok b ↔ ∃ a, x = .ok a ∧ f a = .ok b := by
  constructor
  · intro h
    cases x with
    | error e => cases h
    | ok a => exact ⟨a, rfl, h⟩
  · rintro ⟨a, rfl, h⟩
    exact h

theorem param_eq_ok {inp : StepInputs D} {i : ParamIdx} {x : D} (h : inp.param i = .ok x) :
    (inp.params i).pr[0]? = some x := by
  unfold StepInputs.param at h
  split at h
  · rename_i heq
    rw [heq, Except.ok.inj h]
  · cases h

theorem tempLoadType_eq_ok {inp : StepInputs D} {n : ℤ} (h : inp.tempLoadType ops = .ok n) :
    ∃ x, (inp.params .loadSelect).pr[0]? = some x ∧ ops.selectorToInt x = some n := by
  obtain ⟨x, hx, hn⟩ := bind_eq_ok.1 h
  refine ⟨x, param_eq_ok hx, ?_⟩
  split at hn
  · rename_i heq
    rw [heq, Except.ok.inj hn]
  · cases hn

/-- A step that reads without a fault has read its mask and three signals. -/
theorem maskValues_of_reads {inp : StepInputs D} {r : StepReads F} (h : inp.reads ops = .ok r) :
    ∃ v u0 u1 u2, maskValues ops inp.params = some v ∧
      r = ⟨ops.toFp32 u1, ops.toFp32 u2, v.param, v.loadType, ops.toFp32 u0⟩ := by
  simp only [StepInputs.reads, bind_eq_ok] at h
  obtain ⟨u1, -, u2, -, p0, h0, p1, h1, p2, h2, n, hn, u0, -, hr⟩ := h
  obtain ⟨x, hx, hsel⟩ := tempLoadType_eq_ok hn
  split at hr
  · cases hr
    refine ⟨⟨auxValues (ops.toFp32 p0) (ops.toFp32 p1) (ops.toFp32 p2), .ofInt n⟩, u0, u1, u2, ?_,
      rfl⟩
    simp [maskValues, param_eq_ok h0, param_eq_ok h1, param_eq_ok h2, hx, hsel]
  · cases hr

/-- A step that finds all signals behind the pointers of port `0` reads them, and its mask. -/
theorem reads_of_maskValues {params : MaskParams D} {v : MaskValues F}
    (h : maskValues ops params = some v) (u0 u1 u2 : D) :
    (contiguous u0 u1 u2 params).reads ops
      = .ok ⟨ops.toFp32 u1, ops.toFp32 u2, v.param, v.loadType, ops.toFp32 u0⟩ := by
  obtain ⟨w, n, hw, hn, rfl⟩ := maskValues_eq_some h
  exact reads_contiguous ops u0 u1 u2 hw hn

theorem mem_readsOf {es : List (BlockEvent F D)} {r : StepReads F} (h : r ∈ readsOf ops es) :
    ∃ inp, .outputs inp ∈ es ∧ inp.reads ops = .ok r := by
  obtain ⟨e, he, hr⟩ := List.mem_filterMap.1 h
  cases e with
  | outputs inp =>
    refine ⟨inp, he, ?_⟩
    cases hread : inp.reads ops with
    | error f => simp [hread, Except.toOption] at hr
    | ok r' => simpa [hread, Except.toOption] using hr
  | restore contents => cases hr

theorem readsOf_one {inp : StepInputs D} {r : StepReads F} (h : inp.reads ops = .ok r) :
    readsOf ops [.outputs inp] = [r] := by
  simp [readsOf, h, Except.toOption]

theorem blockRun_cons_eq_ok {s t : SimStruct F} {e : BlockEvent F D} {es : List (BlockEvent F D)}
    {ys : List D} (h : blockRun ops s (e :: es) = .ok (t, ys)) :
    ∃ u zs ws, blockStep ops s e = .ok (u, zs) ∧ blockRun ops u es = .ok (t, ws) ∧
      ys = zs ++ ws := by
  rw [blockRun] at h
  split at h
  · cases h
  · rename_i u zs hstep
    cases hrest : blockRun ops u es with
    | error f => rw [hrest] at h; cases h
    | ok q =>
      rw [hrest] at h
      cases h
      exact ⟨u, zs, q.2, hstep, hrest, rfl⟩

/-- **The outputs of a run are the torques of its reads.** -/
theorem outputs_of_blockRun {s t : SimStruct F} (h : s.Started ops) {es : List (BlockEvent F D)}
    {ys : List D} (hrun : blockRun ops s es = .ok (t, ys)) :
    ys = (readsOf ops es).map fun r => ops.ofFp32 (r.torque ops.toFloatOps
      (SimLoadEmulator.initialPumpData ops.toFloatOps)) := by
  induction es generalizing s ys with
  | nil => cases hrun; rfl
  | cons e es ih =>
    obtain ⟨u, zs, ws, hstep, hrest, rfl⟩ := blockRun_cons_eq_ok hrun
    rw [ih (h.blockStep hstep) hrest]
    cases e with
    | outputs inp =>
      obtain ⟨out, -, heq⟩ := h.mdlOutputs_eq inp
      rw [blockStep, heq] at hstep
      cases hread : inp.reads ops with
      | error f => rw [hread] at hstep; cases hstep
      | ok r =>
        rw [hread] at hstep
        cases hstep
        simp [readsOf, hread, Except.toOption]
    | restore contents =>
      cases hstep
      rfl

theorem blockRun_one {s : SimStruct F} (h : s.Started ops) {inp : StepInputs D}
    {r : StepReads F} (hread : inp.reads ops = .ok r) :
    ∃ t, blockRun ops s [.outputs inp] = .ok (t, [ops.ofFp32 (r.torque ops.toFloatOps
      (SimLoadEmulator.initialPumpData ops.toFloatOps))]) := by
  obtain ⟨out, -, heq⟩ := h.mdlOutputs_eq inp
  exact ⟨out r, by simp [blockRun, blockStep, heq, hread, Except.map]⟩

end Reads

end Sfun

/-! ### When the torques agree -/

/-- The block on rounded values: a signal or mask value is rounded, an output stays as it is. -/
def roundedBlockOps (rnd : ℚ → ℚ) (selectorToInt : ℚ → Option ℤ) : BlockOps ℚ ℚ where
  toFloatOps := .rounded rnd
  toFp32 := rnd
  ofFp32 := id
  selectorToInt := selectorToInt

/-- The mask values for which the load with the given pump constants is the one selected. -/
def Matches (rnd : ℚ → ℚ) (pump : Controller.PumpStruct ℚ) (v : MaskValues ℚ) : Prop :=
  match v.loadType with
  | .pump => pump.kL = rnd (1 / 10000) ∧ pump.tConstant = 0
  | .electricVehicle => pump.kL = rnd (1 / 10000) ∧ pump.tConstant = 0
  | .shipPropulsion => pump.kL = 0 ∧ pump.tConstant = rnd (3 / 10)
  | .windPower => pump.kL = 0 ∧ pump.tConstant = rnd (4 / 10)
  | .hydroPower =>
      pump.kL = 0 ∧ v.param .var0 = 0 ∧ v.param .var1 = 0 ∧ pump.tConstant = v.param .var2
  | .unnamed _ => pump.kL = 0 ∧ pump.tConstant = 0

section Torque

variable {rep : ℚ → Prop} {rnd : ℚ → ℚ} {kL tConstant : ℚ}

theorem pumpTerm_two_pow (h : IsFormat rep rnd) (hk : rep kL) (k : ℕ) :
    pumpTerm rnd kL (2 ^ k) = kL * 2 ^ (k + k) := by
  have hpow : (0 : ℚ) ≤ 2 ^ k := by positivity
  rw [pumpTerm, if_pos hpow, h.fix _ (h.rep_mul_two_pow hk k), mul_assoc, ← pow_add,
    h.fix _ (h.rep_mul_two_pow hk (k + k))]

/-- A pump whose torque does not depend on the speed has no speed term. -/
theorem runPump_const_iff (h : IsFormat rep rnd) (hk : rep kL) (ht : rep tConstant) (c : ℚ) :
    (∀ u, runPump (.rounded rnd) ⟨kL, tConstant⟩ (rnd u) = c) ↔ kL = 0 ∧ tConstant = c := by
  constructor
  · intro hconst
    have hzero := hconst 0
    rw [h.zero, runPump_zero h.toIsRounding kL ht] at hzero
    refine ⟨?_, hzero⟩
    by_contra hne
    obtain ⟨j, hj⟩ := h.exists_ne_rnd hk hne tConstant
    apply hj (j + j) (Nat.le_add_right j j)
    have hrun := hconst (2 ^ j)
    rw [h.fix _ (h.rep_two_pow j), runPump_rounded, pumpTerm_two_pow h hk] at hrun
    exact hrun.trans hzero.symm
  · rintro ⟨rfl, rfl⟩ u
    have hterm : pumpTerm rnd 0 (rnd u) = 0 := by simp [pumpTerm, h.zero]
    rw [runPump_rounded, hterm, zero_add, h.fix _ ht]

/-- A pump without constant torque shows its constants at standstill and at one revolution. -/
theorem runPump_eq_iff (h : IsFormat rep rnd) {k₀ : ℚ} (hk₀ : rep k₀) (hk : rep kL)
    (ht : rep tConstant) :
    (∀ u, runPump (.rounded rnd) ⟨kL, tConstant⟩ (rnd u) = runPump (.rounded rnd) ⟨k₀, 0⟩ (rnd u)) ↔
      kL = k₀ ∧ tConstant = 0 := by
  have hrep : rep 0 := h.zero ▸ h.rep_rnd 0
  constructor
  · intro heq
    have hzero := heq 0
    rw [h.zero, runPump_zero h.toIsRounding kL ht, runPump_zero h.toIsRounding k₀ hrep] at hzero
    have hone := heq (2 ^ 0)
    rw [h.fix _ (h.rep_two_pow 0), runPump_rounded, runPump_rounded, hzero,
      pumpTerm_two_pow h hk, pumpTerm_two_pow h hk₀] at hone
    simp only [pow_zero, mul_one, add_zero, h.fix _ hk, h.fix _ hk₀] at hone
    exact ⟨hone, hzero⟩
  · rintro ⟨rfl, rfl⟩ u
    rfl

/-- The sine waves of the branch `HydroPower` are constant when they have no amplitude. -/
theorem sineWaves_const_iff (h : IsFormat rep rnd) {p0 p1 p2 c : ℚ} (h0 : rep p0) (h1 : rep p1)
    (h2 : rep p2) :
    (∀ u1 u2, rnd (rnd (rnd (p0 * rnd u1) + rnd (p1 * rnd u2)) + p2) = c) ↔
      p0 = 0 ∧ p1 = 0 ∧ p2 = c := by
  constructor
  · intro hconst
    have hzero : p2 = c := by
      have hstill := hconst 0 0
      rwa [h.zero, mul_zero, mul_zero, h.zero, add_zero, h.zero, zero_add, h.fix _ h2] at hstill
    subst hzero
    refine ⟨?_, ?_, rfl⟩
    · by_contra hne
      obtain ⟨j, hj⟩ := h.exists_ne_rnd h0 hne p2
      apply hj j le_rfl
      have hrun := hconst (2 ^ j) 0
      have hrep := h.fix _ (h.rep_mul_two_pow h0 j)
      rwa [h.zero, mul_zero, h.zero, add_zero, h.fix _ (h.rep_two_pow j), hrep, hrep] at hrun
    · by_contra hne
      obtain ⟨j, hj⟩ := h.exists_ne_rnd h1 hne p2
      apply hj j le_rfl
      have hrun := hconst 0 (2 ^ j)
      have hrep := h.fix _ (h.rep_mul_two_pow h1 j)
      rwa [h.zero, mul_zero, h.zero, zero_add, h.fix _ (h.rep_two_pow j), hrep, hrep] at hrun
  · rintro ⟨rfl, rfl, rfl⟩ u1 u2
    simp [h.zero, h.fix _ h2]

/-- **The mask values for which the block has the torques of a pump.** -/
theorem torque_eq_iff (h : IsFormat rep rnd) {pump : Controller.PumpStruct ℚ} (hk : rep pump.kL)
    (ht : rep pump.tConstant) {v : MaskValues ℚ} (hv : ∀ i, rep (v.param i)) :
    (∀ u0 u1 u2, runPump (.rounded rnd) ⟨pump.kL, pump.tConstant⟩ (rnd u0)
      = StepReads.torque (.rounded rnd) ⟨rnd u1, rnd u2, v.param, v.loadType, rnd u0⟩
        (SimLoadEmulator.initialPumpData (.rounded rnd))) ↔ Matches rnd pump v := by
  have hzero : rnd 0 = 0 := h.zero
  obtain ⟨param, loadType⟩ := v
  cases loadType with
  | pump =>
    simp only [StepReads.torque, torqueOf, Matches, SimLoadEmulator.initialPumpData,
      FloatOps.rounded, hzero, forall_const]
    exact runPump_eq_iff h (h.rep_rnd _) hk ht
  | electricVehicle =>
    simp only [StepReads.torque, torqueOf, Matches, SimLoadEmulator.initialPumpData,
      FloatOps.rounded, hzero, forall_const]
    exact runPump_eq_iff h (h.rep_rnd _) hk ht
  | shipPropulsion =>
    simp only [StepReads.torque, torqueOf, Matches, FloatOps.rounded, forall_const]
    exact runPump_const_iff h hk ht _
  | windPower =>
    simp only [StepReads.torque, torqueOf, Matches, FloatOps.rounded, forall_const]
    exact runPump_const_iff h hk ht _
  | hydroPower =>
    simp only [StepReads.torque, torqueOf, Matches]
    constructor
    · intro heq
      -- the speed fixes the sine waves, and the sine waves then fix the pump
      have hstill : ∀ u1 u2, rnd (rnd (rnd (param .var0 * rnd u1) + rnd (param .var1 * rnd u2))
          + param .var2) = pump.tConstant := by
        intro u1 u2
        rw [← runPump_zero h.toIsRounding pump.kL ht, ← hzero]
        exact (heq 0 u1 u2).symm
      obtain ⟨h0, h1, h2⟩ :=
        (sineWaves_const_iff h (hv .var0) (hv .var1) (hv .var2)).1 hstill
      have hpump := (runPump_const_iff h hk ht pump.tConstant).1 fun u =>
        (heq u 0 0).trans (hstill 0 0)
      exact ⟨hpump.1, h0, h1, h2.symm⟩
    · rintro ⟨hkL, h0, h1, h2⟩ u0 u1 u2
      have hsine := (sineWaves_const_iff h (hv .var0) (hv .var1) (hv .var2)).2 ⟨h0, h1, h2.symm⟩
      exact ((runPump_const_iff h hk ht _).2 ⟨hkL, rfl⟩ u0).trans (hsine u1 u2).symm
  | unnamed n =>
    simp only [StepReads.torque, torqueOf, Matches, FloatOps.rounded, hzero, forall_const]
    exact runPump_const_iff h hk ht 0

/-! ### Runs -/

/-- The controller answers the speeds the block has read with the outputs of the block, over every
run of the block with the given masks, saved and restored at any time. -/
def BlockAgrees (ops : BlockOps ℚ ℚ) (load1 : Controller.LoadParameters ℚ)
    (masks : Set (MaskParams ℚ)) : Prop :=
  ∀ (contents : SimLoadEmulator ℚ) (e : LoadEmulator ℚ) (es : List (BlockEvent ℚ ℚ))
    (s : SimStruct ℚ) (ys : List ℚ), (∀ inp, .outputs inp ∈ es → inp.params ∈ masks) →
    blockRun ops (mdlStart ops contents) es = .ok (s, ys) →
    (Controller.outputs ops.toFloatOps (Controller.initializeEmulator ops.toFloatOps load1 e)
      ((readsOf ops es).map StepReads.speed)).map ops.ofFp32 = ys

/-- **The block and the controller agree when all masks in use match.** -/
theorem blockAgrees_iff (h : IsFormat rep rnd) (selectorToInt : ℚ → Option ℤ)
    {load1 : Controller.LoadParameters ℚ} (hk : rep load1.pump.kL) (ht : rep load1.pump.tConstant)
    (masks : Set (MaskParams ℚ)) :
    BlockAgrees (roundedBlockOps rnd selectorToInt) load1 masks ↔
      ∀ params ∈ masks, ∀ v, maskValues (roundedBlockOps rnd selectorToInt) params = some v →
        Matches rnd load1.pump v := by
  have hrep : ∀ params v, maskValues (roundedBlockOps rnd selectorToInt) params = some v →
      ∀ i, rep (v.param i) := by
    intro params v hv i
    obtain ⟨w, n, -, -, rfl⟩ := maskValues_eq_some hv
    cases i <;> exact h.rep_rnd _
  constructor
  · intro hagree params hmem v hv
    rw [← torque_eq_iff h hk ht (hrep params v hv)]
    intro u0 u1 u2
    -- one step of a started block shows the torque
    have hread := reads_of_maskValues hv u0 u1 u2
    obtain ⟨t, hrun⟩ := blockRun_one (mdlStart_started _ (plainObject 0)) hread
    have hmasks : ∀ inp, .outputs inp ∈ [BlockEvent.outputs (F := ℚ) (contiguous u0 u1 u2 params)] →
        inp.params ∈ masks := by
      intro inp hinp
      cases List.mem_singleton.1 hinp
      exact hmem
    have hone := hagree (plainObject 0) ⟨.pump, ⟨0, 0⟩, 0⟩ _ _ _ hmasks hrun
    rw [Controller.outputs_initializeEmulator] at hone
    rw [readsOf_one hread] at hone
    exact List.head_eq_of_cons_eq hone
  · intro hmatch contents e es s ys hmasks hrun
    rw [outputs_of_blockRun (mdlStart_started _ contents) hrun,
      Controller.outputs_initializeEmulator, List.map_map, List.map_map]
    apply List.map_congr_left
    intro r hr
    obtain ⟨inp, hinp, hread⟩ := mem_readsOf hr
    obtain ⟨v, u0, u1, u2, hv, rfl⟩ := maskValues_of_reads hread
    have hmatched := hmatch _ (hmasks inp hinp) v hv
    exact (torque_eq_iff h hk ht (hrep _ v hv)).2 hmatched u0 u1 u2

end Torque

/-- The pump constants `Initialize` sets in the block, in the database of the controller. -/
def tunedConfiguration : Controller.LoadParameters ℚ := ⟨0, ⟨roundNE 24 (1 / 10000), 0⟩⟩

/-- The selector `1`, `2` or another one, and `1` for the other mask values. -/
def selectorMask (selector : ℚ) : MaskParams ℚ
  | .aux _ => .ofList [1]
  | .loadSelect => .ofList [selector]

theorem blockAgrees_iff_tuned :
    BlockAgrees (roundedBlockOps (roundNE 24) fun x => some (truncate (x - 1))) tunedConfiguration
      {selectorMask 1, selectorMask 2} := by
  have hzero : Representable 24 0 := ⟨0, 0, by norm_num, by norm_num⟩
  refine (blockAgrees_iff (isFormat_roundNE (by decide)) _ (representable_roundNE (by decide) _)
    hzero _).2 fun params hmem v hv => ?_
  have hload : v.loadType = .pump ∨ v.loadType = .electricVehicle := by
    rcases hmem with rfl | rfl
    · left
      rw [← Option.some.inj hv]
      decide +kernel
    · right
      rw [← Option.some.inj hv]
      decide +kernel
  rcases hload with hload | hload
  · simp [Matches, hload, tunedConfiguration]
  · simp [Matches, hload, tunedConfiguration]

end Tet4120

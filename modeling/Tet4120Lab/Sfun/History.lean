import Tet4120Lab.Sfun.Block

/-!
# Histories of the block

A run is `mdlStart` followed by steps of `mdlOutputs` and, between them, by saving the block and
restoring it on a freshly started object.

* `blockRun`: the block and all outputs of a run, up to the first fault;
* `SimStruct.Started`: the one field that outlives a step is as `Initialize` set it;
* `block_memoryless`: the output of a step does not depend on the steps before it, nor on saving
  and restoring the block.
-/

namespace Tet4120.Sfun

section History

variable {F D : Type} (ops : BlockOps F D)

/-- `mdlGetOperatingPoint(S)` returns `NULL`. -/
def mdlGetOperatingPoint (_ : SimStruct F) : Option (MxArray D) := none

/-- `mdlSetOperatingPoint(S, ma)` does nothing. -/
def mdlSetOperatingPoint (s : SimStruct F) (_ : Option (MxArray D)) : SimStruct F := s

/-- A step, or saving the block and restoring it on a freshly started object. -/
inductive BlockEvent (F D : Type)
  | outputs (inp : StepInputs D)
  | restore (contents : SimLoadEmulator F)

/-- One event: the block after it and the outputs it writes. -/
def blockStep (s : SimStruct F) : BlockEvent F D → Except Fault (SimStruct F × List D)
  | .outputs inp => (mdlOutputs ops s inp).map fun r => (r.1, [r.2])
  | .restore contents =>
      .ok (mdlSetOperatingPoint (mdlStart ops contents) (mdlGetOperatingPoint (D := D) s), [])

/-- A sequence of events; the first fault ends it. -/
def blockRun : SimStruct F → List (BlockEvent F D) → Except Fault (SimStruct F × List D)
  | s, [] => .ok (s, [])
  | s, e :: es =>
      match blockStep ops s e with
      | .error f => .error f
      | .ok (t, ys) => (blockRun t es).map fun r => (r.1, ys ++ r.2)

/-- The object has the pump data `Initialize` set. -/
def SimStruct.Started (s : SimStruct F) : Prop :=
  ∃ e : SimLoadEmulator F, s.pwork = some e ∧
    e.pumpData = SimLoadEmulator.initialPumpData ops.toFloatOps

theorem mdlStart_started (contents : SimLoadEmulator F) : (mdlStart ops contents).Started ops :=
  ⟨_, rfl, rfl⟩

variable {ops} {s t : SimStruct F}

/-- The output of a step of a started block is a function of its inputs. -/
theorem SimStruct.Started.mdlOutputs_eq (h : s.Started ops) (inp : StepInputs D) :
    ∃ out : StepReads F → SimStruct F, (∀ r, (out r).Started ops) ∧
      mdlOutputs ops s inp = (inp.reads ops).map fun r =>
        (out r, ops.ofFp32 (r.torque ops.toFloatOps
          (SimLoadEmulator.initialPumpData ops.toFloatOps))) := by
  obtain ⟨pwork⟩ := s
  obtain ⟨e, rfl, hpump⟩ := h
  refine ⟨fun r => ⟨some (r.object ops.toFloatOps e.pumpData)⟩, fun r => ⟨_, rfl, hpump⟩, ?_⟩
  rw [Sfun.mdlOutputs_eq, hpump]

theorem SimStruct.Started.output_congr (hs : s.Started ops) (ht : t.Started ops)
    (inp : StepInputs D) :
    (mdlOutputs ops s inp).map Prod.snd = (mdlOutputs ops t inp).map Prod.snd := by
  obtain ⟨out, -, hout⟩ := hs.mdlOutputs_eq inp
  obtain ⟨out', -, hout'⟩ := ht.mdlOutputs_eq inp
  rw [hout, hout']
  cases inp.reads ops <;> rfl

/-- A started block stays started. -/
theorem SimStruct.Started.blockStep (h : s.Started ops) {e : BlockEvent F D} {ys : List D}
    (hstep : blockStep ops s e = .ok (t, ys)) : t.Started ops := by
  cases e with
  | outputs inp =>
    obtain ⟨out, hout, heq⟩ := h.mdlOutputs_eq inp
    rw [Sfun.blockStep, heq] at hstep
    cases hread : inp.reads ops with
    | error f => rw [hread] at hstep; cases hstep
    | ok r => rw [hread] at hstep; cases hstep; exact hout r
  | restore contents =>
    cases hstep
    exact mdlStart_started ops contents

theorem map_snd_append (x : Except Fault (SimStruct F × List D)) (ys : List D) :
    (x.map fun r => (r.1, ys ++ r.2)).map Prod.snd = (x.map Prod.snd).map (ys ++ ·) := by
  cases x <;> rfl

theorem map_snd_singleton (x : Except Fault (SimStruct F × D)) :
    (x.map fun r => (r.1, [r.2])).map Prod.snd = (x.map Prod.snd).map fun y => [y] := by
  cases x <;> rfl

theorem blockStep_snd_congr (hs : s.Started ops) (ht : t.Started ops) (e : BlockEvent F D) :
    (blockStep ops s e).map Prod.snd = (blockStep ops t e).map Prod.snd := by
  cases e with
  | outputs inp =>
    rw [blockStep, blockStep, map_snd_singleton, map_snd_singleton, hs.output_congr ht inp]
  | restore contents => rfl

/-- **The outputs of a run do not depend on the started block it begins with.** -/
theorem blockRun_snd_congr (es : List (BlockEvent F D)) :
    ∀ {s t : SimStruct F}, s.Started ops → t.Started ops →
      (blockRun ops s es).map Prod.snd = (blockRun ops t es).map Prod.snd := by
  induction es with
  | nil => intro s t _ _; rfl
  | cons e es ih =>
    intro s t hs ht
    have hstep := blockStep_snd_congr hs ht e
    simp only [blockRun]
    cases hs' : blockStep ops s e with
    | error f =>
      cases ht' : blockStep ops t e with
      | error f' => simpa [hs', ht', Except.map] using hstep
      | ok r => simp [hs', ht', Except.map] at hstep
    | ok r =>
      cases ht' : blockStep ops t e with
      | error f' => simp [hs', ht', Except.map] at hstep
      | ok r' =>
        obtain ⟨s', ys⟩ := r
        obtain ⟨t', ys'⟩ := r'
        have hys : ys = ys' := by simpa [hs', ht', Except.map] using hstep
        subst hys
        simp only
        rw [map_snd_append, map_snd_append, ih (hs.blockStep hs') (ht.blockStep ht')]

theorem SimStruct.Started.blockRun (h : s.Started ops) {es : List (BlockEvent F D)} {ys : List D}
    (hrun : blockRun ops s es = .ok (t, ys)) : t.Started ops := by
  induction es generalizing s ys with
  | nil => cases hrun; exact h
  | cons e es ih =>
    simp only [Sfun.blockRun] at hrun
    cases hstep : Sfun.blockStep ops s e with
    | error f => rw [hstep] at hrun; cases hrun
    | ok r =>
      obtain ⟨u, zs⟩ := r
      rw [hstep] at hrun
      simp only at hrun
      cases hrest : Sfun.blockRun ops u es with
      | error f => rw [hrest] at hrun; cases hrun
      | ok r' =>
        obtain ⟨v, ws⟩ := r'
        rw [hrest] at hrun
        cases hrun
        exact ih (h.blockStep hstep) hrest

theorem blockRun_append (s : SimStruct F) (es₁ es₂ : List (BlockEvent F D)) :
    blockRun ops s (es₁ ++ es₂) =
      match blockRun ops s es₁ with
      | .error f => .error f
      | .ok (t, ys) => (blockRun ops t es₂).map fun r => (r.1, ys ++ r.2) := by
  induction es₁ generalizing s with
  | nil =>
    simp only [List.nil_append, blockRun]
    cases blockRun ops s es₂ <;> rfl
  | cons e es₁ ih =>
    simp only [List.cons_append, blockRun]
    cases blockStep ops s e with
    | error f => rfl
    | ok r =>
      obtain ⟨t, ys⟩ := r
      simp only [ih]
      cases blockRun ops t es₁ with
      | error f => rfl
      | ok r' =>
        obtain ⟨u, zs⟩ := r'
        simp only [Except.map]
        cases blockRun ops u es₂ with
        | error f => rfl
        | ok r'' => simp

end History

/-- **The block is memoryless.** -/
theorem block_memoryless {F D : Type} (ops : BlockOps F D) :
    (∀ (c₁ c₂ : SimLoadEmulator F) (es₁ es₂ : List (BlockEvent F D)) (s₁ s₂ : SimStruct F)
      (ys₁ ys₂ : List D) (inp : StepInputs D),
      blockRun ops (mdlStart ops c₁) es₁ = .ok (s₁, ys₁) →
      blockRun ops (mdlStart ops c₂) es₂ = .ok (s₂, ys₂) →
      (mdlOutputs ops s₁ inp).map Prod.snd = (mdlOutputs ops s₂ inp).map Prod.snd) ∧
    (∀ (c c' : SimLoadEmulator F) (es₁ es₂ : List (BlockEvent F D)),
      (blockRun ops (mdlStart ops c) (es₁ ++ .restore c' :: es₂)).map Prod.snd
        = (blockRun ops (mdlStart ops c) (es₁ ++ es₂)).map Prod.snd) := by
  constructor
  · intro c₁ c₂ es₁ es₂ s₁ s₂ ys₁ ys₂ inp h₁ h₂
    have hs₁ := (mdlStart_started ops c₁).blockRun h₁
    have hs₂ := (mdlStart_started ops c₂).blockRun h₂
    exact hs₁.output_congr hs₂ inp
  · intro c c' es₁ es₂
    rw [blockRun_append, blockRun_append]
    cases hrun : blockRun ops (mdlStart ops c) es₁ with
    | error f => rfl
    | ok r =>
      obtain ⟨s, ys⟩ := r
      have hs := (mdlStart_started ops c).blockRun hrun
      have hrest := blockRun_snd_congr es₂ (mdlStart_started ops c') hs
      simp only [blockRun, blockStep, mdlSetOperatingPoint, map_snd_append, hrest]
      cases (blockRun ops s es₂).map Prod.snd <;> rfl

/-- Pointer arrays that hold `speed`, `0`, `0`, and `k` for every mask value. -/
def plainInputs (k speed : ℚ) : StepInputs ℚ where
  portPtrs _ := [speed, 0, 0]
  params _ := .ofList [k]
  outputWidth := 1

/-- An object with `x` in every field. -/
def plainObject (x : ℚ) : SimLoadEmulator ℚ := ⟨⟨.pump, ⟨x, x⟩, x⟩, fun _ => x, x, x⟩

/-- A pump step right after the start, and after a hydro and a wind step on another object. -/
theorem block_memoryless_pumpStep :
    ∃ s₁ s₂ ys₁ ys₂,
      blockRun exactBlockOps (mdlStart exactBlockOps (plainObject 0)) [] = .ok (s₁, ys₁) ∧
      blockRun exactBlockOps (mdlStart exactBlockOps (plainObject 7))
        [.outputs (plainInputs 5 2), .outputs (plainInputs 4 1)] = .ok (s₂, ys₂) ∧
      ys₂ = [5, 2 / 5] ∧
      (mdlOutputs exactBlockOps s₁ (plainInputs 1 10)).map Prod.snd = .ok (1 / 100) ∧
      (mdlOutputs exactBlockOps s₁ (plainInputs 1 10)).map Prod.snd
        = (mdlOutputs exactBlockOps s₂ (plainInputs 1 10)).map Prod.snd := by
  have hrun : ((blockRun exactBlockOps (mdlStart exactBlockOps (plainObject 7))
      [.outputs (plainInputs 5 2), .outputs (plainInputs 4 1)]).map Prod.snd).toOption
      = some [5, 2 / 5] := by decide +kernel
  have hstep : ((mdlOutputs exactBlockOps (mdlStart exactBlockOps (plainObject 0))
      (plainInputs 1 10)).map Prod.snd).toOption = some (1 / 100) := by decide +kernel
  cases h₂ : blockRun exactBlockOps (mdlStart exactBlockOps (plainObject 7))
      [.outputs (plainInputs 5 2), .outputs (plainInputs 4 1)] with
  | error f => rw [h₂] at hrun; cases hrun
  | ok r =>
    obtain ⟨s₂, ys₂⟩ := r
    rw [h₂] at hrun
    refine ⟨_, s₂, _, ys₂, rfl, rfl, Option.some.inj hrun, ?_,
      (block_memoryless exactBlockOps).1 _ _ [] _ _ s₂ _ ys₂ _ rfl h₂⟩
    cases hout : (mdlOutputs exactBlockOps (mdlStart exactBlockOps (plainObject 0))
      (plainInputs 1 10)).map Prod.snd with
    | error f => rw [hout] at hstep; cases hstep
    | ok y => rw [hout] at hstep; exact congrArg _ (Option.some.inj hstep)

end Tet4120.Sfun

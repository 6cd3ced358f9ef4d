import Tet4120Lab.Fp32
import Tet4120Lab.Lib.Accumulation
import Mathlib.Data.List.Range

/-!
# main.cpp: PWMIsr and the time it logs

Every interrupt adds `Tsamp` to `m_curTime`, an `fp32_t`, and then runs the datalogger, whose
asynchronous probe `PwmInt` has `m_curTime` as the variable with the time of a sample.

* `pwmIsr`, and `isrRun`, a sequence of interrupts from `m_curTime = 0`;
* `isrRun_time`: `m_curTime` is the rounded sum `accumulate 24 Tsamp`; `isrRun_samples`: if the
  datalogger records every call, the samples carry its values;
* `timeAdvances_iff`: every one of `N` interrupts advances the time exactly when none of them finds
  it at the stall point; that is so for the first `2 ^ 24` interrupts at least, and for no interrupt
  after the first `2 ^ 24 + 2 ^ 23`.

The stop watch of `PWMIsr` reads the global timer (`GlobalTimer`), and nothing here reads its result.
-/

namespace Tet4120

open Rounding

/-- The globals of `PWMIsr`; `samples` lists the times of the samples of the probe, latest last.
The counter wraps around as the addition of the processor does. -/
structure IsrGlobals (F : Type*) where
  pwmIntCntr : Int32
  curTime : F
  tsamp : F
  samples : List F

/-- The functions `PWMIsr` calls that only the prebuilt objects define. -/
structure IsrLibrary (F : Type*) where
  /-- `DriveRoutineFast()` -/
  driveRoutineFast : IsrGlobals F → IsrGlobals F
  /-- `m_dataloggers[0].Run(DATALOGGER_PROBE_BACKGROUND)` -/
  dataloggerRun : IsrGlobals F → IsrGlobals F

/-- What the program relies on: neither writes `m_curTime` or `Tsamp`. -/
structure IsrLibrary.Documented {F : Type*} (lib : IsrLibrary F) : Prop where
  driveRoutineFast_frame : ∀ g : IsrGlobals F,
    (lib.driveRoutineFast g).curTime = g.curTime ∧ (lib.driveRoutineFast g).tsamp = g.tsamp
  dataloggerRun_frame : ∀ g : IsrGlobals F,
    (lib.dataloggerRun g).curTime = g.curTime ∧ (lib.dataloggerRun g).tsamp = g.tsamp

/-- The datalogger is enabled and records at every call (no down-sampling); a sample of an
asynchronous probe carries the value of its time variable. -/
structure IsrLibrary.Records {F : Type*} (lib : IsrLibrary F) : Prop where
  driveRoutineFast_samples : ∀ g : IsrGlobals F, (lib.driveRoutineFast g).samples = g.samples
  dataloggerRun_samples : ∀ g : IsrGlobals F,
    (lib.dataloggerRun g).samples = g.samples ++ [g.curTime]

section Isr

variable {F : Type*} (ops : FloatOps F) (lib : IsrLibrary F)

/-- `PWMIsr()`. -/
def pwmIsr (g : IsrGlobals F) : IsrGlobals F :=
  let g := { g with pwmIntCntr := g.pwmIntCntr + 1 }
  let g := { g with curTime := ops.add g.curTime g.tsamp }
  lib.dataloggerRun (lib.driveRoutineFast g)

/-- The globals before the first interrupt. -/
def isrStart (tsamp : F) : IsrGlobals F where
  pwmIntCntr := 0
  curTime := ops.lit 0
  tsamp := tsamp
  samples := []

/-- The globals after `n` interrupts. -/
def isrRun (tsamp : F) : ℕ → IsrGlobals F
  | 0 => isrStart ops tsamp
  | n + 1 => pwmIsr ops lib (isrRun tsamp n)

variable {lib}

/-- What an interrupt does to the time. -/
theorem pwmIsr_time (hlib : lib.Documented) (g : IsrGlobals F) :
    (pwmIsr ops lib g).curTime = ops.add g.curTime g.tsamp ∧
      (pwmIsr ops lib g).tsamp = g.tsamp := by
  unfold pwmIsr
  dsimp only
  generalize hg : ({ g with pwmIntCntr := g.pwmIntCntr + 1
                            curTime := ops.add g.curTime g.tsamp } : IsrGlobals F) = g'
  obtain ⟨htime, htsamp⟩ := hlib.driveRoutineFast_frame g'
  obtain ⟨htime', htsamp'⟩ := hlib.dataloggerRun_frame (lib.driveRoutineFast g')
  rw [htime', htsamp', htime, htsamp, ← hg]
  exact ⟨rfl, rfl⟩

/-- The sample of an interrupt carries the time after it. -/
theorem pwmIsr_samples (hlib : lib.Documented) (hrecords : lib.Records) (g : IsrGlobals F) :
    (pwmIsr ops lib g).samples = g.samples ++ [(pwmIsr ops lib g).curTime] := by
  unfold pwmIsr
  dsimp only
  generalize hg : ({ g with pwmIntCntr := g.pwmIntCntr + 1
                            curTime := ops.add g.curTime g.tsamp } : IsrGlobals F) = g'
  have hsamples := hrecords.driveRoutineFast_samples g'
  rw [hrecords.dataloggerRun_samples, (hlib.dataloggerRun_frame _).1, hsamples, ← hg]

end Isr

/-! ### The time of a run -/

section Run

variable {lib : IsrLibrary ℚ} {tsamp : ℚ}

/-- **The time is a rounded sum.** -/
theorem isrRun_time (hlib : lib.Documented) (tsamp : ℚ) (n : ℕ) :
    (isrRun .fp32 lib tsamp n).curTime = accumulate 24 tsamp n ∧
      (isrRun .fp32 lib tsamp n).tsamp = tsamp := by
  induction n with
  | zero => exact ⟨roundNE_zero 24, rfl⟩
  | succ n ih =>
    obtain ⟨htime, htsamp⟩ := ih
    obtain ⟨htime', htsamp'⟩ := pwmIsr_time .fp32 hlib (isrRun .fp32 lib tsamp n)
    rw [htime, htsamp] at htime'
    exact ⟨htime', htsamp'.trans htsamp⟩

theorem isrRun_curTime (hlib : lib.Documented) (tsamp : ℚ) (n : ℕ) :
    (isrRun .fp32 lib tsamp n).curTime = accumulate 24 tsamp n := (isrRun_time hlib tsamp n).1

/-- **The samples carry its values.** -/
theorem isrRun_samples (hlib : lib.Documented) (hrecords : lib.Records) (tsamp : ℚ) (n : ℕ) :
    (isrRun .fp32 lib tsamp n).samples
      = (List.range n).map fun k => accumulate 24 tsamp (k + 1) := by
  induction n with
  | zero => rfl
  | succ n ih =>
    have hlast : (isrRun .fp32 lib tsamp (n + 1)).samples
        = (isrRun .fp32 lib tsamp n).samples ++ [(isrRun .fp32 lib tsamp (n + 1)).curTime] :=
      pwmIsr_samples .fp32 hlib hrecords _
    rw [hlast, ih, isrRun_curTime hlib, List.range_succ, List.map_append]
    rfl

/-- Each of the first `N` interrupts advances `m_curTime`. -/
def CurTimeAdvances (lib : IsrLibrary ℚ) (tsamp : ℚ) (N : ℕ) : Prop :=
  ∀ n < N, (isrRun .fp32 lib tsamp n).curTime < (isrRun .fp32 lib tsamp (n + 1)).curTime

/-- Moreover there are `N` samples, with increasing times. -/
structure TimeAdvances (lib : IsrLibrary ℚ) (tsamp : ℚ) (N : ℕ) : Prop where
  curTime : CurTimeAdvances lib tsamp N
  length_samples : (isrRun .fp32 lib tsamp N).samples.length = N
  samples : (isrRun .fp32 lib tsamp N).samples.Pairwise (· < ·)

theorem curTimeAdvances_iff_accumulate (hlib : lib.Documented) (tsamp : ℚ) (N : ℕ) :
    CurTimeAdvances lib tsamp N ↔
      ∀ n < N, accumulate 24 tsamp n < accumulate 24 tsamp (n + 1) := by
  simp only [CurTimeAdvances, isrRun_curTime hlib]

theorem pairwise_accumulate (hpos : 0 < tsamp) {N : ℕ}
    (h : ∀ n < N, accumulate 24 tsamp n < accumulate 24 tsamp (n + 1)) :
    ((List.range N).map fun k => accumulate 24 tsamp (k + 1)).Pairwise (· < ·) := by
  rw [List.pairwise_map]
  refine List.pairwise_lt_range.imp_of_mem fun {i j} _ hj hij => ?_
  -- between the two samples the time does not go back, and the later interrupt advances it
  calc accumulate 24 tsamp (i + 1) ≤ accumulate 24 tsamp j := accumulate_mono (by decide) hpos hij
    _ < accumulate 24 tsamp (j + 1) := h j (List.mem_range.1 hj)

/-- If the datalogger records every call, the samples advance when the time does. -/
theorem timeAdvances_iff_curTimeAdvances (hlib : lib.Documented) (hrecords : lib.Records)
    (hpos : 0 < tsamp) (N : ℕ) : TimeAdvances lib tsamp N ↔ CurTimeAdvances lib tsamp N := by
  constructor
  · exact fun h => h.curTime
  · intro h
    refine ⟨h, by simp [isrRun_samples hlib hrecords], ?_⟩
    rw [isrRun_samples hlib hrecords]
    exact pairwise_accumulate hpos ((curTimeAdvances_iff_accumulate hlib tsamp N).1 h)

theorem curTimeAdvances_iff (hlib : lib.Documented) (hpos : 0 < tsamp) (N : ℕ) :
    CurTimeAdvances lib tsamp N ↔
      ∀ n < N, (isrRun .fp32 lib tsamp n).curTime < stallPoint 24 tsamp := by
  rw [curTimeAdvances_iff_accumulate hlib]
  refine forall₂_congr fun n _ => ?_
  rw [accumulate_lt_succ_iff (by decide) hpos, isrRun_curTime hlib]

/-- The time advances in the runs up to some length, and in no longer one. -/
theorem exists_curTimeAdvances_iff_le (hlib : lib.Documented) (hpos : 0 < tsamp) :
    ∃ N₀, 2 ^ 24 ≤ N₀ ∧ N₀ ≤ 2 ^ 24 + 2 ^ 23 ∧ ∀ N, CurTimeAdvances lib tsamp N ↔ N ≤ N₀ := by
  obtain ⟨N₀, hlo, hhi, hiff⟩ := exists_accumulate_lt_succ_iff (p := 24) (by decide) hpos
  refine ⟨N₀, hlo, hhi, fun N => ?_⟩
  rw [curTimeAdvances_iff_accumulate hlib]
  constructor
  · intro h
    by_contra hlt
    exact lt_irrefl N₀ ((hiff N₀).1 (h N₀ (not_le.1 hlt)))
  · intro hle n hn
    exact (hiff n).2 (by omega)

/-- After `2 ^ 24 + 2 ^ 23` interrupts the time stands still. -/
theorem not_curTimeAdvances (hlib : lib.Documented) (hpos : 0 < tsamp) {N : ℕ}
    (hN : 2 ^ 24 + 2 ^ 23 < N) : ¬ CurTimeAdvances lib tsamp N := by
  intro h
  obtain ⟨N₀, -, hhi, hiff⟩ := exists_curTimeAdvances_iff_le hlib hpos
  exact absurd ((hiff N).1 h) (not_le.2 (hhi.trans_lt hN))

end Run

/-- **When every interrupt of a run advances the time**, and with it, if every call of the datalogger
records a sample, the times of the samples. -/
theorem timeAdvances_iff {lib : IsrLibrary ℚ} (hlib : lib.Documented) {tsamp : ℚ}
    (hpos : 0 < tsamp) :
    (∀ N, (CurTimeAdvances lib tsamp N ↔
        ∀ n < N, (isrRun .fp32 lib tsamp n).curTime < stallPoint 24 tsamp) ∧
      (lib.Records → (TimeAdvances lib tsamp N ↔
        ∀ n < N, (isrRun .fp32 lib tsamp n).curTime < stallPoint 24 tsamp))) ∧
    ∃ N₀, 2 ^ 24 ≤ N₀ ∧ N₀ ≤ 2 ^ 24 + 2 ^ 23 ∧ ∀ N,
      (CurTimeAdvances lib tsamp N ↔ N ≤ N₀) ∧ (lib.Records → (TimeAdvances lib tsamp N ↔ N ≤ N₀)) := by
  have hiff : ∀ N, lib.Records → (TimeAdvances lib tsamp N ↔ CurTimeAdvances lib tsamp N) :=
    fun N hrecords => timeAdvances_iff_curTimeAdvances hlib hrecords hpos N
  obtain ⟨N₀, hlo, hhi, hle⟩ := exists_curTimeAdvances_iff_le hlib hpos
  refine ⟨fun N => ⟨curTimeAdvances_iff hlib hpos N, fun hrecords => ?_⟩, N₀, hlo, hhi,
    fun N => ⟨hle N, fun hrecords => ?_⟩⟩
  · exact (hiff N hrecords).trans (curTimeAdvances_iff hlib hpos N)
  · exact (hiff N hrecords).trans (hle N)

/-- A drive routine that touches nothing here, and a datalogger that records every call. -/
def recordingLibrary : IsrLibrary ℚ where
  driveRoutineFast := id
  dataloggerRun g := { g with samples := g.samples ++ [g.curTime] }

theorem recordingLibrary_documented : recordingLibrary.Documented where
  driveRoutineFast_frame _ := ⟨rfl, rfl⟩
  dataloggerRun_frame _ := ⟨rfl, rfl⟩

theorem recordingLibrary_records : recordingLibrary.Records where
  driveRoutineFast_samples _ := rfl
  dataloggerRun_samples _ := rfl

/-- `Tsamp` as `main.cpp` initializes it, `1.0e-3`. -/
def initialTsamp : ℚ := FloatOps.fp32.lit (1 / 1000)

theorem initialTsamp_pos : 0 < initialTsamp := roundNE_pos (by decide) (by norm_num)

theorem timeAdvances_iff_initialTsamp : TimeAdvances recordingLibrary initialTsamp (2 ^ 24) := by
  obtain ⟨-, N₀, hlo, -, hiff⟩ := timeAdvances_iff recordingLibrary_documented initialTsamp_pos
  exact ((hiff (2 ^ 24)).2 recordingLibrary_records).2 hlo

theorem initialTsamp_not_timeAdvances :
    0 < initialTsamp ∧ Representable 24 initialTsamp ∧
      ¬ TimeAdvances recordingLibrary initialTsamp (2 ^ 24 + 2 ^ 23 + 1) :=
  ⟨initialTsamp_pos, representable_roundNE (by decide) _, fun h =>
    not_curTimeAdvances recordingLibrary_documented initialTsamp_pos (Nat.lt_succ_self _) h.curTime⟩

end Tet4120

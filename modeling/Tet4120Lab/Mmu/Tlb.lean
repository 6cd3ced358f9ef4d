import Tet4120Lab.Lib.Schedule
import Tet4120Lab.Mmu.TranslationTable

/-!
# Table walks during SetTlbAttributes

The TLB is a partial map from sections to descriptors.  At any moment the hardware may walk the
table for a section and fill its entry with the descriptor found there; an invalidation empties the
TLB.  `SetTlbAttributes` of `main.cpp` invalidates and then stores the descriptor,
`Xil_SetTlbAttributes` of the board support package stores and then invalidates.

* `Mmu.run`: the table and the TLB after a schedule, an interleaving of instructions and walks;
* `StaleWalk s evs`: a walk fetches the entry of `s` before the store to it and after the last
  invalidation, and no walk fetches it after the store;
* `agrees_iff`: after a sequence of calls of `SetTlbAttributes` the TLB agrees with the table
  exactly when the last call stores what was there or its schedule has no such walk;
* `xil_agrees`: after a call of `Xil_SetTlbAttributes` the TLB always agrees with the table.
-/

namespace Tet4120

open Schedule

/-- The instructions of the two functions; `store` is the assignment to `*ptr`. -/
inductive Instr
  | store (sect : ℕ) (desc : UInt32)
  | invalUtlb
  | invalBranchArray
  | dsb
  | isb
  | l1DCacheFlush
  | dCacheFlush
  deriving DecidableEq

/-- `SetTlbAttributes(addr, attrib)`. -/
def setTlbAttributesCode (addr attrib : UInt32) : List Instr :=
  [.invalUtlb, .dsb, .invalBranchArray, .dsb, .l1DCacheFlush,
    .store (sectionOf addr) (descriptor addr attrib), .dsb]

/-- `Xil_SetTlbAttributes(Addr, attrib)`. -/
def xilSetTlbAttributesCode (addr attrib : UInt32) : List Instr :=
  [.store (sectionOf addr) (descriptor addr attrib), .dCacheFlush, .invalUtlb, .invalBranchArray,
    .dsb, .isb]

/-- A sequence of calls. -/
def callsCode (calls : List (UInt32 × UInt32)) : List Instr :=
  calls.flatMap fun call => setTlbAttributesCode call.1 call.2

/-- The table and the TLB. -/
structure Mmu where
  table : Table
  tlb : ℕ → Option UInt32

/-- One instruction, or one table walk. -/
def Mmu.exec (m : Mmu) : Event Instr ℕ → Mmu
  | .cpu .invalUtlb => { m with tlb := fun _ => none }
  | .cpu (.store s d) => { m with table := Function.update m.table s d }
  | .env s => { m with tlb := Function.update m.tlb s (some (m.table s)) }
  | _ => m

/-- A schedule. -/
def Mmu.run (m : Mmu) (evs : List (Event Instr ℕ)) : Mmu := evs.foldl Mmu.exec m

/-- The entry of the section `s`, if there is one, is the descriptor of the table. -/
def Mmu.AgreesAt (m : Mmu) (s : ℕ) : Prop := ∀ d, m.tlb s = some d → d = m.table s

/-- The TLB agrees with the table. -/
def Mmu.Agrees (m : Mmu) : Prop := ∀ s, m.AgreesAt s

/-! ### Stale walks -/

/-- The entry of a section since the last invalidation: not fetched, fetched after the last store
to the section, or fetched before it. -/
inductive Walk
  | absent
  | current
  | outdated
  deriving DecidableEq

/-- What one event does to the entry of the section `s`. -/
def Walk.next (s : ℕ) (w : Walk) : Event Instr ℕ → Walk
  | .cpu .invalUtlb => .absent
  | .cpu (.store t _) => if t = s ∧ w = .current then .outdated else w
  | .env t => if t = s then .current else w
  | _ => w

/-- At the end of the schedule the entry of `s` was fetched before the store to it. -/
def StaleWalk (s : ℕ) (evs : List (Event Instr ℕ)) : Prop :=
  evs.foldl (Walk.next s) .absent = .outdated

/-! ### Schedules -/

theorem Mmu.run_append (m : Mmu) (xs ys : List (Event Instr ℕ)) :
    m.run (xs ++ ys) = (m.run xs).run ys := List.foldl_append

theorem Mmu.run_cons (m : Mmu) (e : Event Instr ℕ) (evs : List (Event Instr ℕ)) :
    m.run (e :: evs) = (m.exec e).run evs := rfl

/-- The store of an instruction. -/
def Instr.storeTo (table : Table) : Instr → Table
  | .store s d => Function.update table s d
  | _ => table

theorem Mmu.exec_cpu_table (m : Mmu) (i : Instr) : (m.exec (.cpu i)).table = i.storeTo m.table := by
  cases i <;> rfl

/-- Walks do not change the table. -/
theorem Mmu.run_table (m : Mmu) (evs : List (Event Instr ℕ)) :
    (m.run evs).table = (code evs).foldl Instr.storeTo m.table := by
  induction evs generalizing m with
  | nil => rfl
  | cons e evs ih =>
    rw [Mmu.run_cons, ih]
    cases e with
    | cpu i => rw [Mmu.exec_cpu_table]; rfl
    | env s => rfl

theorem foldl_storeTo_callsCode (calls : List (UInt32 × UInt32)) (table : Table) :
    (callsCode calls).foldl Instr.storeTo table = tableAfter calls table := by
  induction calls generalizing table with
  | nil => rfl
  | cons call calls ih =>
    rw [callsCode, List.flatMap_cons, List.foldl_append]
    exact ih _

/-- **The instructions of a sequence of calls store the table of `tableAfter`.** -/
theorem Mmu.run_callsCode_table (m : Mmu) {evs : List (Event Instr ℕ)}
    {calls : List (UInt32 × UInt32)} (h : code evs = callsCode calls) :
    (m.run evs).table = tableAfter calls m.table := by
  rw [Mmu.run_table, h, foldl_storeTo_callsCode]

/-- An event that neither stores nor invalidates. -/
def Quiet : Event Instr ℕ → Prop
  | .cpu .invalUtlb => False
  | .cpu (.store _ _) => False
  | _ => True

/-- Between an invalidation and a store the code has barriers and cache maintenance only. -/
theorem quiet_of_code {evs : List (Event Instr ℕ)} {is : List Instr} (h : code evs = is)
    (his : ∀ i ∈ is, Quiet (.cpu i)) : ∀ e ∈ evs, Quiet e :=
  forall_of_code (fun _ => trivial) (h ▸ his)

/-- Quiet events only fetch entries. -/
theorem Mmu.run_quiet {evs : List (Event Instr ℕ)} (h : ∀ e ∈ evs, Quiet e) (m : Mmu) :
    (m.run evs).table = m.table ∧
      ∀ s, (m.run evs).tlb s = if .env s ∈ evs then some (m.table s) else m.tlb s := by
  induction evs generalizing m with
  | nil => exact ⟨rfl, fun s => rfl⟩
  | cons e evs ih =>
    have hrest : ∀ e' ∈ evs, Quiet e' := fun e' he' => h e' (List.mem_cons_of_mem e he')
    obtain ⟨htable, htlb⟩ := ih hrest (m.exec e)
    have he := h e (List.mem_cons_self ..)
    cases e with
    | cpu i =>
      have hexec : m.exec (.cpu i) = m := by
        cases i with
        | store s d => exact he.elim
        | invalUtlb => exact he.elim
        | _ => rfl
      rw [hexec] at htable htlb
      refine ⟨by rw [Mmu.run_cons, hexec, htable], fun s => ?_⟩
      rw [Mmu.run_cons, hexec, htlb s]
      simp
    | env t =>
      refine ⟨htable, fun s => ?_⟩
      rw [Mmu.run_cons, htlb s]
      show (if _ then some (m.table s) else Function.update m.tlb t (some (m.table t)) s) = _
      by_cases hs : s = t
      · subst hs; simp
      · simp [hs]

theorem walk_quiet {evs : List (Event Instr ℕ)} (h : ∀ e ∈ evs, Quiet e) (s : ℕ) (w : Walk) :
    evs.foldl (Walk.next s) w = if .env s ∈ evs then .current else w := by
  induction evs generalizing w with
  | nil => rfl
  | cons e evs ih =>
    have hrest : ∀ e' ∈ evs, Quiet e' := fun e' he' => h e' (List.mem_cons_of_mem e he')
    have he := h e (List.mem_cons_self ..)
    rw [List.foldl_cons, ih hrest]
    cases e with
    | cpu i =>
      have hnext : Walk.next s w (.cpu i) = w := by
        cases i with
        | store t d => exact he.elim
        | invalUtlb => exact he.elim
        | _ => rfl
      rw [hnext]
      simp
    | env t =>
      by_cases ht : t = s
      · subst ht; simp [Walk.next]
      · simp [Walk.next, ht, Ne.symm ht]

/-! ### The last call -/

/-- The last call of a schedule: what comes before its invalidation, between that and its store,
and after its store. -/
structure LastCall (evs : List (Event Instr ℕ)) (addr attrib : UInt32)
    (xs ys zs : List (Event Instr ℕ)) : Prop where
  eq : evs = xs ++ .cpu .invalUtlb ::
    (ys ++ .cpu (.store (sectionOf addr) (descriptor addr attrib)) :: zs)
  quiet_ys : ∀ e ∈ ys, Quiet e
  quiet_zs : ∀ e ∈ zs, Quiet e

theorem exists_lastCall {evs : List (Event Instr ℕ)} {calls : List (UInt32 × UInt32)}
    {addr attrib : UInt32} (h : code evs = callsCode calls ++ setTlbAttributesCode addr attrib) :
    ∃ xs ys zs, LastCall evs addr attrib xs ys zs ∧ code xs = callsCode calls := by
  obtain ⟨xs, rest, hevs, hxs, hrest⟩ := code_eq_append_cons.1 h
  have hsplit : code rest = [Instr.dsb, .invalBranchArray, .dsb, .l1DCacheFlush] ++
      Instr.store (sectionOf addr) (descriptor addr attrib) :: [.dsb] := hrest
  obtain ⟨ys, zs, rfl, hys, hzs⟩ := code_eq_append_cons.1 hsplit
  exact ⟨xs, ys, zs, ⟨hevs, quiet_of_code hys (by simp [Quiet]),
    quiet_of_code hzs (by simp [Quiet])⟩, hxs⟩

namespace LastCall

variable {evs xs ys zs : List (Event Instr ℕ)} {addr attrib : UInt32}

/-- The table and every entry of the TLB after the last call. -/
theorem run_eq (h : LastCall evs addr attrib xs ys zs) (m : Mmu) :
    (m.run evs).table = setTlbAttributes (m.run xs).table addr attrib ∧
    ∀ s, (m.run evs).tlb s =
      if .env s ∈ zs then some (setTlbAttributes (m.run xs).table addr attrib s)
      else if .env s ∈ ys then some ((m.run xs).table s) else none := by
  obtain ⟨rfl, hys, hzs⟩ := h
  rw [Mmu.run_append, Mmu.run_cons, Mmu.run_append, Mmu.run_cons]
  -- the invalidation forgets all but the table of what came before
  generalize m.run xs = m₁
  obtain ⟨htable, htlb⟩ := Mmu.run_quiet hys (m₁.exec (.cpu .invalUtlb))
  generalize (m₁.exec (.cpu .invalUtlb)).run ys = m₂ at htable htlb
  obtain ⟨htable', htlb'⟩ := Mmu.run_quiet hzs
    (m₂.exec (.cpu (.store (sectionOf addr) (descriptor addr attrib))))
  have hstore : (m₂.exec (.cpu (.store (sectionOf addr) (descriptor addr attrib)))).table
      = setTlbAttributes m₁.table addr attrib := by
    show Function.update m₂.table _ _ = _
    rw [htable]
    rfl
  refine ⟨htable'.trans hstore, fun s => ?_⟩
  rw [htlb' s, hstore]
  show (if _ then _ else m₂.tlb s) = _
  rw [htlb s]
  rfl

theorem staleWalk_iff (h : LastCall evs addr attrib xs ys zs) :
    StaleWalk (sectionOf addr) evs ↔
      .env (sectionOf addr) ∈ ys ∧ .env (sectionOf addr) ∉ zs := by
  obtain ⟨rfl, hys, hzs⟩ := h
  rw [StaleWalk, List.foldl_append, List.foldl_cons, List.foldl_append, List.foldl_cons,
    walk_quiet hys, walk_quiet hzs]
  by_cases hy : .env (sectionOf addr) ∈ ys <;> by_cases hz : .env (sectionOf addr) ∈ zs <;>
    simp [hy, hz, Walk.next]

/-- Sections other than that of the last call agree, whatever was fetched when. -/
theorem agreesAt_of_ne (h : LastCall evs addr attrib xs ys zs) (m : Mmu) {s : ℕ}
    (hs : s ≠ sectionOf addr) : (m.run evs).AgreesAt s := by
  obtain ⟨htable, htlb⟩ := h.run_eq m
  have hkeep : setTlbAttributes (m.run xs).table addr attrib s = (m.run xs).table s :=
    Function.update_of_ne hs _ _
  intro d hd
  rw [htlb s, hkeep] at hd
  rw [htable, hkeep]
  split_ifs at hd
  · exact (Option.some.inj hd).symm
  · exact (Option.some.inj hd).symm

/-- The section of the last call agrees unless a stale walk fetched another descriptor. -/
theorem agreesAt_iff (h : LastCall evs addr attrib xs ys zs) (m : Mmu) :
    (m.run evs).AgreesAt (sectionOf addr) ↔
      (m.run xs).table (sectionOf addr) = descriptor addr attrib ∨
        ¬ StaleWalk (sectionOf addr) evs := by
  obtain ⟨htable, htlb⟩ := h.run_eq m
  have hnew : setTlbAttributes (m.run xs).table addr attrib (sectionOf addr)
      = descriptor addr attrib := Function.update_self ..
  rw [Mmu.AgreesAt, htable, htlb, hnew, h.staleWalk_iff]
  by_cases hz : .env (sectionOf addr) ∈ zs
  · simp [hz]
  · by_cases hy : .env (sectionOf addr) ∈ ys
    · simp [hz, hy]
    · simp [hz, hy]

end LastCall

/-- **After a sequence of calls the TLB agrees with the table unless the last one has a stale
walk.** -/
theorem agrees_iff {evs : List (Event Instr ℕ)} {calls : List (UInt32 × UInt32)}
    {addr attrib : UInt32} (h : code evs = callsCode calls ++ setTlbAttributesCode addr attrib)
    (m : Mmu) :
    ((m.run evs).Agrees ↔ (m.run evs).AgreesAt (sectionOf addr)) ∧
    ((m.run evs).AgreesAt (sectionOf addr) ↔
      tableAfter calls m.table (sectionOf addr) = descriptor addr attrib ∨
        ¬ StaleWalk (sectionOf addr) evs) := by
  obtain ⟨xs, ys, zs, hlast, hxs⟩ := exists_lastCall h
  constructor
  · refine ⟨fun hall => hall _, fun hat s => ?_⟩
    by_cases hs : s = sectionOf addr
    · exact hs ▸ hat
    · exact hlast.agreesAt_of_ne m hs
  · rw [hlast.agreesAt_iff m, m.run_callsCode_table hxs]

/-- **After `Xil_SetTlbAttributes` the TLB agrees with the table, whatever was fetched when.** -/
theorem xil_agrees {evs : List (Event Instr ℕ)} {before : List Instr} {addr attrib : UInt32}
    (h : code evs = before ++ xilSetTlbAttributesCode addr attrib) (m : Mmu) :
    (m.run evs).Agrees := by
  have hsplit : code evs
      = (before ++ [.store (sectionOf addr) (descriptor addr attrib), .dCacheFlush]) ++
        Instr.invalUtlb :: [.invalBranchArray, .dsb, .isb] := by
    rw [h, List.append_assoc]; rfl
  obtain ⟨xs, zs, rfl, -, hzs⟩ := code_eq_append_cons.1 hsplit
  have hquiet : ∀ e ∈ zs, Quiet e := quiet_of_code hzs (by simp [Quiet])
  rw [Mmu.run_append, Mmu.run_cons]
  obtain ⟨htable, htlb⟩ := Mmu.run_quiet hquiet ((m.run xs).exec (.cpu .invalUtlb))
  intro s d hd
  rw [htlb s] at hd
  rw [htable]
  split_ifs at hd
  · exact (Option.some.inj hd).symm
  · cases hd

/-! ### The calls of main -/

/-- The last call of `main` is made for section `0x4FF`. -/
theorem mainCalls_eq : ∃ calls, mainCalls = calls ++ [(0x4FF00000, 0x0C02)] ∧
    ∀ call ∈ calls, sectionOf call.1 ≠ 0x4FF := by
  refine ⟨[(0xFFFF0000, 0x04de2)] ++ sectionLoop 0 0x380 0x00 ++ sectionLoop 0x400 0x4FF 0x0C02,
    ?_, fun call hcall => ?_⟩
  · have hlast := sectionLoop_succ (show 0x400 ≤ 0x4FF by decide) 0x0C02
    rw [mainCalls, hlast, ← List.append_assoc]
    rfl
  · rcases List.mem_append.1 hcall with h | h
    · rcases List.mem_append.1 h with h | h
      · rw [List.mem_singleton] at h
        subst h
        decide
      · have := (mem_sectionLoop (by decide) h).2
        omega
    · have := (mem_sectionLoop (by decide) h).2
      omega

/-- **When a call, and when the whole set-up of `main`, leaves no stale translation.** -/
theorem noStaleTranslation_iff (m : Mmu) :
    (∀ (addr attrib : UInt32) (evs : List (Event Instr ℕ)),
      code evs = setTlbAttributesCode addr attrib →
      ((∀ d, (m.run evs).tlb (sectionOf addr) = some d → d = descriptor addr attrib) ↔
        m.table (sectionOf addr) = descriptor addr attrib ∨
          ¬ StaleWalk (sectionOf addr) evs)) ∧
    (∀ evs : List (Event Instr ℕ), code evs = callsCode mainCalls →
      ((m.run evs).Agrees ↔
        m.table 0x4FF = descriptor 0x4FF00000 0x0C02 ∨ ¬ StaleWalk 0x4FF evs)) := by
  constructor
  · intro addr attrib evs hcode
    have hcode' : code evs = callsCode [] ++ setTlbAttributesCode addr attrib := hcode
    have hcall : code evs = callsCode [(addr, attrib)] := hcode
    have htable : (m.run evs).table (sectionOf addr) = descriptor addr attrib := by
      rw [m.run_callsCode_table hcall]
      exact Function.update_self ..
    have hiff := (agrees_iff hcode' m).2
    rw [Mmu.AgreesAt, htable] at hiff
    exact hiff
  · intro evs hcode
    obtain ⟨calls, hmain, hne⟩ := mainCalls_eq
    have hcode' : code evs = callsCode calls ++ setTlbAttributesCode 0x4FF00000 0x0C02 := by
      rw [hcode, hmain, callsCode, callsCode, List.flatMap_append]
      rfl
    have hsection : sectionOf 0x4FF00000 = 0x4FF := by decide
    obtain ⟨hall, hat⟩ := agrees_iff hcode' m
    rw [hsection, tableAfter_of_forall_ne hne] at hat
    rw [hall, hsection, hat]

/-- The table of the board support package has the cacheable descriptor `0xFFF04C0E` for the
section of the rings. -/
def cacheableRings : Mmu where
  table := fun s => if s = 0xFFF then 0xFFF04C0E else 0
  tlb := fun _ => none

/-- The first call of `main`, with a walk for its section right before the store. -/
def walkBeforeStore : List (Event Instr ℕ) :=
  [.cpu .invalUtlb, .cpu .dsb, .cpu .invalBranchArray, .cpu .dsb, .cpu .l1DCacheFlush, .env 0xFFF,
    .cpu (.store 0xFFF 0xFFF04DE2), .cpu .dsb]

theorem walkBeforeStore_stale :
    cacheableRings.Agrees ∧ code walkBeforeStore = setTlbAttributesCode 0xFFFF0000 0x04de2 ∧
      ¬ ∀ d, (cacheableRings.run walkBeforeStore).tlb (sectionOf 0xFFFF0000) = some d →
        d = descriptor 0xFFFF0000 0x04de2 := by
  refine ⟨fun s d hd => ?_, by decide, fun hfresh => ?_⟩
  · cases hd
  · exact absurd (hfresh 0xFFF04C0E (by decide)) (by decide)

/-- The same call by `Xil_SetTlbAttributes`, with that walk and one after the flush. -/
def walkBeforeXilStore : List (Event Instr ℕ) :=
  [.env 0xFFF, .cpu (.store 0xFFF 0xFFF04DE2), .cpu .dCacheFlush, .env 0xFFF, .cpu .invalUtlb,
    .cpu .invalBranchArray, .cpu .dsb, .cpu .isb]

theorem xil_agrees_walkBeforeXilStore : (cacheableRings.run walkBeforeXilStore).Agrees :=
  xil_agrees (show code walkBeforeXilStore = [] ++ xilSetTlbAttributesCode 0xFFFF0000 0x04de2 by
    decide) cacheableRings

end Tet4120

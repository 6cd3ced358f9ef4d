import Tet4120Lab.Mmu.SharedMemory

/-!
# translation_table.S: the memory map CPU1 runs with

`translation_table.S` of the board support package builds the translation table at assembly time,
block by block; `main` then changes it.

* `rept`, `assemble`: the blocks `.rept` and the table they make; `mmuRegions` are the blocks of the
  `USE_AMP` build, with the DDR of `xparameters.h`;
* `getElem?_mmuTable`: word number `n` of the table is section `n` with the attributes of its block;
* `memoryMap_of_boot`: the whole map after `main`: it is the identity, and these sections fault, and
  these are cacheable;
* `bootMemory`: from a cold start, and in every schedule, the calls of `main` leave no stale
  translation, and CPU1 holds lines of the cacheable sections only.
-/

namespace Tet4120

open WriteBack Schedule

/-! ### The table of translation_table.S -/

/-- `.rept count`, `.word SECT + attrib`, `.set SECT, SECT+0x100000`. -/
def rept : ℕ → UInt32 → UInt32 → List UInt32
  | 0, _, _ => []
  | count + 1, sect, attrib => (sect + attrib) :: rept count (sect + 0x100000) attrib

/-- One block after the other, from `SECT` on. -/
def assemble (sect : UInt32) : List (ℕ × UInt32) → List UInt32
  | [] => []
  | (count, attrib) :: regions =>
      rept count sect attrib ++ assemble (sect + 0x100000 * UInt32.ofNat count) regions

/-- `DDR_REG`, from `XPAR_PS7_DDR_0_S_AXI_BASEADDR` and `XPAR_PS7_DDR_0_S_AXI_HIGHADDR`. -/
def ddrReg : ℕ := (0x3FFFFFFF - 0x00100000 + 1) / 0x100000

/-- The blocks of `translation_table.S`, built with `USE_AMP`. -/
def mmuRegions : List (ℕ × UInt32) :=
  [(1, 0x14de6), (ddrReg, 0x15de6), (0x3FF - ddrReg, 0x0), (0x0400, 0xc02), (0x0400, 0xc02),
    (0x0200, 0x0), (0x003, 0xc06), (0x0D, 0x0), (0x0010, 0xc06), (0x0020, 0xc06), (0x0020, 0xc0e),
    (0x0120, 0x0), (0x0010, 0xc06), (0x0030, 0x0), (0x0020, 0xc0a), (0x001F, 0x0), (1, 0x4c0e)]

/-- `MMUTable` as it is linked. -/
def mmuTable : List UInt32 := assemble 0 mmuRegions

/-- The attributes of the block that word number `n` lies in. -/
def attribAt : List (ℕ × UInt32) → ℕ → Option UInt32
  | [], _ => none
  | (count, attrib) :: regions, n => if n < count then some attrib else attribAt regions (n - count)

theorem sectionStart_add (s k : ℕ) :
    0x100000 * UInt32.ofNat s + 0x100000 * UInt32.ofNat k = 0x100000 * UInt32.ofNat (s + k) := by
  rw [UInt32.ofNat_add, UInt32.mul_add]

theorem sectionStart_succ (s : ℕ) :
    0x100000 * UInt32.ofNat s + 0x100000 = 0x100000 * UInt32.ofNat (s + 1) :=
  sectionStart_add s 1

theorem length_rept (count : ℕ) (sect attrib : UInt32) : (rept count sect attrib).length = count := by
  induction count generalizing sect with
  | zero => rfl
  | succ count ih => rw [rept, List.length_cons, ih]

theorem getElem?_rept {count i : ℕ} (s : ℕ) (attrib : UInt32) (hi : i < count) :
    (rept count (0x100000 * UInt32.ofNat s) attrib)[i]?
      = some (0x100000 * UInt32.ofNat (s + i) + attrib) := by
  induction count generalizing s i with
  | zero => cases hi
  | succ count ih =>
    rw [rept, sectionStart_succ]
    cases i with
    | zero => rfl
    | succ i =>
      rw [List.getElem?_cons_succ, ih (s + 1) (Nat.lt_of_succ_lt_succ hi), Nat.add_assoc,
        Nat.add_comm 1 i]

/-- **Word by word the assembled table is the section plus the attributes of its block.** -/
theorem getElem?_assemble (s : ℕ) (regions : List (ℕ × UInt32)) (i : ℕ) :
    (assemble (0x100000 * UInt32.ofNat s) regions)[i]?
      = (attribAt regions i).map fun attrib => 0x100000 * UInt32.ofNat (s + i) + attrib := by
  induction regions generalizing s i with
  | nil => rfl
  | cons region regions ih =>
    obtain ⟨count, attrib⟩ := region
    rw [assemble, attribAt, sectionStart_add]
    by_cases hi : i < count
    · rw [if_pos hi, List.getElem?_append_left (by rwa [length_rept]), getElem?_rept s attrib hi]
      rfl
    · rw [if_neg hi, List.getElem?_append_right (by rw [length_rept]; omega), length_rept, ih,
        Nat.add_assoc, Nat.add_sub_cancel' (Nat.le_of_not_lt hi)]

theorem getElem?_mmuTable (n : ℕ) :
    mmuTable[n]? = (attribAt mmuRegions n).map fun attrib => 0x100000 * UInt32.ofNat n + attrib := by
  have h := getElem?_assemble 0 mmuRegions n
  rwa [Nat.zero_add] at h

/-- The table as the program is loaded. -/
def Loaded (table : Table) : Prop := ∀ n < tableEntries, mmuTable[n]? = some (table n)

/-! ### The map after main -/

/-- The attributes of a section after the calls of `main`. -/
def attribAfterMain (n : ℕ) : UInt32 :=
  if n < 0x380 then 0x00
  else if 0x400 ≤ n ∧ n < 0x500 then 0x0C02
  else if n = 0xFFF then 0x04de2
  else (attribAt mmuRegions n).getD 0

/-- The sections of which an access faults. -/
def Faulting (n : ℕ) : Prop :=
  n < 0x380 ∨ (0xC00 ≤ n ∧ n < 0xE00) ∨ (0xE03 ≤ n ∧ n < 0xE10) ∨ (0xE60 ≤ n ∧ n < 0xF80) ∨
    (0xF90 ≤ n ∧ n < 0xFC0) ∨ (0xFE0 ≤ n ∧ n < 0xFFF)

/-- The DDR of CPU1, the SRAM and the flash memory. -/
def Private (n : ℕ) : Prop :=
  (0x380 ≤ n ∧ n < 0x400) ∨ (0xE40 ≤ n ∧ n < 0xE60) ∨ (0xFC0 ≤ n ∧ n < 0xFE0)

/-- `P` holds of every word of the blocks from section `s` on. -/
def Blockwise (P : ℕ → UInt32 → Prop) : ℕ → List (ℕ × UInt32) → Prop
  | _, [] => True
  | s, (count, attrib) :: regions =>
      (∀ i, s ≤ i → i < s + count → P i attrib) ∧ Blockwise P (s + count) regions

theorem Blockwise.attribAt {P : ℕ → UInt32 → Prop} {regions : List (ℕ × UInt32)} {s i : ℕ}
    (h : Blockwise P s regions) {attrib : UInt32} (ha : attribAt regions i = some attrib) :
    P (s + i) attrib := by
  induction regions generalizing s i with
  | nil => cases ha
  | cons region regions ih =>
    obtain ⟨count, a⟩ := region
    rw [Tet4120.attribAt] at ha
    split_ifs at ha with hi
    · cases ha
      exact h.1 _ (by omega) (by omega)
    · have hrest := ih h.2 ha
      rwa [Nat.add_assoc, Nat.add_sub_cancel' (Nat.le_of_not_lt hi)] at hrest

theorem attribAt_eq_none {regions : List (ℕ × UInt32)} {i : ℕ} (h : attribAt regions i = none) :
    (regions.map Prod.fst).sum ≤ i := by
  induction regions generalizing i with
  | nil => exact Nat.zero_le i
  | cons region regions ih =>
    rw [attribAt] at h
    split_ifs at h with hi
    have := ih h
    rw [List.map_cons, List.sum_cons]
    omega

/-- The attributes fit below the section, and say whether it faults and whether it is cacheable. -/
def Classifies (n : ℕ) (attrib : UInt32) : Prop :=
  attrib.toNat < 2 ^ 20 ∧ (attrib.toNat % 4 = 0 ↔ Faulting n) ∧ (cacheable attrib = true ↔ Private n)

/-- The blocks of `translation_table.S`, where `main` does not change them. -/
theorem mmuRegions_classify :
    Blockwise (fun n attrib => ¬ n < 0x380 → ¬ (0x400 ≤ n ∧ n < 0x500) → n ≠ 0xFFF →
      Classifies n attrib) 0 mmuRegions := by
  have hddr : ddrReg = 0x3FF := rfl
  refine ⟨?_, ?_, ?_, ?_, ?_, ?_, ?_, ?_, ?_, ?_, ?_, ?_, ?_, ?_, ?_, ?_, ?_, trivial⟩
  all_goals
    intro i hlo hhi hlinux hfpga hocm
    refine ⟨by decide, ?_, ?_⟩
    all_goals first
      | exact iff_of_true (by decide) (by first | unfold Faulting; omega | unfold Private; omega)
      | exact iff_of_false (by decide) (by first | unfold Faulting; omega | unfold Private; omega)

theorem classifies_attribAfterMain {n : ℕ} (hn : n < tableEntries) :
    Classifies n (attribAfterMain n) := by
  unfold attribAfterMain
  split_ifs with hlinux hfpga hocm
  · exact ⟨by decide, iff_of_true (by decide) (Or.inl hlinux),
      iff_of_false (by decide) (by unfold Private; omega)⟩
  · exact ⟨by decide, iff_of_false (by decide) (by unfold Faulting; omega),
      iff_of_false (by decide) (by unfold Private; omega)⟩
  · exact ⟨by decide, iff_of_false (by decide) (by unfold Faulting; omega),
      iff_of_false (by decide) (by unfold Private; omega)⟩
  · cases ha : attribAt mmuRegions n with
    | none => exact absurd hn (Nat.not_lt.2 (attribAt_eq_none ha))
    | some attrib =>
      have h := mmuRegions_classify.attribAt ha
      rw [Nat.zero_add] at h
      exact h hlinux hfpga hocm

theorem descriptor_eq_add {n : ℕ} (hn : n < tableEntries) {attrib : UInt32}
    (h : attrib.toNat < 2 ^ 20) :
    descriptor (0x100000 * UInt32.ofNat n) attrib = 0x100000 * UInt32.ofNat n + attrib := by
  apply UInt32.toNat_inj.1
  unfold tableEntries at hn
  rw [toNat_descriptor h, sectionOf_sectionStart hn, UInt32.toNat_add, toNat_sectionStart hn,
    Nat.mod_eq_of_lt (by omega)]
  rfl

/-- The table after `main`, word by word. -/
theorem tableAfter_loaded {table : Table} (h : Loaded table) {n : ℕ} (hn : n < tableEntries) :
    tableAfter mainCalls table n = descriptor (0x100000 * UInt32.ofNat n) (attribAfterMain n) := by
  have hattrib := (classifies_attribAfterMain hn).1
  rw [tableAfter_mainCalls]
  unfold attribAfterMain at hattrib ⊢
  split_ifs with hlinux hfpga hocm
  · rfl
  · rfl
  · subst hocm
    decide
  · rw [if_neg hlinux, if_neg hfpga, if_neg hocm] at hattrib
    rw [descriptor_eq_add hn hattrib]
    have hword := (h n hn).symm.trans (getElem?_mmuTable n)
    cases ha : attribAt mmuRegions n with
    | none => exact absurd hn (Nat.not_lt.2 (attribAt_eq_none ha))
    | some attrib =>
      rw [ha] at hword
      exact Option.some.inj hword

theorem cacheable_tableAfter_iff {table : Table} (h : Loaded table) {n : ℕ} (hn : n < tableEntries) :
    cacheable (tableAfter mainCalls table n) = true ↔ Private n := by
  obtain ⟨hlt, -, hcache⟩ := classifies_attribAfterMain hn
  rw [tableAfter_loaded h hn, cacheable_descriptor hlt]
  exact hcache

theorem loaded_mmuTable : Loaded fun n => mmuTable.getD n 0 := by
  intro n hn
  show mmuTable[n]? = some (mmuTable.getD n 0)
  rw [List.getD_eq_getElem?_getD, getElem?_mmuTable]
  cases ha : attribAt mmuRegions n with
  | none => exact absurd hn (Nat.not_lt.2 (attribAt_eq_none ha))
  | some attrib => rfl

/-- **The map CPU1 runs with is the identity; these sections fault, and these are cacheable.** -/
theorem memoryMap_of_boot {table : Table} (h : Loaded table) :
    ∀ n < tableEntries,
      (tableAfter mainCalls table n).toNat / 2 ^ 20 = n ∧
      ((tableAfter mainCalls table n).toNat % 4 = 0 ↔ Faulting n) ∧
      (cacheable (tableAfter mainCalls table n) = true ↔ Private n) := by
  intro n hn
  obtain ⟨hlt, hfault, -⟩ := classifies_attribAfterMain hn
  refine ⟨?_, ?_, cacheable_tableAfter_iff h hn⟩
  · rw [tableAfter_loaded h hn, toNat_descriptor hlt, sectionOf_sectionStart hn]
    omega
  · rw [tableAfter_loaded h hn, toNat_descriptor hlt, ← hfault]
    omega

theorem memoryMap_of_boot_rings :
    cacheable (tableAfter mainCalls (fun n => mmuTable.getD n 0) 0xFFF) = false := by
  have h := (memoryMap_of_boot loaded_mmuTable 0xFFF (by decide)).2.2
  exact Bool.eq_false_iff.2 fun hc => absurd (h.1 hc) (by unfold Private; decide)

/-! ### From the cold start on -/

section

variable {g : Geometry} {c : Core g} {n : ℕ} {ev : Event Op (Env g)}

/-- The TLB entry of the section is its descriptor, and while that is not cacheable nothing of the
section is held. -/
structure Sound (n : ℕ) (c : Core g) : Prop where
  tlb : c.mmu.AgreesAt n
  free : cacheable (c.mmu.table n) = false → ∀ b, sectionOfLine b = n → c.l1.Free b

/-- The linked table, an empty TLB and an empty cache, as `boot.S` leaves them. -/
structure ColdStart (c : Core g) : Prop where
  table : Loaded c.mmu.table
  tlb : ∀ n, c.mmu.tlb n = none
  free : ∀ b, c.l1.Free b

theorem ColdStart.sound (h : ColdStart c) (n : ℕ) : Sound n c where
  tlb d hd := by rw [h.tlb n] at hd; cases hd
  free _ b _ := h.free b

theorem Uncached.sound (h : Uncached n c) : Sound n c := ⟨h.tlb, fun _ => h.free⟩

theorem Sound.exec (h : Sound n c) (hev : Spares n ev) : Sound n (c.exec ev) where
  tlb := agreesAt_exec hev h.tlb
  free hc b hb := by
    rw [table_exec hev] at hc
    have hun : Uncached n c := ⟨⟨hc, h.tlb⟩, h.free hc⟩
    exact (hun.exec hev).free b hb

/-- A store of the descriptor that is there changes nothing. -/
theorem exec_store_same (h : c.mmu.table n = d) : c.exec (.cpu (.mmu (.store n d))) = c := by
  subst h
  show ({ c with mmu := { c.mmu with table := Function.update c.mmu.table n (c.mmu.table n) } } :
    Core g) = c
  rw [Function.update_eq_self]

theorem Sound.run_of_stores {d : UInt32} {evs : List (Event Op (Env g))}
    (hevs : ∀ ev ∈ evs, Spares n ev ∨ ev = .cpu (.mmu (.store n d))) (h : Sound n c)
    (hd : c.mmu.table n = d) : Sound n (c.run evs) := by
  have hinv : Sound n (c.run evs) ∧ (c.run evs).mmu.table n = d := by
    refine Core.run_invariant (I := fun c => Sound n c ∧ c.mmu.table n = d)
      (P := fun ev => Spares n ev ∨ ev = .cpu (.mmu (.store n d))) ?_ hevs ⟨h, hd⟩
    rintro c ev (hev | rfl) ⟨hs, ht⟩
    · exact ⟨hs.exec hev, (table_exec hev).trans ht⟩
    · rw [exec_store_same ht]
      exact ⟨hs, ht⟩
  exact hinv.1

/-- The store of an instruction. -/
def Op.storeTo (table : Table) : Op → Table
  | .mmu i => i.storeTo table
  | .cleanInvalidate _ => table

theorem Core.run_table (c : Core g) (evs : List (Event Op (Env g))) :
    (c.run evs).mmu.table = (code evs).foldl Op.storeTo c.mmu.table := by
  induction evs generalizing c with
  | nil => rfl
  | cons ev evs ih =>
    rw [Core.run_cons, ih]
    cases ev with
    | cpu op =>
      cases op with
      | mmu i =>
        have hexec : (c.exec (.cpu (.mmu i))).mmu.table = i.storeTo c.mmu.table :=
          Mmu.exec_cpu_table c.mmu i
        rw [hexec]
        rfl
      | cleanInvalidate word => rfl
    | env e =>
      cases e with
      | fill k b =>
        have hexec : (c.exec (.env (.fill k b))).mmu = c.mmu := by
          simp only [Core.exec]; split <;> rfl
        rw [hexec]
        rfl
      | _ => rfl

end

theorem foldl_storeTo_callsOps (csid : UInt32) (calls : List (UInt32 × UInt32)) (table : Table) :
    (callsOps csid calls).foldl Op.storeTo table = tableAfter calls table := by
  induction calls generalizing table with
  | nil => rfl
  | cons call calls ih =>
    have hsweep : ∀ (words : List UInt32) (t : Table),
        (words.map Op.cleanInvalidate).foldl Op.storeTo t = t := by
      intro words
      induction words with
      | nil => exact fun _ => rfl
      | cons word words ih => exact ih
    rw [callsOps, List.flatMap_cons, setTlbAttributesOps, List.foldl_append, List.foldl_append,
      List.foldl_append, hsweep]
    exact ih _

/-- What the calls of `main` store to a section they do not uncache. -/
theorem stores_of_mainCalls {csid : UInt32} {n : ℕ} (hn : ¬ UncachedByMain n)
    {boot : List (Event Op (Env (geometry csid)))} (hcode : code boot = callsOps csid mainCalls) :
    ∀ ev ∈ boot, Spares n ev ∨
      n = 0x4FF ∧ ev = .cpu (.mmu (.store n (descriptor 0x4FF00000 0x0C02))) := by
  refine forall_of_code (fun _ => Or.inl trivial) fun op hop => ?_
  rw [hcode] at hop
  obtain ⟨call, hcall, hop⟩ := List.mem_flatMap.1 hop
  simp only [setTlbAttributesOps, List.mem_append, List.mem_cons, List.not_mem_nil, or_false,
    List.mem_map] at hop
  rcases hop with ((rfl | rfl | rfl | rfl) | ⟨word, -, rfl⟩) | rfl | rfl
  case inr.inl =>
    by_cases hsec : sectionOf call.1 = n
    · -- the only such section is that of the last call
      subst hsec
      have hlast : sectionOf call.1 = 0x4FF := by
        have := mem_mainCalls hcall
        unfold UncachedByMain at hn
        omega
      obtain ⟨calls, hmain, hne⟩ := mainCalls_eq
      rw [hmain] at hcall
      rcases List.mem_append.1 hcall with h | h
      · exact absurd hlast (hne call h)
      · rw [List.mem_singleton] at h
        subst h
        exact Or.inr ⟨hlast, rfl⟩
    · exact Or.inl hsec
  all_goals exact Or.inl trivial

/-- **From a cold start, and in every schedule, the calls of `main` leave no stale translation, and
from then on CPU1 holds lines of its own memory only**, whatever ran before and after them without
changing the table. -/
theorem bootMemory {csid : UInt32} (hA9 : CortexA9 csid)
    {startup boot later : List (Event Op (Env (geometry csid)))} {c : Core (geometry csid)}
    (hcold : ColdStart c) (hstartup : ∀ ev ∈ startup, ∀ n, Spares n ev)
    (hcode : code boot = callsOps csid mainCalls) (hlater : ∀ ev ∈ later, ∀ n, Spares n ev) :
    (((c.run startup).run boot).run later).mmu.Agrees ∧
    ∀ a : UInt32, (((c.run startup).run boot).run later).l1.Free (lineOf a) ∨
      Private (sectionOf a) := by
  have hkeep : ∀ {evs : List (Event Op (Env (geometry csid)))}, (∀ ev ∈ evs, ∀ n, Spares n ev) →
      ∀ (c : Core (geometry csid)) (n : ℕ), (c.run evs).mmu.table n = c.mmu.table n := by
    intro evs hevs c n
    exact Core.run_invariant (I := fun c' => c'.mmu.table n = c.mmu.table n)
      (P := fun ev => Spares n ev) (fun _ _ hev h => (table_exec hev).trans h)
      (fun ev hev => hevs ev hev n) rfl
  have hsound : ∀ {evs : List (Event Op (Env (geometry csid)))}, (∀ ev ∈ evs, ∀ n, Spares n ev) →
      ∀ {c : Core (geometry csid)} {n : ℕ}, Sound n c → Sound n (c.run evs) := by
    intro evs hevs c n h
    exact h.run_of_stores (fun ev hev => Or.inl (hevs ev hev n)) rfl
  have hloaded : Loaded (c.run startup).mmu.table := fun n hn => by
    rw [hkeep hstartup]; exact hcold.table n hn
  -- a section is uncached by its call, or the calls change nothing in it
  have hboot : ∀ n, Sound n ((c.run startup).run boot) := by
    intro n
    by_cases hn : UncachedByMain n
    · exact (uncached_mainCalls hA9 hcode (c.run startup) hn).sound
    · have hstores := stores_of_mainCalls hn hcode
      have hstart := hsound hstartup (hcold.sound n)
      by_cases hlast : n = 0x4FF
      · subst hlast
        refine hstart.run_of_stores (fun ev hev => (hstores ev hev).imp_right And.right) ?_
        exact Option.some.inj ((hloaded 0x4FF (by decide)).symm.trans (by decide +kernel))
      · exact hstart.run_of_stores
          (fun ev hev => Or.inl ((hstores ev hev).resolve_right fun h => hlast h.1)) rfl
  have hend := fun n => hsound hlater (hboot n)
  refine ⟨fun n => (hend n).tlb, fun a => ?_⟩
  by_cases hprivate : Private (sectionOf a)
  · exact Or.inr hprivate
  · refine Or.inl ((hend (sectionOf a)).free ?_ _ (sectionOfLine_lineOf a))
    have htable : ((c.run startup).run boot).mmu.table
        = tableAfter mainCalls (c.run startup).mmu.table := by
      rw [Core.run_table, hcode, foldl_storeTo_callsOps]
    rw [hkeep hlater, htable, Bool.eq_false_iff, Ne,
      cacheable_tableAfter_iff hloaded (sectionOf_lt a)]
    exact hprivate

/-- The linked table in front of a memory of zeros, nothing translated and nothing held. -/
def linkedCore : Core (geometry zynqCsid) where
  mmu := ⟨fun n => mmuTable.getD n 0, fun _ => none⟩
  l1 := ⟨fun _ => 0, fun _ => none⟩

/-- The hardware walks the table for the section of the rings and tries to fill a line of it: with
success before `main`, without after it. -/
def fetchRings : List (Event Op (Env (geometry zynqCsid))) :=
  [.env (.walk 0xFFF), .env (.fill (firstSlot zynqCsid) 0x7FFF800)]

theorem bootMemory_fetchRings :
    ¬ (linkedCore.run fetchRings).l1.Free (lineOf 0xFFFF0000) ∧
    (((linkedCore.run fetchRings).run ((callsOps zynqCsid mainCalls).map .cpu)).run
      fetchRings).l1.Free (lineOf 0xFFFF0000) := by
  constructor
  · have hheld : ((linkedCore.run fetchRings).l1.held (lineOf 0xFFFF0000)).isSome = true := by
      decide +kernel
    intro hfree
    rw [show _ = none from hfree] at hheld
    cases hheld
  · have hcold : ColdStart linkedCore := ⟨loaded_mmuTable, fun _ => rfl, fun _ => rfl⟩
    have hfetch : ∀ ev ∈ fetchRings, ∀ n, Spares n ev := by
      intro ev hev n
      simp only [fetchRings, List.mem_cons, List.not_mem_nil, or_false] at hev
      rcases hev with rfl | rfl <;> trivial
    have h := (bootMemory cortexA9_zynqCsid hcold hfetch (code_map_cpu (callsOps zynqCsid mainCalls))
      hfetch).2 0xFFFF0000
    exact h.resolve_right (by unfold Private; decide)

end Tet4120

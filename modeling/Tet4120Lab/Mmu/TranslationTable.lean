import Mathlib.Data.UInt
import Mathlib.Data.Nat.Bitwise
import Mathlib.Logic.Function.Basic

/-!
# main.cpp: the translation table

`SetTlbAttributes(addr, attrib)` stores one descriptor through `&MMUTable + addr / 0x100000`, and
`main` calls it once for the section of the packet rings and in two loops.

* `setTlbAttributes` is that store on the words from `&MMUTable` on; nothing bounds the pointer;
* `mainCalls` are the calls of `main`, in order;
* `memoryMap_after_main`: the table after all of them, and what no prefix of them changes.
-/

namespace Tet4120

/-- The words from `&MMUTable` on; the first `tableEntries` are the table. -/
abbrev Table := ℕ → UInt32

/-- One word for each section of 1 MB. -/
def tableEntries : ℕ := 4096

/-- `addr / 0x100000`. -/
def sectionOf (addr : UInt32) : ℕ := (addr / 0x100000).toNat

/-- `(addr & 0xFFF00000) | attrib`. -/
def descriptor (addr attrib : UInt32) : UInt32 := (addr &&& 0xFFF00000) ||| attrib

/-- The store of `SetTlbAttributes(addr, attrib)`. -/
def setTlbAttributes (table : Table) (addr attrib : UInt32) : Table :=
  Function.update table (sectionOf addr) (descriptor addr attrib)

/-- The stores of a sequence of calls. -/
def tableAfter (calls : List (UInt32 × UInt32)) (table : Table) : Table :=
  calls.foldl (fun table call => setTlbAttributes table call.1 call.2) table

/-- `for (uint32_t i = lo; i < hi; ++i) SetTlbAttributes(0x100000UL * i, attrib)`. -/
def sectionLoop (lo hi : ℕ) (attrib : UInt32) : List (UInt32 × UInt32) :=
  (List.range' lo (hi - lo)).map fun i => (0x100000 * UInt32.ofNat i, attrib)

/-- The calls of `main`. -/
def mainCalls : List (UInt32 × UInt32) :=
  [(0xFFFF0000, 0x04de2)] ++ sectionLoop 0 0x380 0x00 ++ sectionLoop 0x400 0x500 0x0C02

/-! ### Sections -/

theorem sectionOf_eq (addr : UInt32) : sectionOf addr = addr.toNat / 0x100000 := by
  rw [sectionOf, UInt32.toNat_div]; rfl

theorem sectionOf_lt (addr : UInt32) : sectionOf addr < tableEntries := by
  have := addr.toNat_lt
  rw [sectionOf_eq]
  unfold tableEntries
  omega

theorem toNat_sectionStart {i : ℕ} (hi : i < tableEntries) :
    (0x100000 * UInt32.ofNat i).toNat = 0x100000 * i := by
  unfold tableEntries at hi
  rw [UInt32.toNat_mul, UInt32.toNat_ofNat', Nat.mod_eq_of_lt (a := i) (by omega)]
  exact Nat.mod_eq_of_lt (show 0x100000 * i < 2 ^ 32 by omega)

@[simp] theorem sectionOf_sectionStart {i : ℕ} (hi : i < tableEntries) :
    sectionOf (0x100000 * UInt32.ofNat i) = i := by
  rw [sectionOf_eq, toNat_sectionStart hi]
  exact Nat.mul_div_cancel_left i (by decide)

/-- The mask `0xFFF00000` keeps the section of an address. -/
theorem nat_and_mask (x : ℕ) (hx : x < 2 ^ 32) : x &&& 0xFFF00000 = 0x100000 * (x / 0x100000) := by
  have hmask : (0xFFF00000 : ℕ) = (2 ^ 12 - 1) <<< 20 := by decide
  have hround : 0x100000 * (x / 0x100000) = (x >>> 20) <<< 20 := by
    rw [Nat.shiftLeft_eq, Nat.shiftRight_eq_div_pow, Nat.mul_comm]
  rw [hmask, hround]
  -- bit by bit: the mask has the bits 20 to 31
  apply Nat.eq_of_testBit_eq
  intro i
  rw [Nat.testBit_and, Nat.testBit_shiftLeft, Nat.testBit_shiftLeft, Nat.testBit_two_pow_sub_one,
    Nat.testBit_shiftRight]
  by_cases hlo : 20 ≤ i
  · simp only [hlo, decide_true, Bool.true_and]
    rw [Nat.add_sub_cancel' hlo]
    by_cases hhi : i < 32
    · rw [decide_eq_true (by omega : i - 20 < 12), Bool.and_true]
    · rw [Nat.testBit_lt_two_pow (lt_of_lt_of_le hx (Nat.pow_le_pow_right (by decide) (by omega))),
        Bool.false_and]
  · simp [hlo]

theorem and_mask_eq (addr : UInt32) :
    addr &&& 0xFFF00000 = 0x100000 * UInt32.ofNat (sectionOf addr) := by
  apply UInt32.toNat_inj.1
  rw [UInt32.toNat_and, toNat_sectionStart (sectionOf_lt addr), sectionOf_eq]
  exact nat_and_mask addr.toNat addr.toNat_lt

/-- The descriptor depends on the section of the address only. -/
theorem descriptor_sectionStart (addr attrib : UInt32) :
    descriptor (0x100000 * UInt32.ofNat (sectionOf addr)) attrib = descriptor addr attrib := by
  have h := and_mask_eq (0x100000 * UInt32.ofNat (sectionOf addr))
  rw [sectionOf_sectionStart (sectionOf_lt addr)] at h
  rw [descriptor, descriptor, h, and_mask_eq addr]

/-! ### Sequences of calls -/

theorem tableAfter_append (xs ys : List (UInt32 × UInt32)) (table : Table) :
    tableAfter (xs ++ ys) table = tableAfter ys (tableAfter xs table) := List.foldl_append

/-- A word that is no section of the calls keeps its value. -/
theorem tableAfter_of_forall_ne {calls : List (UInt32 × UInt32)} {n : ℕ}
    (h : ∀ call ∈ calls, sectionOf call.1 ≠ n) (table : Table) : tableAfter calls table n = table n := by
  induction calls generalizing table with
  | nil => rfl
  | cons call calls ih =>
    have hne : n ≠ sectionOf call.1 := (h call (List.mem_cons_self ..)).symm
    calc tableAfter (call :: calls) table n
        = tableAfter calls (setTlbAttributes table call.1 call.2) n := rfl
      _ = setTlbAttributes table call.1 call.2 n := ih (fun c hc => h c (List.mem_cons_of_mem _ hc)) _
      _ = table n := Function.update_of_ne hne _ _

theorem sectionLoop_succ {lo hi : ℕ} (h : lo ≤ hi) (attrib : UInt32) :
    sectionLoop lo (hi + 1) attrib
      = sectionLoop lo hi attrib ++ [(0x100000 * UInt32.ofNat hi, attrib)] := by
  rw [sectionLoop, sectionLoop, Nat.sub_add_comm h, List.range'_concat, List.map_append,
    Nat.one_mul, Nat.add_sub_cancel' h]
  rfl

/-- A call in a loop is made for a section of its range. -/
theorem mem_sectionLoop {lo hi : ℕ} {attrib : UInt32} (hhi : hi ≤ tableEntries)
    {call : UInt32 × UInt32} (h : call ∈ sectionLoop lo hi attrib) :
    lo ≤ sectionOf call.1 ∧ sectionOf call.1 < hi := by
  obtain ⟨i, hi', rfl⟩ := List.mem_map.1 h
  rw [List.mem_range'_1] at hi'
  simp only
  rw [sectionOf_sectionStart (by omega)]
  omega

/-- **A loop sets exactly the sections of its range.** -/
theorem tableAfter_sectionLoop {lo hi : ℕ} (hhi : hi ≤ tableEntries) (attrib : UInt32)
    (table : Table) (n : ℕ) :
    tableAfter (sectionLoop lo hi attrib) table n =
      if lo ≤ n ∧ n < hi then descriptor (0x100000 * UInt32.ofNat n) attrib else table n := by
  induction hi with
  | zero => simp [sectionLoop, tableAfter]
  | succ hi ih =>
    rcases Nat.lt_or_ge hi lo with hlt | hge
    · have hnil : sectionLoop lo (hi + 1) attrib = [] := by
        rw [sectionLoop, Nat.sub_eq_zero_of_le hlt]; rfl
      rw [hnil, if_neg (by omega)]
      rfl
    · rw [sectionLoop_succ hge, tableAfter_append]
      show setTlbAttributes (tableAfter (sectionLoop lo hi attrib) table) _ _ n = _
      rw [setTlbAttributes, sectionOf_sectionStart (by omega)]
      by_cases hn : n = hi
      · subst hn
        rw [Function.update_self, if_pos ⟨hge, Nat.lt_succ_self _⟩]
      · rw [Function.update_of_ne hn, ih (by omega)]
        exact if_congr (by omega) rfl rfl

/-! ### The calls of main -/

/-- The sections `main` calls `SetTlbAttributes` for. -/
theorem mem_mainCalls {call : UInt32 × UInt32} (h : call ∈ mainCalls) :
    sectionOf call.1 = 0xFFF ∨ sectionOf call.1 < 0x380 ∨
      (0x400 ≤ sectionOf call.1 ∧ sectionOf call.1 < 0x500) := by
  rcases List.mem_append.1 h with h | h
  · rcases List.mem_append.1 h with h | h
    · rw [List.mem_singleton] at h
      subst h
      exact Or.inl (by decide)
    · exact Or.inr (Or.inl (mem_sectionLoop (by decide) h).2)
  · exact Or.inr (Or.inr (mem_sectionLoop (by decide) h))

/-- The table word by word after all calls of `main`. -/
theorem tableAfter_mainCalls (table : Table) (n : ℕ) :
    tableAfter mainCalls table n =
      if n < 0x380 then descriptor (0x100000 * UInt32.ofNat n) 0x00
      else if 0x400 ≤ n ∧ n < 0x500 then descriptor (0x100000 * UInt32.ofNat n) 0x0C02
      else if n = 0xFFF then descriptor 0xFFFF0000 0x04de2
      else table n := by
  have hfirst : tableAfter [(0xFFFF0000, 0x04de2)] table n
      = if n = 0xFFF then descriptor 0xFFFF0000 0x04de2 else table n := Function.update_apply ..
  rw [mainCalls, tableAfter_append, tableAfter_append, tableAfter_sectionLoop (by decide),
    tableAfter_sectionLoop (by decide), hfirst]
  simp only [Nat.zero_le, true_and]
  by_cases hlo : n < 0x380
  · rw [if_pos hlo, if_pos hlo, if_neg (by omega)]
  · rw [if_neg hlo, if_neg hlo]

/-- `ORIGIN` of the region `ps7_ddr_0` of the linker script. -/
def ddrOrigin : ℕ := 0x38000000

/-- `LENGTH` of the region `ps7_ddr_0` of the linker script. -/
def ddrLength : ℕ := 0x08000000

/-- The SCU and interrupt controller registers, `ICDSGIR` among them. -/
def scuRegisters (addr : UInt32) : Prop := 0xF8F00000 ≤ addr.toNat ∧ addr.toNat < 0xF8F03000

/-- The descriptor of the section of `addr` when `main` has made all its calls. -/
def mapAfterMain (table : Table) (addr : UInt32) : UInt32 :=
  if addr.toNat < 0x38000000 then (addr &&& 0xFFF00000) ||| 0x00
  else if 0x40000000 ≤ addr.toNat ∧ addr.toNat < 0x50000000 then (addr &&& 0xFFF00000) ||| 0x0C02
  else if 0xFFF00000 ≤ addr.toNat then (addr &&& 0xFFF00000) ||| 0x4de2
  else table (sectionOf addr)

theorem tableAfter_mainCalls_sectionOf (table : Table) (addr : UInt32) :
    tableAfter mainCalls table (sectionOf addr) = mapAfterMain table addr := by
  have hsec := sectionOf_eq addr
  have haddr := addr.toNat_lt
  rw [tableAfter_mainCalls, descriptor_sectionStart, descriptor_sectionStart, mapAfterMain]
  by_cases h₁ : addr.toNat < 0x38000000
  · rw [if_pos h₁, if_pos (by omega)]
    rfl
  · rw [if_neg h₁, if_neg (by omega)]
    by_cases h₂ : 0x40000000 ≤ addr.toNat ∧ addr.toNat < 0x50000000
    · rw [if_pos h₂, if_pos (by omega)]
      rfl
    · rw [if_neg h₂, if_neg (by omega)]
      by_cases h₃ : 0xFFF00000 ≤ addr.toNat
      · have hfff : sectionOf addr = 0xFFF := by omega
        rw [if_pos h₃, if_pos hfff, and_mask_eq, hfff]
        rfl
      · rw [if_neg h₃, if_neg (by omega)]

/-- Calls of `main` that do not touch the section `n` leave it after every prefix. -/
theorem tableAfter_take_mainCalls {n : ℕ} (hfff : n ≠ 0xFFF) (hlo : 0x380 ≤ n)
    (hhi : n < 0x400 ∨ 0x500 ≤ n) (table : Table) (k : ℕ) :
    tableAfter (mainCalls.take k) table n = table n := by
  apply tableAfter_of_forall_ne
  intro call hcall hsec
  have := mem_mainCalls (List.mem_of_mem_take hcall)
  omega

/-- **The memory map after the set-up of `main`, with its frame.** -/
theorem memoryMap_after_main (table : Table) :
    (∀ addr : UInt32, tableAfter mainCalls table (sectionOf addr) = mapAfterMain table addr) ∧
    (∀ call ∈ mainCalls, sectionOf call.1 < tableEntries) ∧
    (∀ k n, tableEntries ≤ n → tableAfter (mainCalls.take k) table n = table n) ∧
    (∀ k (addr : UInt32), (ddrOrigin ≤ addr.toNat ∧ addr.toNat < ddrOrigin + ddrLength) ∨
        scuRegisters addr →
      tableAfter (mainCalls.take k) table (sectionOf addr) = table (sectionOf addr)) := by
  refine ⟨tableAfter_mainCalls_sectionOf table, fun call _ => sectionOf_lt call.1,
    fun k n hn => ?_, fun k addr hregion => ?_⟩
  · unfold tableEntries at hn
    exact tableAfter_take_mainCalls (by omega) (by omega) (by omega) table k
  · have hsec := sectionOf_eq addr
    unfold ddrOrigin ddrLength scuRegisters at hregion
    rcases hregion with ⟨hlo, hhi⟩ | ⟨hlo, hhi⟩
    · exact tableAfter_take_mainCalls (by omega) (by omega) (by omega) table k
    · exact tableAfter_take_mainCalls (by omega) (by omega) (by omega) table k

end Tet4120

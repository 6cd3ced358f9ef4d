import Tet4120Lab.Mmu.SetWay

/-!
# xil_cache.c: the level 1 data cache over an address range

The range functions run through the lines of `[adr, adr + len)` with 32-bit addresses.  The board
support package is built with `USE_AMP`, so the calls for the level 2 cache are compiled out.

* `lineLoop`, `rangeWords`: the loop `while (LocalAddr < end)` and the addresses it hands to the
  line operation; `none` when the fuel runs out;
* `dCacheFlushRange_returns_iff`: the loop returns and reaches every line of the range exactly when
  the range ends before the last line of the address space;
* `invalidateRange_spec`: `Xil_DCacheInvalidateRange` forgets the lines of the range and keeps what
  the processor reads outside it, and `invalidateRange_keeps_iff` when it does;
* `l1DCacheInvalidate_spec`: the stack survives `Xil_L1DCacheInvalidate`.
-/

namespace Tet4120

open WriteBack

/-- `while (LocalAddr < end) { …; LocalAddr += cacheline; }`: the addresses of the rounds. -/
def lineLoop (stop : UInt32) : ℕ → UInt32 → Option (List UInt32)
  | 0, _ => none
  | fuel + 1, addr =>
      if addr < stop then (lineLoop stop fuel (addr + 32)).map (addr :: ·) else some []

/-- The rounds of the range functions: from the start of the first line to `adr + len`. -/
def rangeWords (fuel : ℕ) (adr len : UInt32) : Option (List UInt32) :=
  if len = 0 then some [] else lineLoop (adr + len) fuel (adr &&& ~~~31)

/-- The held line of an address. -/
def atLine {κ : Type*} (addr : UInt32) : Selection κ ℕ UInt32 UInt8 := fun b _ => b = lineOf addr

section

variable {g : Geometry}

/-- `Xil_L1DCacheFlushLine`. -/
def xilL1DCacheFlushLine (addr : UInt32) (s : L1 g) : L1 g := s.flushWhere lineOf (atLine addr)

/-- `Xil_L1DCacheFlushRange`, and `Xil_DCacheFlushRange` of the `USE_AMP` build. -/
def xilDCacheFlushRange (fuel : ℕ) (adr len : UInt32) (s : L1 g) : Option (L1 g) :=
  (rangeWords fuel adr len).map fun ws => s.flushAll lineOf (ws.map atLine)

/-- `Xil_L1DCacheInvalidateRange`. -/
def xilL1DCacheInvalidateRange (fuel : ℕ) (adr len : UInt32) (s : L1 g) : Option (L1 g) :=
  (rangeWords fuel adr len).map fun ws => s.dropAll (ws.map atLine)

/-- The flush of the line of an unaligned end of a range. -/
def flushUnaligned (addr : UInt32) (s : L1 g) : L1 g :=
  if addr &&& 31 ≠ 0 then xilL1DCacheFlushLine (addr &&& ~~~31) s else s

/-- `tempadr` when the loop starts: an unaligned start is moved behind its line. -/
def tempadr (adr : UInt32) : UInt32 := if adr &&& 31 ≠ 0 then (adr &&& ~~~31) + 32 else adr

/-- `tempend` when the loop starts: an unaligned end is moved before its line. -/
def tempend (stop : UInt32) : UInt32 := if stop &&& 31 ≠ 0 then stop &&& ~~~31 else stop

/-- `Xil_DCacheInvalidateRange` of the `USE_AMP` build. -/
def xilDCacheInvalidateRange (fuel : ℕ) (adr len : UInt32) (s : L1 g) : Option (L1 g) :=
  if len = 0 then some s
  else
    (lineLoop (tempend (adr + len)) fuel (tempadr adr)).map fun ws =>
      (flushUnaligned (adr + len) (flushUnaligned adr s)).dropAll (ws.map atLine)

end

/-- `Xil_L1DCacheInvalidate`: with the cache enabled in `CtrlReg` the stack is flushed first. -/
def xilL1DCacheInvalidate {csid : UInt32} (fuel : ℕ) (cEnabled : Bool) (stackEnd stackStart : UInt32)
    (s : L1 (geometry csid)) : Option (L1 (geometry csid)) :=
  (if cEnabled then xilDCacheFlushRange fuel stackEnd (stackStart - stackEnd) s else some s).map
    fun s => s.dropAll ((setWayWords csid).map (atWord (geometry csid)))

/-- The addresses of `[adr, adr + len)`. -/
def InRange (adr len a : UInt32) : Prop :=
  adr.toNat ≤ a.toNat ∧ a.toNat < adr.toNat + len.toNat

/-! ### Addresses of lines -/

theorem and_31_toNat (a : UInt32) : (a &&& 31).toNat = a.toNat % 32 := by
  rw [UInt32.toNat_and]
  exact Nat.and_two_pow_sub_one_eq_mod _ 5

theorem and_31_ne_zero {a : UInt32} : a &&& 31 ≠ 0 ↔ a.toNat % 32 ≠ 0 := by
  rw [← and_31_toNat, Ne, Ne, ← UInt32.toNat_inj]
  rfl

/-- A mask of the high bits clears the low ones. -/
theorem nat_and_high {x k m : ℕ} (hx : x < 2 ^ (k + m)) :
    x &&& (2 ^ m - 1) <<< k = x / 2 ^ k * 2 ^ k := by
  rw [← Nat.shiftRight_eq_div_pow, ← Nat.shiftLeft_eq]
  apply Nat.eq_of_testBit_eq
  intro i
  rw [Nat.testBit_and, Nat.testBit_shiftLeft, Nat.testBit_shiftLeft, Nat.testBit_two_pow_sub_one,
    Nat.testBit_shiftRight]
  by_cases hlo : k ≤ i
  · rw [Nat.add_sub_cancel' hlo]
    by_cases hhi : i < k + m
    · simp [hlo, show i - k < m by omega]
    · have hzero : x.testBit i = false :=
        Nat.testBit_lt_two_pow (hx.trans_le (Nat.pow_le_pow_right (by decide) (by omega)))
      simp [hzero]
  · simp [hlo]

/-- The start of the line of an address. -/
theorem lineStart_toNat (a : UInt32) : (a &&& ~~~31).toNat = 32 * lineOf a := by
  rw [UInt32.toNat_and, lineOf, Nat.mul_comm]
  exact nat_and_high (k := 5) (m := 27) a.toNat_lt

@[simp] theorem lineOf_lineStart (a : UInt32) : lineOf (a &&& ~~~31) = lineOf a := by
  rw [lineOf, lineStart_toNat, Nat.mul_div_cancel_left _ (by decide)]

/-- The next line, except that the last one is followed by the first. -/
theorem toNat_add_line {a : UInt32} (h : a.toNat + 32 < 2 ^ 32) : (a + 32).toNat = a.toNat + 32 := by
  rw [UInt32.toNat_add]
  exact Nat.mod_eq_of_lt h

/-! ### The loop -/

/-- One past the last line below `stop`. -/
def lineCeil (stop : UInt32) : ℕ := (stop.toNat + 31) / 32

/-- When the end lies in the last line the loop never leaves the address space. -/
theorem lineLoop_eq_none {stop : UInt32} (hstop : 2 ^ 32 - 32 < stop.toNat) (fuel : ℕ) {addr : UInt32}
    (haddr : addr.toNat % 32 = 0) : lineLoop stop fuel addr = none := by
  induction fuel generalizing addr with
  | zero => rfl
  | succ fuel ih =>
    have hlt := addr.toNat_lt
    have hnext : (addr + 32).toNat % 32 = 0 := by
      rw [UInt32.toNat_add]
      show (addr.toNat + 32) % 2 ^ 32 % 32 = 0
      omega
    rw [lineLoop, if_pos (UInt32.lt_iff_toNat_lt.2 (by omega)), ih hnext]
    rfl

/-- **The loop returns after the lines from `addr` up to `stop`, each once.** -/
theorem lineLoop_eq {stop : UInt32} (hstop : stop.toNat ≤ 2 ^ 32 - 32) {n fuel : ℕ} {addr : UInt32}
    (haddr : addr.toNat % 32 = 0) (hn : lineCeil stop - lineOf addr = n) (hfuel : n < fuel) :
    ∃ ws, lineLoop stop fuel addr = some ws ∧ ws.map lineOf = List.range' (lineOf addr) n := by
  unfold lineCeil lineOf at hn
  induction n generalizing fuel addr with
  | zero =>
    obtain ⟨fuel, rfl⟩ := Nat.exists_eq_succ_of_ne_zero hfuel.ne'
    refine ⟨[], ?_, rfl⟩
    rw [lineLoop, if_neg]
    rw [UInt32.lt_iff_toNat_lt]
    omega
  | succ n ih =>
    obtain ⟨fuel, rfl⟩ := Nat.exists_eq_succ_of_ne_zero (Nat.ne_of_gt (Nat.zero_lt_of_lt hfuel))
    have hlt : addr.toNat < stop.toNat := by omega
    have hnext := toNat_add_line (a := addr) (by omega)
    obtain ⟨ws, hws, hlines⟩ := @ih fuel (addr + 32) (by omega) (by omega) (by omega)
    refine ⟨addr :: ws, ?_, ?_⟩
    · rw [lineLoop, if_pos (UInt32.lt_iff_toNat_lt.2 hlt), hws]
      rfl
    · rw [List.map_cons, hlines, List.range'_succ, lineOf, lineOf, hnext,
        Nat.add_div_right _ (by decide)]

/-- What a loop that returns has done. -/
theorem lineLoop_eq_some {stop : UInt32} {fuel : ℕ} {addr : UInt32} {ws : List UInt32}
    (haddr : addr.toNat % 32 = 0) (h : lineLoop stop fuel addr = some ws) :
    stop.toNat ≤ 2 ^ 32 - 32 ∧
      ws.map lineOf = List.range' (lineOf addr) (lineCeil stop - lineOf addr) := by
  have hstop : stop.toNat ≤ 2 ^ 32 - 32 := by
    by_contra hlt
    rw [lineLoop_eq_none (Nat.lt_of_not_le hlt) fuel haddr] at h
    cases h
  refine ⟨hstop, ?_⟩
  induction fuel generalizing addr ws with
  | zero => cases h
  | succ fuel ih =>
    rw [lineLoop] at h
    split at h
    · next hlt =>
      rw [UInt32.lt_iff_toNat_lt] at hlt
      obtain ⟨ws', hws', rfl⟩ := Option.map_eq_some_iff.1 h
      have hnext := toNat_add_line (a := addr) (by omega)
      have hline : lineOf (addr + 32) = lineOf addr + 1 := by
        rw [lineOf, lineOf, hnext, Nat.add_div_right _ (by decide)]
      have hcount : lineCeil stop - lineOf addr = lineCeil stop - (lineOf addr + 1) + 1 := by
        unfold lineCeil lineOf
        omega
      rw [List.map_cons, ih (by omega) hws', hline, hcount, List.range'_succ]
    · next hge =>
      rw [UInt32.lt_iff_toNat_lt] at hge
      cases h
      have hcount : lineCeil stop - lineOf addr = 0 := by
        unfold lineCeil lineOf
        omega
      rw [hcount]
      rfl

/-! ### The lines of a range -/

/-- Enough rounds for every line of the address space. -/
def lineFuel : ℕ := 2 ^ 27 + 1

theorem lineOf_lt (a : UInt32) : lineOf a < 2 ^ 27 := by
  have := a.toNat_lt
  unfold lineOf
  omega

theorem lineStart_aligned (a : UInt32) : (a &&& ~~~31).toNat % 32 = 0 := by
  rw [lineStart_toNat, Nat.mul_mod_right]

/-- A line below `lineCeil` that does not end before `adr` has an address of the range. -/
theorem exists_inRange_iff {adr len : UInt32} (hlen : len ≠ 0)
    (hfit : adr.toNat + len.toNat < 2 ^ 32) (b : ℕ) :
    (∃ a, InRange adr len a ∧ lineOf a = b) ↔
      lineOf adr ≤ b ∧ b < (adr.toNat + len.toNat + 31) / 32 := by
  have hpos : 0 < len.toNat := Nat.pos_of_ne_zero fun h => hlen (UInt32.toNat_inj.1 h)
  constructor
  · rintro ⟨a, ⟨hlo, hhi⟩, rfl⟩
    unfold lineOf
    omega
  · rintro ⟨hlo, hhi⟩
    unfold lineOf at hlo
    have hmax : (UInt32.ofNat (max adr.toNat (32 * b))).toNat = max adr.toNat (32 * b) :=
      UInt32.toNat_ofNat_of_lt (show _ < 2 ^ 32 by omega)
    refine ⟨UInt32.ofNat (max adr.toNat (32 * b)), ⟨?_, ?_⟩, ?_⟩
    · rw [hmax]; omega
    · rw [hmax]; omega
    · rw [lineOf, hmax]; omega

theorem toNat_add_of_lt {adr len : UInt32} (hfit : adr.toNat + len.toNat < 2 ^ 32) :
    (adr + len).toNat = adr.toNat + len.toNat := by
  rw [UInt32.toNat_add]
  exact Nat.mod_eq_of_lt hfit

/-- A range that ends before the last line: the loop returns and its rounds are the lines of the
range. -/
theorem rangeWords_eq {adr len : UInt32} (hfit : len = 0 ∨ adr.toNat + len.toNat ≤ 2 ^ 32 - 32) :
    ∃ ws, rangeWords lineFuel adr len = some ws ∧
      ∀ b, b ∈ ws.map lineOf ↔ ∃ a, InRange adr len a ∧ lineOf a = b := by
  by_cases hlen : len = 0
  · subst hlen
    refine ⟨[], if_pos rfl, fun b => ⟨fun hb => by simp at hb, ?_⟩⟩
    rintro ⟨a, ⟨hlo, hhi⟩, -⟩
    exact absurd hhi (Nat.not_lt.2 hlo)
  · have hfit := hfit.resolve_left hlen
    have hstop := toNat_add_of_lt (show adr.toNat + len.toNat < 2 ^ 32 by omega)
    have hcount : lineCeil (adr + len) - lineOf (adr &&& ~~~31) < lineFuel := by
      have := (adr + len).toNat_lt
      unfold lineCeil lineFuel
      omega
    obtain ⟨ws, hws, hlines⟩ := lineLoop_eq (by omega) (lineStart_aligned adr) rfl hcount
    refine ⟨ws, (if_neg hlen).trans hws, fun b => ?_⟩
    have hlo : lineOf adr < lineCeil (adr + len) := by
      have hpos : 0 < len.toNat := Nat.pos_of_ne_zero fun h => hlen (UInt32.toNat_inj.1 h)
      unfold lineCeil lineOf
      omega
    rw [exists_inRange_iff hlen (by omega), hlines, List.mem_range'_1, lineOf_lineStart, lineCeil,
      hstop]
    unfold lineCeil at hlo
    omega

/-- A range that reaches into the last line or beyond: the loop does not return, or stops before the
last line. -/
theorem rangeWords_of_lt {adr len : UInt32} (hlen : len ≠ 0)
    (hfit : 2 ^ 32 - 32 < adr.toNat + len.toNat) {fuel : ℕ} {ws : List UInt32}
    (h : rangeWords fuel adr len = some ws) :
    2 ^ 32 ≤ adr.toNat + len.toNat ∧ 2 ^ 27 - 1 ∉ ws.map lineOf := by
  rw [rangeWords, if_neg hlen] at h
  obtain ⟨hstop, hlines⟩ := lineLoop_eq_some (lineStart_aligned adr) h
  constructor
  · by_contra hlt
    rw [toNat_add_of_lt (Nat.lt_of_not_le hlt)] at hstop
    omega
  · rw [hlines, List.mem_range'_1]
    unfold lineCeil
    omega

/-- The fuel does not decide which lines the rounds reach. -/
theorem rangeWords_lines {adr len : UInt32} {fuel fuel' : ℕ} {ws ws' : List UInt32}
    (h : rangeWords fuel adr len = some ws) (h' : rangeWords fuel' adr len = some ws') :
    ws.map lineOf = ws'.map lineOf := by
  by_cases hlen : len = 0
  · rw [rangeWords, if_pos hlen] at h h'
    rw [← Option.some.inj h, ← Option.some.inj h']
  · rw [rangeWords, if_neg hlen] at h h'
    rw [(lineLoop_eq_some (lineStart_aligned adr) h).2, (lineLoop_eq_some (lineStart_aligned adr) h').2]

/-! ### Flushing a range -/

section

variable {csid : UInt32}

theorem any_atLine {κ : Type*} (ws : List UInt32) :
    (fun b (e : Entry κ UInt32 UInt8) => (ws.map atLine).any fun p => p b e)
      = fun b _ => decide (b ∈ ws.map lineOf) := by
  funext b e
  rw [Bool.eq_iff_iff, List.any_map, List.any_eq_true, decide_eq_true_iff, List.mem_map]
  constructor
  · rintro ⟨w, hw, hb⟩
    exact ⟨w, hw, (of_decide_eq_true hb).symm⟩
  · rintro ⟨w, hw, rfl⟩
    exact ⟨w, hw, decide_eq_true rfl⟩

theorem flushAll_atLine {g : Geometry} (ws : List UInt32) (s : L1 g) :
    s.flushAll lineOf (ws.map atLine) = s.flushWhere lineOf fun b _ => b ∈ ws.map lineOf := by
  rw [Cached.flushAll_eq, any_atLine]

theorem dropAll_atLine {g : Geometry} (ws : List UInt32) (s : L1 g) :
    s.dropAll (ws.map atLine) = s.dropWhere fun b _ => b ∈ ws.map lineOf := by
  rw [Cached.dropAll_eq, any_atLine]

/-- A memory of zeros behind one written line of ones. -/
def writtenLine (csid : UInt32) (b : ℕ) : L1 (geometry csid) where
  memory := fun _ => 0
  held := fun b' => if b' = b then some ⟨firstSlot csid, true, fun _ => 1⟩ else none

theorem coherent_writtenLine (b : ℕ) : (writtenLine csid b).Coherent lineOf := by
  intro a e he hclean
  simp only [writtenLine] at he
  split at he
  · cases he
    cases hclean
  · cases he

/-- **`Xil_DCacheFlushRange` returns with the range written back, for every content of the cache,
exactly when the range ends before the last line of the address space.** -/
theorem dCacheFlushRange_returns_iff (csid adr len : UInt32) :
    (∀ s : L1 (geometry csid), s.Coherent lineOf →
      ∃ fuel t, xilDCacheFlushRange fuel adr len s = some t ∧
        (∀ a, t.view lineOf a = s.view lineOf a) ∧
        (∀ a, InRange adr len a → t.Free (lineOf a) ∧ t.memory a = s.view lineOf a)) ↔
      len = 0 ∨ adr.toNat + len.toNat ≤ 2 ^ 32 - 32 := by
  constructor
  · intro h
    by_contra hfit
    obtain ⟨hlen, hfit⟩ := not_or.1 hfit
    obtain ⟨fuel, t, ht, -, hrange⟩ := h (writtenLine csid (2 ^ 27 - 1)) (coherent_writtenLine _)
    obtain ⟨ws, hws, rfl⟩ := Option.map_eq_some_iff.1 ht
    obtain ⟨hwrap, hmiss⟩ := rangeWords_of_lt hlen (Nat.lt_of_not_le hfit) hws
    have hlast : InRange adr len 0xFFFFFFFF := by
      have := adr.toNat_lt
      exact ⟨Nat.le_of_lt_succ this, by show 2 ^ 32 - 1 < _; omega⟩
    -- the last line of the range is still held
    have hheld := Cached.held_dropWhere_of_neg (p := fun b _ => decide (b ∈ ws.map lineOf))
      (show (writtenLine csid (2 ^ 27 - 1)).held (lineOf 0xFFFFFFFF) = some _ from rfl)
      (decide_eq_false hmiss)
    rw [flushAll_atLine] at hrange
    exact Option.some_ne_none _ (hheld.symm.trans (hrange _ hlast).1)
  · intro hfit s hs
    obtain ⟨ws, hws, hlines⟩ := rangeWords_eq hfit
    refine ⟨lineFuel, _, Option.map_eq_some_iff.2 ⟨ws, hws, rfl⟩, fun a => ?_, fun a ha => ?_⟩
    · rw [flushAll_atLine, (hs a).view_flushWhere]
    · have hmem : lineOf a ∈ ws.map lineOf := (hlines _).2 ⟨a, ha, rfl⟩
      rw [flushAll_atLine]
      refine ⟨?_, (hs a).memory_of_flush fun _ _ => decide_eq_true hmem⟩
      cases he : s.held (lineOf a) with
      | none => exact Cached.free_flushWhere_of_free he
      | some e => exact Cached.free_flushWhere_of_pos he (decide_eq_true hmem)

/-! ### Invalidating a range -/

/-- The lines that lie wholly inside the range. -/
def Interior (adr len : UInt32) (b : ℕ) : Prop :=
  adr.toNat ≤ 32 * b ∧ 32 * b + 32 ≤ adr.toNat + len.toNat

theorem flushUnaligned_eq {g : Geometry} (addr : UInt32) (s : L1 g) :
    flushUnaligned addr s
      = s.flushWhere lineOf fun b _ => decide (addr.toNat % 32 ≠ 0 ∧ b = lineOf addr) := by
  unfold flushUnaligned
  by_cases h : addr.toNat % 32 ≠ 0
  · rw [if_pos (and_31_ne_zero.2 h), xilL1DCacheFlushLine]
    congr 1
    funext b _
    simp [atLine, h]
  · rw [if_neg fun h' => h (and_31_ne_zero.1 h')]
    simp only [h, false_and, decide_false]
    exact Cached.flushWhere_none.symm

/-- The lines of an unaligned start and of an unaligned end. -/
def edge (adr stop : UInt32) (b : ℕ) : Bool :=
  decide (adr.toNat % 32 ≠ 0 ∧ b = lineOf adr) || decide (stop.toNat % 32 ≠ 0 ∧ b = lineOf stop)

theorem edge_eq_true {adr stop : UInt32} {b : ℕ} :
    edge adr stop b = true ↔
      (adr.toNat % 32 ≠ 0 ∧ b = lineOf adr) ∨ (stop.toNat % 32 ≠ 0 ∧ b = lineOf stop) := by
  simp [edge]

theorem tempend_toNat (stop : UInt32) : (tempend stop).toNat = 32 * lineOf stop := by
  unfold tempend
  by_cases h : stop.toNat % 32 ≠ 0
  · rw [if_pos (and_31_ne_zero.2 h), lineStart_toNat]
  · rw [if_neg fun h' => h (and_31_ne_zero.1 h'), lineOf]
    omega

theorem tempadr_toNat {adr : UInt32} (h : adr.toNat ≤ 2 ^ 32 - 32) :
    (tempadr adr).toNat = 32 * ((adr.toNat + 31) / 32) := by
  unfold tempadr
  by_cases h' : adr.toNat % 32 ≠ 0
  · have hstart := lineStart_toNat adr
    unfold lineOf at hstart
    rw [if_pos (and_31_ne_zero.2 h'), toNat_add_line (by omega), hstart]
    omega
  · rw [if_neg fun h'' => h' (and_31_ne_zero.1 h'')]
    omega

/-- Behind the last line `tempadr` starts again from address 0. -/
theorem tempadr_of_lt {adr : UInt32} (h : 2 ^ 32 - 32 < adr.toNat) : (tempadr adr).toNat = 0 := by
  have hlt := adr.toNat_lt
  have hstart := lineStart_toNat adr
  unfold lineOf at hstart
  unfold tempadr
  rw [if_pos (and_31_ne_zero.2 (by omega)), UInt32.toNat_add, hstart]
  show (32 * (adr.toNat / 32) + 32) % 2 ^ 32 = 0
  omega

theorem tempadr_aligned (adr : UInt32) : (tempadr adr).toNat % 32 = 0 := by
  rcases Nat.lt_or_ge (2 ^ 32 - 32) adr.toNat with h | h
  · rw [tempadr_of_lt h]
  · rw [tempadr_toNat h, Nat.mul_mod_right]

/-- What the call does: the edges are flushed, the lines of the loop dropped. -/
theorem invalidateRange_some {g : Geometry} {fuel : ℕ} {adr len : UInt32} {s t : L1 g}
    (hlen : len ≠ 0) (h : xilDCacheInvalidateRange fuel adr len s = some t) :
    t = (s.flushWhere lineOf fun b _ => edge adr (adr + len) b).dropWhere fun b _ =>
      decide (lineOf (tempadr adr) ≤ b ∧ b < lineOf (adr + len)) := by
  rw [xilDCacheInvalidateRange, if_neg hlen] at h
  obtain ⟨ws, hws, rfl⟩ := Option.map_eq_some_iff.1 h
  obtain ⟨-, hlines⟩ := lineLoop_eq_some (tempadr_aligned adr) hws
  rw [dropAll_atLine, flushUnaligned_eq, flushUnaligned_eq, Cached.flushWhere_flushWhere]
  congr 1
  funext b _
  rw [decide_eq_decide, hlines, List.mem_range'_1, lineCeil, tempend_toNat]
  omega

/-- The call always returns: its end is moved before the last line. -/
theorem invalidateRange_returns {g : Geometry} (adr len : UInt32) (s : L1 g) :
    ∃ t, xilDCacheInvalidateRange lineFuel adr len s = some t := by
  by_cases hlen : len = 0
  · exact ⟨s, if_pos hlen⟩
  · have hend := tempend_toNat (adr + len)
    have hline := lineOf_lt (adr + len)
    have hcount : lineCeil (tempend (adr + len)) - lineOf (tempadr adr) < lineFuel := by
      unfold lineCeil lineFuel
      omega
    obtain ⟨ws, hws, -⟩ := lineLoop_eq (by omega) (tempadr_aligned adr) rfl hcount
    exact ⟨_, (if_neg hlen).trans (Option.map_eq_some_iff.2 ⟨ws, hws, rfl⟩)⟩

/-- The loop drops lines of the range only. -/
theorem inRange_of_loop {adr len a : UInt32} (hadr : adr.toNat ≤ 2 ^ 32 - 32)
    (hfit : adr.toNat + len.toNat < 2 ^ 32)
    (h : lineOf (tempadr adr) ≤ lineOf a ∧ lineOf a < lineOf (adr + len)) : InRange adr len a := by
  have hstart := tempadr_toNat hadr
  have hstop := toNat_add_of_lt hfit
  unfold lineOf at h
  constructor <;> omega

/-- **`Xil_DCacheInvalidateRange`: nothing of the range is held any more; outside the range the
processor reads what it read before; inside, what was not written back is lost, except in a line
that the range shares with its surroundings.** -/
theorem invalidateRange_spec {g : Geometry} (adr len : UInt32) {s : L1 g}
    (hs : s.Coherent lineOf) (hadr : adr.toNat ≤ 2 ^ 32 - 32)
    (hfit : adr.toNat + len.toNat < 2 ^ 32) :
    ∃ t, xilDCacheInvalidateRange lineFuel adr len s = some t ∧
      (∀ a, InRange adr len a → t.Free (lineOf a)) ∧
      (∀ a, ¬ InRange adr len a → t.view lineOf a = s.view lineOf a) ∧
      (∀ a, InRange adr len a → Interior adr len (lineOf a) → t.memory a = s.memory a) ∧
      (∀ a, InRange adr len a → ¬ Interior adr len (lineOf a) → t.memory a = s.view lineOf a) := by
  obtain ⟨t, ht⟩ := invalidateRange_returns adr len s
  refine ⟨t, ht, ?_⟩
  by_cases hlen : len = 0
  · rw [xilDCacheInvalidateRange, if_pos hlen] at ht
    cases ht
    subst hlen
    have hnone : ∀ a, ¬ InRange adr 0 a := fun a ha => absurd ha.2 (Nat.not_lt.2 ha.1)
    exact ⟨fun a ha => (hnone a ha).elim, fun a _ => rfl, fun a ha => (hnone a ha).elim,
      fun a ha => (hnone a ha).elim⟩
  have hstop := toNat_add_of_lt hfit
  have hstart := tempadr_toNat hadr
  have hinterior : ∀ b, Interior adr len b ↔
      lineOf (tempadr adr) ≤ b ∧ b < lineOf (adr + len) := by
    intro b
    unfold Interior lineOf
    omega
  have hedge : ∀ a, InRange adr len a → ¬ Interior adr len (lineOf a) →
      edge adr (adr + len) (lineOf a) = true := by
    intro a ⟨hlo, hhi⟩ hnot
    rw [edge_eq_true]
    unfold Interior lineOf at *
    omega
  have hnotEdge : ∀ b, Interior adr len b → edge adr (adr + len) b = false := by
    intro b hb
    rw [Bool.eq_false_iff, Ne, edge_eq_true]
    unfold Interior lineOf at *
    omega
  rw [invalidateRange_some hlen ht]
  refine ⟨fun a ha => ?_, fun a ha => ?_, fun a ha hin => ?_, fun a ha hnot => ?_⟩
  · cases he : (s.flushWhere lineOf fun b _ => edge adr (adr + len) b).held (lineOf a) with
    | none => exact Cached.free_dropWhere_of_free he
    | some e =>
      refine Cached.free_dropWhere_of_pos he (decide_eq_true ((hinterior _).1 ?_))
      -- a line that is not interior was flushed
      by_contra hnot
      rw [Cached.held_flushWhere, Cached.held_dropWhere_eq_some, hedge a ha hnot] at he
      cases he.2
  · rw [Cached.view_dropWhere, if_neg, (hs a).view_flushWhere]
    rintro ⟨e, -, hin⟩
    exact ha (inRange_of_loop hadr hfit (of_decide_eq_true hin))
  · rw [Cached.memory_dropWhere, Cached.memory_flushWhere]
    cases he : s.held (lineOf a) with
    | none => exact Cached.memory_cleanWhere_of_free he
    | some e =>
      rw [Cached.memory_cleanWhere_of_held he, hnotEdge _ hin, Bool.and_false,
        if_neg Bool.false_ne_true]
  · rw [Cached.memory_dropWhere]
    exact (hs a).memory_of_flush fun _ _ => hedge a ha hnot

theorem invalidateRange_spec_writtenLine :
    ∃ t, xilDCacheInvalidateRange lineFuel 0x100010 0x50 (writtenLine zynqCsid 0x8001) = some t ∧
      t.Free (lineOf 0x100020) ∧ t.memory 0x100020 = 0 := by
  have hs : (writtenLine zynqCsid 0x8001).Coherent lineOf := coherent_writtenLine 0x8001
  obtain ⟨t, ht, hfree, -, hlost, -⟩ := invalidateRange_spec 0x100010 0x50 hs (by decide) (by decide)
  have hin : InRange 0x100010 0x50 0x100020 := by unfold InRange; decide
  exact ⟨t, ht, hfree _ hin, hlost _ hin (by unfold Interior; decide)⟩

/-- **Outside the range every coherent cache reads as before exactly when the start does not lie
inside the last line of the address space.** -/
theorem invalidateRange_keeps_iff (csid adr len : UInt32) (hlen : len ≠ 0)
    (hfit : adr.toNat + len.toNat < 2 ^ 32) :
    (∀ (s t : L1 (geometry csid)) (fuel : ℕ), s.Coherent lineOf →
      xilDCacheInvalidateRange fuel adr len s = some t →
        ∀ a, ¬ InRange adr len a → t.view lineOf a = s.view lineOf a) ↔
      adr.toNat ≤ 2 ^ 32 - 32 := by
  constructor
  · intro h
    by_contra hadr
    have hstart := tempadr_of_lt (Nat.lt_of_not_le hadr)
    have hstop := toNat_add_of_lt hfit
    obtain ⟨t, ht⟩ := invalidateRange_returns adr len (writtenLine csid 0)
    have hout : ¬ InRange adr len 0 := fun h0 => hadr (h0.1.trans (by decide))
    have hkept := h _ t _ (coherent_writtenLine 0) ht 0 hout
    have hedge : edge adr (adr + len) (lineOf 0) = false := by
      rw [Bool.eq_false_iff, Ne, edge_eq_true]
      unfold lineOf
      simp only [UInt32.toNat_zero]
      omega
    have hheld : ((writtenLine csid 0).flushWhere lineOf fun b _ => edge adr (adr + len) b).held
        (lineOf 0) = some ⟨firstSlot csid, true, fun _ => 1⟩ :=
      Cached.held_flushWhere_of_neg rfl hedge
    have hdropped : lineOf (tempadr adr) ≤ lineOf 0 ∧ lineOf 0 < lineOf (adr + len) := by
      unfold lineOf
      rw [hstart, hstop]
      simp only [UInt32.toNat_zero]
      omega
    -- the loop starts again from address 0 and drops the written line
    rw [invalidateRange_some hlen ht, Cached.view_dropWhere,
      if_pos ⟨_, hheld, decide_eq_true hdropped⟩, Cached.memory_flushWhere,
      Cached.memory_cleanWhere_of_held (show _ = some _ from rfl), hedge, Bool.and_false,
      if_neg Bool.false_ne_true] at hkept
    exact absurd hkept (show (0 : UInt8) ≠ 1 by decide)
  · intro hadr s t fuel hs ht a ha
    rw [invalidateRange_some hlen ht, Cached.view_dropWhere, if_neg, (hs a).view_flushWhere]
    rintro ⟨e, -, hin⟩
    exact ha (inRange_of_loop hadr hfit (of_decide_eq_true hin))

theorem invalidateRange_keeps_lastLine :
    ¬ ∀ (s t : L1 (geometry zynqCsid)) (fuel : ℕ), s.Coherent lineOf →
      xilDCacheInvalidateRange fuel 0xFFFFFFF0 8 s = some t →
        ∀ a, ¬ InRange 0xFFFFFFF0 8 a → t.view lineOf a = s.view lineOf a := fun h =>
  absurd ((invalidateRange_keeps_iff zynqCsid 0xFFFFFFF0 8 (by decide) (by decide)).1 h) (by decide)

/-- A line that is dropped while it is the only copy of an address outside the range loses it. -/
theorem view_drop_writtenLine (csid : UInt32) {ws : List UInt32} {a : UInt32} (ha : lineOf a ∈ ws.map lineOf) :
    ((writtenLine csid (lineOf a)).dropAll (ws.map atLine)).view lineOf a
      ≠ (writtenLine csid (lineOf a)).view lineOf a := by
  have hheld : (writtenLine csid (lineOf a)).held (lineOf a)
      = some ⟨firstSlot csid, true, fun _ => 1⟩ := if_pos rfl
  rw [dropAll_atLine, Cached.view_dropWhere, if_pos ⟨_, hheld, decide_eq_true ha⟩,
    Cached.view_of_held hheld]
  exact show (0 : UInt8) ≠ 1 by decide

/-- **`Xil_L1DCacheInvalidateRange` does not flush unaligned ends: outside the range every coherent
cache reads as before exactly when both ends are aligned.** -/
theorem l1InvalidateRange_keeps_iff (csid adr len : UInt32) (hlen : len ≠ 0)
    (hfit : adr.toNat + len.toNat ≤ 2 ^ 32 - 32) :
    (∀ (s t : L1 (geometry csid)) (fuel : ℕ), s.Coherent lineOf →
      xilL1DCacheInvalidateRange fuel adr len s = some t →
        ∀ a, ¬ InRange adr len a → t.view lineOf a = s.view lineOf a) ↔
      adr.toNat % 32 = 0 ∧ (adr.toNat + len.toNat) % 32 = 0 := by
  obtain ⟨ws, hws, hlines⟩ := rangeWords_eq (Or.inr hfit : len = 0 ∨ _)
  have hpos : 0 < len.toNat := Nat.pos_of_ne_zero fun h => hlen (UInt32.toNat_inj.1 h)
  constructor
  · intro h
    -- an address outside the range whose line the range shares
    have hshared : ∀ x : ℕ, x < 2 ^ 32 → ¬ (adr.toNat ≤ x ∧ x < adr.toNat + len.toNat) →
        adr.toNat / 32 ≤ x / 32 → x / 32 < (adr.toNat + len.toNat + 31) / 32 → False := by
      intro x hx hout hlo hhi
      have hxa : (UInt32.ofNat x).toNat = x := UInt32.toNat_ofNat_of_lt hx
      have hline : lineOf (UInt32.ofNat x) = x / 32 := by rw [lineOf, hxa]
      have hmem : lineOf (UInt32.ofNat x) ∈ ws.map lineOf := by
        rw [hlines, exists_inRange_iff hlen (by omega), hline]
        exact ⟨hlo, hhi⟩
      refine view_drop_writtenLine csid hmem (h _ _ lineFuel (coherent_writtenLine _)
        (Option.map_eq_some_iff.2 ⟨ws, hws, rfl⟩) _ ?_)
      rwa [InRange, hxa]
    constructor
    · by_contra hadr
      exact hshared (adr.toNat - 1) (by omega) (by omega) (by omega) (by omega)
    · by_contra hend
      exact hshared (adr.toNat + len.toNat) (by omega) (by omega) (by omega) (by omega)
  · rintro ⟨hadr, hend⟩ s t fuel - ht a ha
    obtain ⟨ws', hws', rfl⟩ := Option.map_eq_some_iff.1 ht
    rw [dropAll_atLine, rangeWords_lines hws' hws, Cached.view_dropWhere, if_neg]
    rintro ⟨e, -, hin⟩
    obtain ⟨a', ⟨hlo, hhi⟩, hline⟩ := (hlines _).1 (of_decide_eq_true hin)
    unfold InRange lineOf at *
    omega

theorem l1InvalidateRange_keeps_unaligned :
    ¬ ∀ (s t : L1 (geometry zynqCsid)) (fuel : ℕ), s.Coherent lineOf →
      xilL1DCacheInvalidateRange fuel 0x100010 0x30 s = some t →
        ∀ a, ¬ InRange 0x100010 0x30 a → t.view lineOf a = s.view lineOf a := fun h =>
  absurd ((l1InvalidateRange_keeps_iff zynqCsid 0x100010 0x30 (by decide) (by decide)).1 h).1 (by decide)

/-! ### Invalidating the whole cache -/

/-- **`boot.S` leaves nothing held and the memory as it was, whatever the geometry of the level 1
cache and the levels above it; on a Cortex-A9 it does what `Xil_L1DCacheInvalidate` does while the
cache is disabled.** -/
theorem invalidateDcache_spec {clidr : UInt32} {ccsidr : ℕ → UInt32} (hg : (geometry csid).Fits)
    (hclidr : HasL1 clidr) (hccsidr : ccsidr 0 = csid) (s : L1 (geometry csid)) :
    (∀ b, (invalidateDcache clidr ccsidr s).Free b) ∧
    (invalidateDcache clidr ccsidr s).memory = s.memory ∧
    (CortexA9 csid → ∀ fuel stackEnd stackStart,
      xilL1DCacheInvalidate fuel false stackEnd stackStart s
        = some (invalidateDcache clidr ccsidr s)) := by
  have hboot : invalidateDcache clidr ccsidr s = s.dropWhere fun _ _ => true :=
    (covers_bootWords hg hclidr hccsidr).dropAll s
  refine ⟨fun b => hboot ▸ free_dropAll s b, by rw [hboot, Cached.memory_dropWhere],
    fun hA9 fuel stackEnd stackStart => ?_⟩
  show some (s.dropAll _) = _
  rw [(covers_setWayWords hA9).dropAll, hboot]

/-- The level identification register of the Cortex-A9. -/
def zynqClidr : UInt32 := 0x09200003

theorem invalidateDcache_spec_zynq :
    (∀ b, (invalidateDcache zynqClidr (fun _ => zynqCsid) oneDirtyLine).Free b) ∧
      (invalidateDcache zynqClidr (fun _ => zynqCsid) oneDirtyLine).memory = fun _ => 0 := by
  have hfits : (geometry zynqCsid).Fits := by unfold Geometry.Fits; decide
  have hlevel : HasL1 zynqClidr := ⟨by decide, by decide⟩
  obtain ⟨hfree, hmemory, -⟩ := @invalidateDcache_spec _ _ (fun _ => zynqCsid) hfits hlevel rfl
    oneDirtyLine
  exact ⟨hfree, hmemory⟩

/-- **With the cache enabled, `Xil_L1DCacheInvalidate` saves the lines of the stack, and loses
everything else that was not written back.** -/
theorem l1DCacheInvalidate_spec (stackEnd stackStart : UInt32) (hA9 : CortexA9 csid)
    {s : L1 (geometry csid)} (hs : s.Coherent lineOf)
    (hstack : stackEnd.toNat ≤ stackStart.toNat) (hddr : stackStart.toNat ≤ 2 ^ 32 - 32) :
    ∃ t, xilL1DCacheInvalidate lineFuel true stackEnd stackStart s = some t ∧ (∀ b, t.Free b) ∧
      (∀ a, InRange stackEnd (stackStart - stackEnd) a → t.memory a = s.view lineOf a) ∧
      (∀ a, (∀ a', InRange stackEnd (stackStart - stackEnd) a' → lineOf a' ≠ lineOf a) →
        t.memory a = s.memory a) := by
  have hsize : (stackStart - stackEnd).toNat = stackStart.toNat - stackEnd.toNat :=
    UInt32.toNat_sub_of_le _ _ (UInt32.le_iff_toNat_le.2 hstack)
  obtain ⟨ws, hws, hlines⟩ := rangeWords_eq
    (Or.inr (by rw [hsize]; omega) : _ ∨ stackEnd.toNat + (stackStart - stackEnd).toNat ≤ 2 ^ 32 - 32)
  refine ⟨(s.flushAll lineOf (ws.map atLine)).dropAll ((setWayWords csid).map
    (atWord (geometry csid))), ?_, ?_, ?_, ?_⟩
  · rw [xilL1DCacheInvalidate, if_pos rfl, xilDCacheFlushRange, hws]
    rfl
  · rw [(covers_setWayWords hA9).dropAll]
    exact free_dropAll _
  · intro a ha
    rw [(covers_setWayWords hA9).dropAll, Cached.memory_dropWhere, flushAll_atLine]
    exact (hs a).memory_of_flush fun _ _ => decide_eq_true ((hlines _).2 ⟨a, ha, rfl⟩)
  · intro a ha
    rw [(covers_setWayWords hA9).dropAll, Cached.memory_dropWhere, flushAll_atLine,
      Cached.memory_flushWhere]
    cases he : s.held (lineOf a) with
    | none => exact Cached.memory_cleanWhere_of_free he
    | some e =>
      have hout : lineOf a ∉ ws.map lineOf := fun hmem =>
        let ⟨a', ha', hline⟩ := (hlines _).1 hmem
        ha a' ha' hline
      rw [Cached.memory_cleanWhere_of_held he, decide_eq_false hout, Bool.and_false,
        if_neg Bool.false_ne_true]

theorem l1DCacheInvalidate_spec_writtenLine :
    ∃ t, xilL1DCacheInvalidate lineFuel true 0x100000 0x100100 (writtenLine zynqCsid 0x8001) = some t ∧
      t.memory 0x100020 = 1 := by
  obtain ⟨t, ht, -, hstack, -⟩ := l1DCacheInvalidate_spec 0x100000 0x100100 cortexA9_zynqCsid
    (coherent_writtenLine 0x8001) (by decide) (by decide)
  exact ⟨t, ht, hstack _ (by unfold InRange; decide)⟩

end

end Tet4120

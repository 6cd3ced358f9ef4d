import Mathlib.Data.Nat.Log
import Mathlib.Data.Nat.Size
import Mathlib.Data.UInt
import Mathlib.Tactic.Ring
import Tet4120Lab.Lib.WriteBack

/-!
# xil_cache.c, boot.S: the level 1 data cache, line by line

The Cortex-A9 has no operation on the whole data cache: a line is named by its way and its set,
packed in one word.  `Xil_L1DCacheFlush` and `Xil_L1DCacheInvalidate` run through the words
upwards, with the way in bits 30 and 31; `invalidate_dcache` of `boot.S` runs through them
downwards, for every level of cache that `CLIDR` names, with the way shifted by `clz` of the number
of ways.

* `Geometry`, `geometry`: what `CCSIDR` says of a cache; `decode` is the way and the set that the
  hardware reads from a word;
* `setWayWords`, `bootWords`: the words of the two loops, in order;
* `decode_setWayWords`, `decode_bootWords`: they name every line once;
* `l1DCacheFlush_spec`: after `Xil_L1DCacheFlush` nothing is held and the memory has what the
  processor read before.
-/

namespace Tet4120

open WriteBack

/-- Ways, sets, and the number of address bits inside a line. -/
structure Geometry where
  ways : ℕ
  sets : ℕ
  lineBits : ℕ

/-- The cache that the size register `CCSIDR` describes. -/
def geometry (csid : UInt32) : Geometry where
  ways := csid.toNat / 8 % 1024 + 1
  sets := csid.toNat / 8192 % 32768 + 1
  lineBits := csid.toNat % 8 + 4

/-- A place for one line: way and set. -/
def Slot (g : Geometry) : Type := {p : ℕ × ℕ // p.1 < g.ways ∧ p.2 < g.sets}

instance (g : Geometry) : DecidableEq (Slot g) := inferInstanceAs (DecidableEq (Subtype _))

/-- The first way of the first set. -/
def firstSlot (csid : UInt32) : Slot (geometry csid) :=
  ⟨(0, 0), Nat.succ_pos _, Nat.succ_pos _⟩

namespace Geometry

variable (g : Geometry)

/-- The bits of a way number, at the top of a set/way word. -/
def wayBits : ℕ := Nat.clog 2 g.ways

/-- The bits of a set number, above the bits inside a line. -/
def setBits : ℕ := Nat.clog 2 g.sets

/-- Way, set and line number do not overlap in a word. -/
def Fits : Prop := g.lineBits + g.setBits + g.wayBits ≤ 32

/-- The way and the set that the hardware reads from a word. -/
def decode (word : UInt32) : ℕ × ℕ :=
  (word.toNat / 2 ^ (32 - g.wayBits), word.toNat / 2 ^ g.lineBits % 2 ^ g.setBits)

end Geometry

/-- The lines of a data cache, over the memory, at the addresses of the processor. -/
abbrev L1 (g : Geometry) := Cached (Slot g) ℕ UInt32 UInt8

/-- The line of 32 bytes of an address. -/
def lineOf (a : UInt32) : ℕ := a.toNat / 32

/-- The held line in the way and set of a word. -/
def atWord (g : Geometry) (word : UInt32) : Selection (Slot g) ℕ UInt32 UInt8 :=
  fun _ e => e.slot.val = g.decode word

/-! ### The loops of xil_cache.c -/

/-- `NumWays`. -/
def numWays (csid : UInt32) : UInt32 := ((csid &&& 0x3ff) >>> 3) + 1

/-- `LineSize`. -/
def lineSize (csid : UInt32) : UInt32 := (csid &&& 0x07) + 4

/-- `CacheSize`, in bytes. -/
def cacheSize (csid : UInt32) : UInt32 := ((csid >>> 13 &&& 0x1FF) + 1) * 128

/-- `NumSet`. -/
def numSet (csid : UInt32) : UInt32 := cacheSize csid / numWays csid / (1 <<< lineSize csid)

/-- The inner loop: `C7Reg = Way | Set` with `Set += 1 << LineSize`. -/
def setLoop (way stride : UInt32) : ℕ → UInt32 → List UInt32
  | 0, _ => []
  | n + 1, set => (way ||| set) :: setLoop way stride n (set + stride)

/-- The outer loop: `Way += 0x40000000`. -/
def wayLoop (numSet stride : UInt32) : ℕ → UInt32 → List UInt32
  | 0, _ => []
  | n + 1, way => setLoop way stride numSet.toNat 0 ++ wayLoop numSet stride n (way + 0x40000000)

/-- The words `Xil_L1DCacheFlush` and `Xil_L1DCacheInvalidate` run through. -/
def setWayWords (csid : UInt32) : List UInt32 :=
  wayLoop (numSet csid) (1 <<< lineSize csid) (numWays csid).toNat 0

/-- `Xil_L1DCacheFlush`. -/
def xilL1DCacheFlush {csid : UInt32} (s : L1 (geometry csid)) : L1 (geometry csid) :=
  s.flushAll lineOf ((setWayWords csid).map (atWord (geometry csid)))

/-! ### The loops of boot.S -/

/-- `lsl` by a register: what is shifted out is lost, also for 32 and more. -/
def lsl (x n : ℕ) : ℕ := (x <<< n) % 2 ^ 32

/-- `clz`. -/
def clz (x : ℕ) : ℕ := 32 - x.size

/-- `loop3`: one index, way `r9` and all below. -/
def bootWays (r10 r5 index : ℕ) : ℕ → List UInt32
  | 0 => [UInt32.ofNat (r10 ||| lsl 0 r5 ||| index)]
  | r9 + 1 => UInt32.ofNat (r10 ||| lsl (r9 + 1) r5 ||| index) :: bootWays r10 r5 index r9

/-- `loop2`: index `r7` and all below. -/
def bootSets (r10 r4 r2 : ℕ) : ℕ → List UInt32
  | 0 => bootWays r10 (clz r4) (lsl 0 r2) r4
  | r7 + 1 => bootWays r10 (clz r4) (lsl (r7 + 1) r2) r4 ++ bootSets r10 r4 r2 r7

/-- One round of `loop1`: the level `r10 / 2`, unless it has no data cache. -/
def bootLevel (clidr : UInt32) (ccsidr : ℕ → UInt32) (level : ℕ) : List UInt32 :=
  let r10 := 2 * level
  if clidr.toNat >>> (r10 + r10 >>> 1) &&& 7 < 2 then []
  else
    let r1 := (ccsidr level).toNat
    bootSets r10 (0x3ff &&& r1 >>> 3) ((r1 &&& 7) + 4) (0x7fff &&& r1 >>> 13)

/-- `invalidate_dcache`: the words of all rounds of `loop1`, up to the level of coherence. -/
def bootWords (clidr : UInt32) (ccsidr : ℕ → UInt32) : List UInt32 :=
  (List.range ((clidr.toNat &&& 0x7000000) >>> 23 / 2)).flatMap (bootLevel clidr ccsidr)

/-- The level in bits 1 to 3 of a word. -/
def wordLevel (word : UInt32) : ℕ := word.toNat / 2 % 8

/-- `invalidate_dcache`, on the level 1 cache. -/
def invalidateDcache {csid : UInt32} (clidr : UInt32) (ccsidr : ℕ → UInt32)
    (s : L1 (geometry csid)) : L1 (geometry csid) :=
  s.dropAll (((bootWords clidr ccsidr).filter fun word => wordLevel word = 0).map
    (atWord (geometry csid)))

/-! ### Packed words -/

section Packed

variable {l n k m w i r : ℕ}

/-- What lies below the way number. -/
theorem packed_low_lt (hr : r < 2 ^ l) (hi : i < 2 ^ n) (hk : l + n ≤ k) :
    i * 2 ^ l + r < 2 ^ k :=
  calc i * 2 ^ l + r < (i + 1) * 2 ^ l := by rw [Nat.succ_mul]; omega
    _ ≤ 2 ^ n * 2 ^ l := Nat.mul_le_mul_right _ hi
    _ = 2 ^ (l + n) := by rw [Nat.mul_comm, Nat.pow_add]
    _ ≤ 2 ^ k := Nat.pow_le_pow_right (by decide) hk

theorem packed_eq (hr : r < 2 ^ l) (hi : i < 2 ^ n) (hk : l + n ≤ k) :
    r ||| w <<< k ||| i <<< l = w * 2 ^ k + (i * 2 ^ l + r) := by
  have hir : i <<< l ||| r = i * 2 ^ l + r := by
    rw [← Nat.shiftLeft_add_eq_or_of_lt hr, Nat.shiftLeft_eq]
  rw [Nat.or_comm r, Nat.or_assoc, Nat.or_comm r, hir,
    ← Nat.shiftLeft_add_eq_or_of_lt (packed_low_lt hr hi hk), Nat.shiftLeft_eq]

theorem packed_lt (hr : r < 2 ^ l) (hi : i < 2 ^ n) (hk : l + n ≤ k) (hw : w < 2 ^ m) :
    w * 2 ^ k + (i * 2 ^ l + r) < 2 ^ (k + m) :=
  calc w * 2 ^ k + (i * 2 ^ l + r) < (w + 1) * 2 ^ k := by
        have := packed_low_lt hr hi hk
        rw [Nat.succ_mul]
        omega
    _ ≤ 2 ^ m * 2 ^ k := Nat.mul_le_mul_right _ hw
    _ = 2 ^ (k + m) := by rw [Nat.mul_comm, Nat.pow_add]

theorem packed_way (hr : r < 2 ^ l) (hi : i < 2 ^ n) (hk : l + n ≤ k) :
    (w * 2 ^ k + (i * 2 ^ l + r)) / 2 ^ k = w := by
  rw [Nat.mul_comm, Nat.mul_add_div (Nat.two_pow_pos k), Nat.div_eq_of_lt (packed_low_lt hr hi hk),
    Nat.add_zero]

theorem packed_set (hr : r < 2 ^ l) (hi : i < 2 ^ n) (hk : l + n ≤ k) :
    (w * 2 ^ k + (i * 2 ^ l + r)) / 2 ^ l % 2 ^ n = i := by
  obtain ⟨d, rfl⟩ := Nat.exists_eq_add_of_le hk
  have hsplit : w * 2 ^ (l + n + d) + (i * 2 ^ l + r) = 2 ^ l * (2 ^ n * (2 ^ d * w) + i) + r := by
    rw [Nat.pow_add, Nat.pow_add]
    ring
  rw [hsplit, Nat.mul_add_div (Nat.two_pow_pos l), Nat.div_eq_of_lt hr, Nat.add_zero,
    Nat.mul_add_mod, Nat.mod_eq_of_lt hi]

end Packed

namespace Geometry

variable {g : Geometry}

theorem lt_pow_wayBits {w : ℕ} (hw : w < g.ways) : w < 2 ^ g.wayBits :=
  hw.trans_le (Nat.le_pow_clog (by decide) _)

theorem lt_pow_setBits {i : ℕ} (hi : i < g.sets) : i < 2 ^ g.setBits :=
  hi.trans_le (Nat.le_pow_clog (by decide) _)

/-- A word packed from a way, a set and anything below names that line. -/
theorem decode_packed (hg : g.Fits) {w i r : ℕ} (hi : i < g.sets)
    (hr : r < 2 ^ g.lineBits) {word : UInt32}
    (hword : word.toNat = w * 2 ^ (32 - g.wayBits) + (i * 2 ^ g.lineBits + r)) :
    g.decode word = (w, i) := by
  unfold Fits at hg
  have hk : g.lineBits + g.setBits ≤ 32 - g.wayBits := by omega
  rw [decode, hword, packed_way hr (lt_pow_setBits hi) hk, packed_set hr (lt_pow_setBits hi) hk]

end Geometry

/-! ### The words of xil_cache.c -/

/-- The level 1 data cache of a Cortex-A9: four ways of lines of 32 bytes, at most 512 sets. -/
structure CortexA9 (csid : UInt32) : Prop where
  ways : (geometry csid).ways = 4
  lineBits : (geometry csid).lineBits = 5
  sets : (geometry csid).sets ≤ 512

theorem add_ofNat_succ_mul (x k : UInt32) (i : ℕ) :
    x + k + UInt32.ofNat i * k = x + UInt32.ofNat (i + 1) * k := by
  rw [UInt32.ofNat_add, UInt32.add_mul, show UInt32.ofNat 1 = 1 from rfl, UInt32.one_mul,
    UInt32.add_assoc, UInt32.add_comm k]

theorem setLoop_eq (way stride : UInt32) (n : ℕ) (set : UInt32) :
    setLoop way stride n set
      = (List.range n).map fun i => way ||| (set + UInt32.ofNat i * stride) := by
  induction n generalizing set with
  | zero => rfl
  | succ n ih =>
    rw [setLoop, ih, List.range_succ_eq_map, List.map_cons, List.map_map]
    congr 1
    · simp
    · exact List.map_congr_left fun i _ => congrArg (way ||| ·) (add_ofNat_succ_mul set stride i)

theorem wayLoop_eq (numSet stride : UInt32) (n : ℕ) (way : UInt32) :
    wayLoop numSet stride n way = (List.range n).flatMap fun w =>
      setLoop (way + UInt32.ofNat w * 0x40000000) stride numSet.toNat 0 := by
  induction n generalizing way with
  | zero => rfl
  | succ n ih =>
    have hfirst : way + UInt32.ofNat 0 * 0x40000000 = way := by
      rw [show UInt32.ofNat 0 = 0 from rfl, UInt32.zero_mul, UInt32.add_zero]
    rw [wayLoop, ih, List.range_succ_eq_map, List.flatMap_cons, List.flatMap_map, hfirst]
    simp only [add_ofNat_succ_mul, Nat.succ_eq_add_one]

namespace CortexA9

variable {csid : UInt32}

theorem fits (h : CortexA9 csid) : (geometry csid).Fits := by
  have hways : (geometry csid).wayBits = 2 := by rw [Geometry.wayBits, h.ways]; decide
  have hsets : (geometry csid).setBits ≤ 9 := Nat.clog_le_of_le_pow h.sets
  rw [Geometry.Fits, h.lineBits, hways]
  omega

theorem numWays_eq (h : CortexA9 csid) : numWays csid = 4 := by
  have hways : csid.toNat / 8 % 1024 + 1 = 4 := h.ways
  apply UInt32.toNat_inj.1
  rw [numWays, UInt32.toNat_add, UInt32.toNat_shiftRight, UInt32.toNat_and]
  show ((csid.toNat &&& (2 ^ 10 - 1)) >>> 3 + 1) % 2 ^ 32 = 4
  rw [Nat.and_two_pow_sub_one_eq_mod, Nat.shiftRight_eq_div_pow]
  omega

theorem lineSize_eq (h : CortexA9 csid) : lineSize csid = 5 := by
  have hline : csid.toNat % 8 + 4 = 5 := h.lineBits
  apply UInt32.toNat_inj.1
  rw [lineSize, UInt32.toNat_add, UInt32.toNat_and]
  show ((csid.toNat &&& (2 ^ 3 - 1)) + 4) % 2 ^ 32 = 5
  rw [Nat.and_two_pow_sub_one_eq_mod]
  omega

theorem toNat_numSet (h : CortexA9 csid) : (numSet csid).toNat = (geometry csid).sets := by
  have hsets : csid.toNat / 8192 % 32768 + 1 ≤ 512 := h.sets
  rw [numSet, h.numWays_eq, h.lineSize_eq, cacheSize, UInt32.toNat_div, UInt32.toNat_div,
    UInt32.toNat_mul, UInt32.toNat_add, UInt32.toNat_and, UInt32.toNat_shiftRight]
  show ((csid.toNat >>> 13 &&& (2 ^ 9 - 1)) + 1) % 2 ^ 32 * 128 % 2 ^ 32 / 4 / 32
    = csid.toNat / 8192 % 32768 + 1
  rw [Nat.and_two_pow_sub_one_eq_mod, Nat.shiftRight_eq_div_pow]
  omega

end CortexA9

/-- **The loops of `xil_cache.c` name every line once, way by way.** -/
theorem decode_setWayWords {csid : UInt32} (h : CortexA9 csid) :
    (setWayWords csid).map (geometry csid).decode
      = (List.range 4).flatMap fun w => (List.range (geometry csid).sets).map fun i => (w, i) := by
  have hways : (geometry csid).wayBits = 2 := by rw [Geometry.wayBits, h.ways]; decide
  rw [setWayWords, h.numWays_eq, h.lineSize_eq, wayLoop_eq, List.map_flatMap]
  refine List.flatMap_congr fun w hw => ?_
  rw [setLoop_eq, h.toNat_numSet, List.map_map]
  refine List.map_congr_left fun i hi => ?_
  have hw4 : w < 4 := List.mem_range.1 hw
  have hi512 : i < 512 := (List.mem_range.1 hi).trans_le h.sets
  refine Geometry.decode_packed h.fits (r := 0) (List.mem_range.1 hi) (Nat.two_pow_pos _) ?_
  rw [hways, h.lineBits, ← packed_eq (n := 9) (Nat.two_pow_pos _) hi512 (by decide), UInt32.toNat_or]
  have hway : (0 + UInt32.ofNat w * 0x40000000).toNat = w <<< 30 := by
    rw [UInt32.zero_add, UInt32.toNat_mul, UInt32.toNat_ofNat', Nat.shiftLeft_eq]
    show w % 2 ^ 32 * 1073741824 % 2 ^ 32 = w * 2 ^ 30
    omega
  have hset : ((0 : UInt32) + UInt32.ofNat i * ((1 : UInt32) <<< 5)).toNat = i <<< 5 := by
    rw [UInt32.zero_add, UInt32.toNat_mul, UInt32.toNat_ofNat', Nat.shiftLeft_eq]
    show i % 2 ^ 32 * 32 % 2 ^ 32 = i * 2 ^ 5
    omega
  rw [hway, hset, Nat.zero_or]

/-! ### The words of boot.S -/

theorem reverse_range_succ (n : ℕ) :
    (List.range (n + 1)).reverse = n :: (List.range n).reverse := by
  rw [List.range_succ, List.reverse_append]
  rfl

theorem bootWays_eq (r10 r5 index n : ℕ) :
    bootWays r10 r5 index n
      = (List.range (n + 1)).reverse.map fun w => UInt32.ofNat (r10 ||| lsl w r5 ||| index) := by
  induction n with
  | zero => rfl
  | succ n ih => rw [bootWays, ih, reverse_range_succ (n + 1), List.map_cons]

theorem bootSets_eq (r10 r4 r2 n : ℕ) :
    bootSets r10 r4 r2 n
      = (List.range (n + 1)).reverse.flatMap fun i => bootWays r10 (clz r4) (lsl i r2) r4 := by
  induction n with
  | zero => simp [bootSets]
  | succ n ih => rw [bootSets, ih, reverse_range_succ (n + 1), List.flatMap_cons]

theorem lsl_eq {x n m : ℕ} (hx : x < 2 ^ m) (h : n + m ≤ 32) : lsl x n = x <<< n := by
  refine Nat.mod_eq_of_lt ?_
  calc x <<< n = 2 ^ n * x := by rw [Nat.shiftLeft_eq, Nat.mul_comm]
    _ < 2 ^ n * 2 ^ m := Nat.mul_lt_mul_of_pos_left hx (Nat.two_pow_pos _)
    _ = 2 ^ (n + m) := (Nat.pow_add ..).symm
    _ ≤ 2 ^ 32 := Nat.pow_le_pow_right (by decide) h

theorem size_eq_clog (n : ℕ) : n.size = Nat.clog 2 (n + 1) := by
  refine le_antisymm (Nat.size_le.2 (Nat.le_pow_clog (by decide) _)) ?_
  exact Nat.clog_le_of_le_pow (Nat.size_le.1 le_rfl)

/-- The shift of the way number is what the hardware expects. -/
theorem clz_eq (g : Geometry) (n : ℕ) (hn : g.ways = n + 1) : clz n = 32 - g.wayBits := by
  rw [clz, size_eq_clog, Geometry.wayBits, hn]

theorem lsl_mod_sixteen (x : ℕ) {n : ℕ} (hn : 4 ≤ n) : lsl x n % 2 ^ 4 = 0 := by
  obtain ⟨d, rfl⟩ := Nat.exists_eq_add_of_le hn
  have hmul : x * 2 ^ (4 + d) = 2 ^ 4 * (x * 2 ^ d) := by rw [Nat.pow_add]; ring
  rw [lsl, Nat.shiftLeft_eq, Nat.mod_mod_of_dvd _ (by decide : 2 ^ 4 ∣ 2 ^ 32), hmul,
    Nat.mul_mod_right]

/-- The bits below the line hold the level only. -/
theorem wordLevel_packed {level x y n m : ℕ} (hlevel : level < 8) (hn : 4 ≤ n) (hm : 4 ≤ m) :
    wordLevel (UInt32.ofNat (2 * level ||| lsl x n ||| lsl y m)) = level := by
  have hlow : (2 * level ||| lsl x n ||| lsl y m) % 2 ^ 4 = 2 * level := by
    rw [Nat.or_mod_two_pow, Nat.or_mod_two_pow, lsl_mod_sixteen x hn, lsl_mod_sixteen y hm,
      Nat.or_zero, Nat.or_zero]
    omega
  rw [wordLevel, UInt32.toNat_ofNat']
  omega

theorem clz_ge (n : ℕ) (hn : n < 1024) : 4 ≤ clz n := by
  have hsize : n.size ≤ 10 := Nat.size_le.2 hn
  rw [clz]
  omega

/-- Every word of a round names its level. -/
theorem wordLevel_of_mem_bootLevel {clidr : UInt32} {ccsidr : ℕ → UInt32} {level : ℕ}
    (hlevel : level < 8) {word : UInt32} (h : word ∈ bootLevel clidr ccsidr level) :
    wordLevel word = level := by
  unfold bootLevel at h
  simp only at h
  split at h
  · cases h
  · rw [bootSets_eq] at h
    obtain ⟨i, -, h⟩ := List.mem_flatMap.1 h
    rw [bootWays_eq] at h
    obtain ⟨w, -, rfl⟩ := List.mem_map.1 h
    refine wordLevel_packed hlevel (clz_ge _ ?_) (by omega)
    exact Nat.lt_of_le_of_lt Nat.and_le_left (by decide)

/-- `CLIDR` names a level of coherence above level 1, and a data cache at level 1. -/
structure HasL1 (clidr : UInt32) : Prop where
  coherence : 0 < (clidr.toNat &&& 0x7000000) >>> 23 / 2
  data : 2 ≤ clidr.toNat &&& 7

theorem filter_bootWords {clidr : UInt32} (h : HasL1 clidr) (ccsidr : ℕ → UInt32) :
    ((bootWords clidr ccsidr).filter fun word => wordLevel word = 0)
      = bootLevel clidr ccsidr 0 := by
  obtain ⟨n, hn⟩ := Nat.exists_eq_succ_of_ne_zero h.coherence.ne'
  have hn8 : n + 1 ≤ 7 := by
    have hle : (clidr.toNat &&& 0x7000000) >>> 23 ≤ 0x7000000 >>> 23 := by
      rw [Nat.shiftRight_eq_div_pow, Nat.shiftRight_eq_div_pow]
      exact Nat.div_le_div_right Nat.and_le_right
    have h14 : (0x7000000 >>> 23 : ℕ) = 14 := by decide
    omega
  rw [bootWords, hn, List.range_succ_eq_map, List.flatMap_cons, List.filter_append,
    List.filter_eq_self.2, List.filter_eq_nil_iff.2, List.append_nil]
  · intro word hword hzero
    obtain ⟨level, hlevel, hword⟩ := List.mem_flatMap.1 hword
    obtain ⟨l, hl, rfl⟩ := List.mem_map.1 hlevel
    have := List.mem_range.1 hl
    rw [wordLevel_of_mem_bootLevel (by omega) hword] at hzero
    simp at hzero
  · intro word hword
    rw [wordLevel_of_mem_bootLevel (by decide) hword]
    rfl

/-- **`boot.S` names every line of the level 1 cache once, index by index, whatever its geometry
and whatever the levels above.** -/
theorem decode_bootWords {csid clidr : UInt32} {ccsidr : ℕ → UInt32} (hg : (geometry csid).Fits)
    (hclidr : HasL1 clidr) (hccsidr : ccsidr 0 = csid) :
    ((bootWords clidr ccsidr).filter fun word => wordLevel word = 0).map (geometry csid).decode
      = (List.range (geometry csid).sets).reverse.flatMap fun i =>
          (List.range (geometry csid).ways).reverse.map fun w => (w, i) := by
  have hdata := hclidr.data
  have hlevel : bootLevel clidr ccsidr 0
      = bootSets 0 ((geometry csid).ways - 1) (geometry csid).lineBits
          ((geometry csid).sets - 1) := by
    have hr4 : 0x3ff &&& csid.toNat >>> 3 = csid.toNat / 8 % 1024 := by
      rw [Nat.and_comm, Nat.shiftRight_eq_div_pow]
      exact Nat.and_two_pow_sub_one_eq_mod _ 10
    have hr7 : 0x7fff &&& csid.toNat >>> 13 = csid.toNat / 8192 % 32768 := by
      rw [Nat.and_comm, Nat.shiftRight_eq_div_pow]
      exact Nat.and_two_pow_sub_one_eq_mod _ 15
    have hr2 : csid.toNat &&& 7 = csid.toNat % 8 := Nat.and_two_pow_sub_one_eq_mod _ 3
    show (if clidr.toNat >>> 0 &&& 7 < 2 then [] else bootSets 0 (0x3ff &&& (ccsidr 0).toNat >>> 3)
      (((ccsidr 0).toNat &&& 7) + 4) (0x7fff &&& (ccsidr 0).toNat >>> 13)) = _
    rw [Nat.shiftRight_zero, if_neg (by omega), hccsidr, hr4, hr7, hr2]
    rfl
  have hways : (geometry csid).ways - 1 + 1 = (geometry csid).ways := rfl
  have hsets : (geometry csid).sets - 1 + 1 = (geometry csid).sets := rfl
  have hline : 4 ≤ (geometry csid).lineBits := Nat.le_add_left 4 _
  rw [filter_bootWords hclidr, hlevel, bootSets_eq, List.map_flatMap, hsets,
    clz_eq (geometry csid) _ hways.symm]
  refine List.flatMap_congr fun i hi => ?_
  rw [bootWays_eq, List.map_map, hways]
  refine List.map_congr_left fun w hw => ?_
  rw [List.mem_reverse, List.mem_range] at hi hw
  have hw' := Geometry.lt_pow_wayBits hw
  have hi' := Geometry.lt_pow_setBits hi
  have hfits := hg
  unfold Geometry.Fits at hfits
  have hzero : 0 < 2 ^ (geometry csid).lineBits := Nat.two_pow_pos _
  have hk : (geometry csid).lineBits + (geometry csid).setBits ≤ 32 - (geometry csid).wayBits := by
    omega
  refine Geometry.decode_packed hg (r := 0) hi hzero ?_
  show (UInt32.ofNat (0 ||| lsl w _ ||| lsl i _)).toNat = _
  rw [lsl_eq hw' (by omega), lsl_eq hi' (by omega), packed_eq hzero hi' hk]
  refine UInt32.toNat_ofNat_of_lt ?_
  calc _ < 2 ^ (32 - (geometry csid).wayBits + (geometry csid).wayBits) :=
        packed_lt hzero hi' hk hw'
    _ = 2 ^ 32 := by rw [Nat.sub_add_cancel (by omega)]

/-! ### Flush and invalidation of the whole cache -/

section Whole

variable {g : Geometry} {words : List UInt32}

/-- The words name every line. -/
def Covers (g : Geometry) (words : List UInt32) : Prop := ∀ k : Slot g, k.val ∈ words.map g.decode

theorem Covers.any_atWord (h : Covers g words) :
    (fun b (e : Entry (Slot g) UInt32 UInt8) => (words.map (atWord g)).any fun p => p b e)
      = fun _ _ => true := by
  funext b e
  obtain ⟨word, hword, hdecode⟩ := List.mem_map.1 (h e.slot)
  exact List.any_eq_true.2 ⟨atWord g word, List.mem_map.2 ⟨word, hword, rfl⟩,
    decide_eq_true hdecode.symm⟩

theorem Covers.flushAll (h : Covers g words) (s : L1 g) :
    s.flushAll lineOf (words.map (atWord g)) = s.flushWhere lineOf fun _ _ => true := by
  rw [Cached.flushAll_eq, h.any_atWord]

theorem Covers.dropAll (h : Covers g words) (s : L1 g) :
    s.dropAll (words.map (atWord g)) = s.dropWhere fun _ _ => true := by
  rw [Cached.dropAll_eq, h.any_atWord]

end Whole

theorem covers_setWayWords {csid : UInt32} (h : CortexA9 csid) :
    Covers (geometry csid) (setWayWords csid) := by
  intro ⟨⟨w, i⟩, hw, hi⟩
  rw [decode_setWayWords h]
  exact List.mem_flatMap.2 ⟨w, List.mem_range.2 (h.ways ▸ hw),
    List.mem_map.2 ⟨i, List.mem_range.2 hi, rfl⟩⟩

theorem covers_bootWords {csid clidr : UInt32} {ccsidr : ℕ → UInt32} (hg : (geometry csid).Fits)
    (hclidr : HasL1 clidr) (hccsidr : ccsidr 0 = csid) :
    Covers (geometry csid) ((bootWords clidr ccsidr).filter fun word => wordLevel word = 0) := by
  intro ⟨⟨w, i⟩, hw, hi⟩
  rw [decode_bootWords hg hclidr hccsidr]
  exact List.mem_flatMap.2 ⟨i, List.mem_reverse.2 (List.mem_range.2 hi),
    List.mem_map.2 ⟨w, List.mem_reverse.2 (List.mem_range.2 hw), rfl⟩⟩

theorem xilL1DCacheFlush_eq {csid : UInt32} (h : CortexA9 csid) (s : L1 (geometry csid)) :
    xilL1DCacheFlush s = s.flushWhere lineOf fun _ _ => true :=
  (covers_setWayWords h).flushAll s

theorem free_dropAll {g : Geometry} (s : L1 g) (b : ℕ) :
    (s.dropWhere fun _ _ => true).Free b := by
  cases he : s.held b with
  | none => exact Cached.free_dropWhere_of_free he
  | some e => exact Cached.free_dropWhere_of_pos he rfl

/-- **After `Xil_L1DCacheFlush` nothing is held, the dirty lines and only they were written back,
and where the clean lines agreed with the memory it now has what the processor read.** -/
theorem l1DCacheFlush_spec {csid : UInt32} (h : CortexA9 csid) (s : L1 (geometry csid)) :
    (∀ b, (xilL1DCacheFlush s).Free b) ∧
    (∀ a e, s.held (lineOf a) = some e →
      (xilL1DCacheFlush s).memory a = if e.dirty then e.data a else s.memory a) ∧
    (∀ a, s.Free (lineOf a) → (xilL1DCacheFlush s).memory a = s.memory a) ∧
    (s.Coherent lineOf → (xilL1DCacheFlush s).memory = s.view lineOf) := by
  rw [xilL1DCacheFlush_eq h]
  refine ⟨free_dropAll s, fun a e he => ?_, fun a hfree => ?_, fun hcoherent => funext fun a => ?_⟩
  · rw [Cached.memory_flushWhere, Cached.memory_cleanWhere_of_held he, Bool.and_true]
  · rw [Cached.memory_flushWhere, Cached.memory_cleanWhere_of_free hfree]
  · exact (hcoherent a).memory_of_flush fun _ _ => rfl

/-- The size register of the 32 KB data cache of the Zynq-7000. -/
def zynqCsid : UInt32 := 0x701FE019

theorem cortexA9_zynqCsid : CortexA9 zynqCsid where
  ways := by decide
  lineBits := by decide
  sets := by decide

/-- One written line, in way 3 of set 255. -/
def oneDirtyLine : L1 (geometry zynqCsid) where
  memory := fun _ => 0
  held := fun b => if b = 255 then some ⟨⟨(3, 255), by decide⟩, true, fun _ => 0x55⟩ else none

theorem l1DCacheFlush_spec_oneDirtyLine :
    (∀ b, (xilL1DCacheFlush oneDirtyLine).Free b) ∧
      (xilL1DCacheFlush oneDirtyLine).memory 0x1FE0 = 0x55 := by
  obtain ⟨hfree, hheld, -, -⟩ := l1DCacheFlush_spec cortexA9_zynqCsid oneDirtyLine
  exact ⟨hfree, hheld 0x1FE0 _ rfl⟩

end Tet4120

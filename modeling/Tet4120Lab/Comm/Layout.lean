import Tet4120Lab.Lib.LittleEndian
import Tet4120Lab.Comm.Cells

/-!
# The object in the memory of the processors

The section `.comm_interface` places `g_commHandler` at `0xFFFF0000`; its members follow each other in
the order of their declaration, lowest byte first.

* `Cell.offset`, `Cell.width`, `Cell.addresses`: the bytes of each cell;
* `Cell.aligned`: every cell is aligned to its width, so its bytes are transferred together;
  `Cell.separate`: no two cells share a byte; `inObject_of_mem`: all lie in the object;
* `objectAt m`: the object that the bytes of the memory `m` make up;
* `objectAt_put`: storing the bytes of one cell stores that cell, and nothing else;
* `inputByte_objectAt`: the bytes of a packet are those at the pointer to it.
-/

namespace Tet4120

open LittleEndian

/-! ### Offsets -/

/-- The offset in `ControlHeader`. -/
def HeaderWord.offset : HeaderWord → ℕ
  | .inputReadIndex => 0
  | .outputWriteIndex => 4
  | .inputWriteIndex => 8
  | .outputReadIndex => 12

/-- The offset in `Packet`. -/
def SlotCell.offset : SlotCell → ℕ
  | .address => 0
  | .port => 4
  | .dataLen => 6
  | .byte k => 8 + k

def SlotCell.width : SlotCell → ℕ
  | .address => 4
  | .port => 2
  | .dataLen => 2
  | .byte _ => 1

/-- The offset in `CommunicationHandler`. -/
def Cell.offset : Cell → ℕ
  | .control w => w.offset
  | .input i f => sizeofControlHeader + i * sizeofPacket + f.offset
  | .output i f => sizeofControlHeader + (numReceiveBuffers + i) * sizeofPacket + f.offset

def Cell.width : Cell → ℕ
  | .control _ => 4
  | .input _ f => f.width
  | .output _ f => f.width

/-- The addresses of the bytes, the lowest byte first. -/
def Cell.addresses (x : Cell) : List UInt32 :=
  (List.range x.width).map fun k => UInt32.ofNat (commInterfaceOrigin + x.offset + k)

/-- The addresses of the object. -/
def InObject (a : UInt32) : Prop :=
  commInterfaceOrigin ≤ a.toNat ∧ a.toNat < commInterfaceOrigin + sizeofCommunicationHandler

instance (a : UInt32) : Decidable (InObject a) := inferInstanceAs (Decidable (_ ∧ _))

/-- The pointer that Wtcp is handed points at the first byte. -/
theorem dataAddress_eq (i : Fin numReceiveBuffers) (k : Fin bufferSize) :
    dataAddress i + k = commInterfaceOrigin + (Cell.input i (.byte k)).offset := by
  simp only [dataAddress, Cell.offset, SlotCell.offset]
  omega

theorem HeaderWord.offset_lt (w : HeaderWord) : w.offset + 4 ≤ sizeofControlHeader := by
  cases w <;> decide

theorem SlotCell.offset_lt (f : SlotCell) : f.offset + f.width ≤ sizeofPacket := by
  cases f with
  | byte k =>
    have := k.isLt
    simp only [offset, width, sizeofPacket]
    omega
  | _ => simp only [offset, width, sizeofPacket]; omega

theorem SlotCell.separate {f f' : SlotCell} (h : f ≠ f') :
    f.offset + f.width ≤ f'.offset ∨ f'.offset + f'.width ≤ f.offset := by
  cases f with
  | byte k =>
    cases f' with
    | byte k' =>
      have hne : k.val ≠ k'.val := fun hk => h (congrArg SlotCell.byte (Fin.ext hk))
      simp only [offset, width]
      omega
    | _ => simp only [offset, width]; omega
  | _ => cases f' <;> first | exact absurd rfl h | (simp only [offset, width]; omega)

/-- Two cells of slots number `i` and `j` of a row of slots. -/
theorem slots_separate {i j : ℕ} {f f' : SlotCell} (h : i = j → f ≠ f') :
    i * sizeofPacket + f.offset + f.width ≤ j * sizeofPacket + f'.offset ∨
      j * sizeofPacket + f'.offset + f'.width ≤ i * sizeofPacket + f.offset := by
  have hf := f.offset_lt
  have hf' := f'.offset_lt
  rcases Nat.lt_trichotomy i j with hij | rfl | hij
  · have := Nat.mul_le_mul_right sizeofPacket hij
    rw [Nat.succ_mul] at this
    omega
  · have := SlotCell.separate (h rfl)
    omega
  · have := Nat.mul_le_mul_right sizeofPacket hij
    rw [Nat.succ_mul] at this
    omega

/-- **No two cells share a byte.** -/
theorem Cell.separate {x y : Cell} (h : x ≠ y) :
    x.offset + x.width ≤ y.offset ∨ y.offset + y.width ≤ x.offset := by
  have hpos : ∀ (i : ℕ) (f : SlotCell) (w : HeaderWord),
      w.offset + 4 ≤ sizeofControlHeader + i * sizeofPacket + f.offset := by
    intro i f w
    have := w.offset_lt
    omega
  have hring : ∀ (i j : ℕ) (f f' : SlotCell), (i = j → f ≠ f') →
      sizeofControlHeader + i * sizeofPacket + f.offset + f.width
        ≤ sizeofControlHeader + j * sizeofPacket + f'.offset ∨
      sizeofControlHeader + j * sizeofPacket + f'.offset + f'.width
        ≤ sizeofControlHeader + i * sizeofPacket + f.offset := by
    intro i j f f' hne
    have := slots_separate hne
    omega
  cases x with
  | control w =>
    cases y with
    | control w' =>
      cases w <;> cases w' <;>
        first | exact absurd rfl h | exact Or.inl (by decide) | exact Or.inr (by decide)
    | input j f' => exact Or.inl (hpos j f' w)
    | output j f' => exact Or.inl (hpos _ f' w)
  | input i f =>
    have hi := i.isLt
    cases y with
    | control w' => exact Or.inr (hpos i f w')
    | input j f' => exact hring i j f f' fun hij hf => h (by rw [Fin.ext hij, hf])
    | output j f' => exact hring i _ f f' fun hij => by omega
  | output i f =>
    cases y with
    | control w' => exact Or.inr (hpos _ f w')
    | input j f' =>
      have hj := j.isLt
      exact hring _ j f f' fun hij => by omega
    | output j f' =>
      exact hring _ _ f f' fun hij hf => h (by rw [Fin.ext (Nat.add_left_cancel hij), hf])

theorem Cell.offset_add_width_le (x : Cell) : x.offset + x.width ≤ sizeofCommunicationHandler := by
  have hring : ∀ (i : ℕ) (f : SlotCell), i < 2 * numReceiveBuffers →
      sizeofControlHeader + i * sizeofPacket + f.offset + f.width ≤ sizeofCommunicationHandler := by
    intro i f hi
    have hf := f.offset_lt
    have hmul := Nat.mul_le_mul_right sizeofPacket hi
    rw [Nat.succ_mul] at hmul
    unfold sizeofCommunicationHandler
    omega
  cases x with
  | control w => cases w <;> decide
  | input i f => exact hring i f (by have := i.isLt; omega)
  | output i f => exact hring _ f (by have := i.isLt; omega)

/-- **Every cell is aligned to its width.** -/
theorem Cell.aligned (x : Cell) : x.width ∣ commInterfaceOrigin + x.offset := by
  have hslot : ∀ (i : ℕ) (f : SlotCell),
      f.width ∣ commInterfaceOrigin + (sizeofControlHeader + i * sizeofPacket + f.offset) := by
    intro i f
    cases f with
    | byte k => exact one_dvd _
    | _ =>
      simp only [SlotCell.width, SlotCell.offset, commInterfaceOrigin, sizeofControlHeader,
        sizeofPacket, bufferSize]
      omega
  cases x with
  | control w => cases w <;> decide
  | input i f => exact hslot i f
  | output i f => exact hslot _ f

/-! ### Addresses -/

theorem toNat_address {n : ℕ} (h : n < sizeofCommunicationHandler) :
    (UInt32.ofNat (commInterfaceOrigin + n)).toNat = commInterfaceOrigin + n := by
  have hlt : commInterfaceOrigin + sizeofCommunicationHandler < 2 ^ 32 := by decide
  rw [UInt32.toNat_ofNat', Nat.mod_eq_of_lt (by omega)]

theorem toNat_of_mem_addresses {x : Cell} {a : UInt32} (h : a ∈ x.addresses) :
    ∃ k < x.width, a.toNat = commInterfaceOrigin + x.offset + k := by
  obtain ⟨k, hk, rfl⟩ := List.mem_map.1 h
  have hlt := List.mem_range.1 hk
  have hle := x.offset_add_width_le
  refine ⟨k, hlt, ?_⟩
  rw [Nat.add_assoc, toNat_address (by omega)]

theorem inObject_of_mem {x : Cell} {a : UInt32} (h : a ∈ x.addresses) : InObject a := by
  obtain ⟨k, hk, ha⟩ := toNat_of_mem_addresses h
  have hle := x.offset_add_width_le
  unfold InObject
  omega

theorem addresses_disjoint {x y : Cell} (h : x ≠ y) : ∀ a ∈ x.addresses, ∀ b ∈ y.addresses, a ≠ b := by
  rintro a ha b hb rfl
  obtain ⟨k, hk, hka⟩ := toNat_of_mem_addresses ha
  obtain ⟨k', hk', hka'⟩ := toNat_of_mem_addresses hb
  have := Cell.separate h
  omega

theorem nodup_addresses (x : Cell) : x.addresses.Nodup := by
  refine List.Nodup.map_on (fun k hk k' hk' heq => ?_) List.nodup_range
  have hle := x.offset_add_width_le
  have hlt := List.mem_range.1 hk
  have hlt' := List.mem_range.1 hk'
  have hval := congrArg UInt32.toNat heq
  rw [Nat.add_assoc, Nat.add_assoc, toNat_address (by omega), toNat_address (by omega)] at hval
  omega

/-! ### Values -/

def SlotCell.toNat : (f : SlotCell) → f.Value → ℕ
  | .address, v => UInt32.toNat v
  | .port, v => UInt16.toNat v
  | .dataLen, v => UInt16.toNat v
  | .byte _, v => UInt8.toNat v

def SlotCell.ofNat : (f : SlotCell) → ℕ → f.Value
  | .address, n => UInt32.ofNat n
  | .port, n => UInt16.ofNat n
  | .dataLen, n => UInt16.ofNat n
  | .byte _, n => UInt8.ofNat n

def Cell.toNat : (x : Cell) → x.Value → ℕ
  | .control _, v => UInt32.toNat v
  | .input _ f, v => f.toNat v
  | .output _ f, v => f.toNat v

def Cell.ofNat : (x : Cell) → ℕ → x.Value
  | .control _, n => UInt32.ofNat n
  | .input _ f, n => f.ofNat n
  | .output _ f, n => f.ofNat n

theorem SlotCell.toNat_lt (f : SlotCell) (v : f.Value) : f.toNat v < 256 ^ f.width := by
  cases f with
  | address => exact UInt32.toNat_lt v
  | port => exact UInt16.toNat_lt v
  | dataLen => exact UInt16.toNat_lt v
  | byte k => exact UInt8.toNat_lt v

theorem SlotCell.ofNat_toNat (f : SlotCell) (v : f.Value) : f.ofNat (f.toNat v) = v := by
  cases f with
  | address => exact UInt32.ofNat_toNat
  | port => exact UInt16.ofNat_toNat
  | dataLen => exact UInt16.ofNat_toNat
  | byte k => exact UInt8.ofNat_toNat

/-- The bytes of a cell have room for its values. -/
theorem Cell.toNat_lt (x : Cell) (v : x.Value) : x.toNat v < 256 ^ x.width := by
  cases x with
  | control w => exact UInt32.toNat_lt v
  | input i f => exact f.toNat_lt v
  | output i f => exact f.toNat_lt v

theorem Cell.ofNat_toNat (x : Cell) (v : x.Value) : x.ofNat (x.toNat v) = v := by
  cases x with
  | control w => exact UInt32.ofNat_toNat
  | input i f => exact f.ofNat_toNat v
  | output i f => exact f.ofNat_toNat v

/-! ### The object -/

/-- The value of the bytes of a cell. -/
def Cell.load (x : Cell) (m : UInt32 → UInt8) : x.Value := x.ofNat (ofBytes (x.addresses.map m))

/-- The stores of the bytes of a cell. -/
def Cell.stores (x : Cell) (v : x.Value) : List (UInt32 × UInt8) :=
  x.addresses.zip (toBytes x.width (x.toNat v))

/-- The object in the memory. -/
def objectAt (m : UInt32 → UInt8) : CommunicationHandler := .ofCells fun x => x.load m

/-- **Storing the bytes of a cell stores that cell and nothing else.** -/
theorem objectAt_put (m : UInt32 → UInt8) (x : Cell) (v : x.Value) :
    objectAt (put m (x.stores v)) = (objectAt m).set x v := by
  apply handlerCells_lawful.ext
  intro y
  show (objectAt _).get y = ((objectAt m).set x v).get y
  rw [objectAt, CommunicationHandler.get_ofCells]
  by_cases hxy : y = x
  · subst hxy
    have hget : ((objectAt m).set y v).get y = v := handlerCells_lawful.get_set_self _ y v
    rw [hget, Cell.load, Cell.stores, map_put_self (nodup_addresses y) (by simp [Cell.addresses]),
      ofBytes_toBytes, Nat.mod_eq_of_lt (y.toNat_lt v), Cell.ofNat_toNat]
  · have hget : ((objectAt m).set x v).get y = (objectAt m).get y :=
      handlerCells_lawful.get_set_of_ne hxy
    rw [hget, Cell.load, Cell.stores, map_put_of_disjoint _ (addresses_disjoint (Ne.symm hxy)), objectAt,
      CommunicationHandler.get_ofCells, Cell.load]

/-- Through the pointer it is handed Wtcp reads the byte that the memory has there. -/
theorem inputByte_objectAt (m : UInt32 → UInt8) (i : Fin numReceiveBuffers) (k : Fin bufferSize) :
    (objectAt m).inputByte (dataAddress i + k) = some (m (UInt32.ofNat (dataAddress i + k))) := by
  have hget : ((objectAt m).input i).data k = (Cell.input i (.byte k)).load m :=
    CommunicationHandler.get_ofCells (fun x => x.load m) (.input i (.byte k))
  have haddresses : (Cell.input i (.byte k)).addresses = [UInt32.ofNat (dataAddress i + k)] := by
    rw [dataAddress_eq]
    rfl
  have hbyte (b : UInt8) : UInt8.ofNat (ofBytes [b]) = b := by
    rw [ofBytes, List.map_singleton, Nat.ofDigits_singleton, UInt8.ofNat_toNat]
  rw [inputByte_dataAddress, hget, Cell.load, haddresses, List.map_singleton]
  exact congrArg some (hbyte _)

/-- A memory that differs elsewhere holds the same object. -/
theorem objectAt_congr {m m' : UInt32 → UInt8} (h : ∀ a, InObject a → m' a = m a) :
    objectAt m' = objectAt m := by
  apply handlerCells_lawful.ext
  intro x
  show (objectAt m').get x = (objectAt m).get x
  simp only [objectAt, CommunicationHandler.get_ofCells, Cell.load]
  rw [List.map_congr_left fun a ha => h a (inObject_of_mem ha)]

end Tet4120

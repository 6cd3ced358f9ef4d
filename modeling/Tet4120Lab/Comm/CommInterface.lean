import Tet4120Lab.Lib.RingWindow
import Mathlib.Data.UInt

/-!
# CommInterface.hpp: the memory shared by Linux (CPU0) and the application (CPU1)

The header `ControlHeader`, the slots `Packet` and the object `CommunicationHandler` that the
section `.comm_interface` places at `0xFFFF0000`.

* `ControlHeader.isEmpty`, `getReadIndex`, `getWriteIndex` and the constructor, which stores `0`
  in the four index words in declaration order (`constructorWords`);
* `CommunicationHandler.receive`: the slot at the clamped read index;
* the layout: `dataAddress i` is the address of `m_input[i].m_data`, and `inputByte` reads the
  input ring byte by byte through such addresses;
* `CommLibrary`: the members that only the prebuilt archive defines, with what the application
  relies on (`CommLibrary.Documented`) and the code of that archive (`CommLibrary.prebuilt`).

`m_nReserved` counts in the layout only, and `GetRxPacket` has no caller; both are left out.
-/

namespace Tet4120

/-- `NUM_RECEIVE_BUFFERS`. -/
abbrev numReceiveBuffers : ℕ := 3

/-- The size `0x2000` of `Packet::m_data`. -/
def bufferSize : ℕ := 0x2000

/-! ### ControlHeader -/

/-- The index words of `ControlHeader`: the first two are written by CPU1 only, the last two by
Linux only, as their comments in the source say. -/
structure ControlHeader where
  nInputReadIndex : UInt32
  nOutputWriteIndex : UInt32
  nInputWriteIndex : UInt32
  nOutputReadIndex : UInt32
  deriving DecidableEq

/-- The names of the index words, in declaration order. -/
inductive HeaderWord
  | inputReadIndex
  | outputWriteIndex
  | inputWriteIndex
  | outputReadIndex
  deriving DecidableEq

namespace ControlHeader

/-- Store `v` in one index word. -/
def set (h : ControlHeader) : HeaderWord → UInt32 → ControlHeader
  | .inputReadIndex, v => { h with nInputReadIndex := v }
  | .outputWriteIndex, v => { h with nOutputWriteIndex := v }
  | .inputWriteIndex, v => { h with nInputWriteIndex := v }
  | .outputReadIndex, v => { h with nOutputReadIndex := v }

/-- Load one index word. -/
def get (h : ControlHeader) : HeaderWord → UInt32
  | .inputReadIndex => h.nInputReadIndex
  | .outputWriteIndex => h.nOutputWriteIndex
  | .inputWriteIndex => h.nInputWriteIndex
  | .outputReadIndex => h.nOutputReadIndex

theorem get_set_self (h : ControlHeader) (w : HeaderWord) (v : UInt32) : (h.set w v).get w = v := by
  cases w <;> rfl

theorem get_set_of_ne (h : ControlHeader) {w w' : HeaderWord} (hw : w' ≠ w) (v : UInt32) :
    (h.set w v).get w' = h.get w' := by
  cases w <;> cases w' <;> first | rfl | exact absurd rfl hw

/-- The words `ControlHeader()` sets to `0`, in the order of its stores. -/
def constructorWords : List HeaderWord :=
  [.inputReadIndex, .outputWriteIndex, .inputWriteIndex, .outputReadIndex]

/-- `ControlHeader()`. -/
def construct (h : ControlHeader) : ControlHeader :=
  constructorWords.foldl (fun h w => h.set w 0) h

@[simp] theorem construct_eq (h : ControlHeader) : h.construct = ⟨0, 0, 0, 0⟩ := rfl

/-- `IsEmpty()`. -/
def isEmpty (h : ControlHeader) : Bool := h.nInputReadIndex == h.nInputWriteIndex

/-- `GetReadIndex()`. -/
def getReadIndex (h : ControlHeader) : UInt32 :=
  if h.nInputReadIndex.toNat < numReceiveBuffers then h.nInputReadIndex else 0

/-- `GetWriteIndex()`. -/
def getWriteIndex (h : ControlHeader) : UInt32 :=
  if h.nOutputWriteIndex.toNat < numReceiveBuffers then h.nOutputWriteIndex else 0

theorem isEmpty_iff (h : ControlHeader) :
    h.isEmpty = true ↔ h.nInputReadIndex.toNat = h.nInputWriteIndex.toNat := by
  rw [isEmpty, beq_iff_eq, ← UInt32.toNat_inj]

/-- A clamped index is a slot number. -/
theorem clamp_lt (i : UInt32) :
    (if i.toNat < numReceiveBuffers then i else 0).toNat < numReceiveBuffers := by
  split_ifs with hlt
  · exact hlt
  · decide

theorem getReadIndex_lt (h : ControlHeader) : h.getReadIndex.toNat < numReceiveBuffers :=
  clamp_lt h.nInputReadIndex

theorem getWriteIndex_lt (h : ControlHeader) : h.getWriteIndex.toNat < numReceiveBuffers :=
  clamp_lt h.nOutputWriteIndex

theorem getReadIndex_of_lt {h : ControlHeader} (hlt : h.nInputReadIndex.toNat < numReceiveBuffers) :
    h.getReadIndex = h.nInputReadIndex := if_pos hlt

/-- The slot number `GetReadIndex()` gives. -/
def readSlot (h : ControlHeader) : Fin numReceiveBuffers := ⟨h.getReadIndex.toNat, h.getReadIndex_lt⟩

/-- The slot number `GetWriteIndex()` gives. -/
def writeSlot (h : ControlHeader) : Fin numReceiveBuffers :=
  ⟨h.getWriteIndex.toNat, h.getWriteIndex_lt⟩

end ControlHeader

/-! ### Packet and CommunicationHandler -/

/-- One slot of a ring: `m_address`, `m_port`, `m_data_len`, `m_data`. -/
structure Packet where
  address : UInt32
  port : UInt16
  dataLen : UInt16
  data : Fin bufferSize → UInt8

/-- `CommunicationHandler`: the header, the ring from Linux and the ring to Linux. -/
structure CommunicationHandler where
  control : ControlHeader
  input : Fin numReceiveBuffers → Packet
  output : Fin numReceiveBuffers → Packet

/-- `CommunicationHandler::Receive()`. -/
def CommunicationHandler.receive (c : CommunicationHandler) : Packet := c.input c.control.readSlot

/-! ### Layout -/

/-- `ORIGIN` of the region `COMM_INTERFACE` of the linker script. -/
def commInterfaceOrigin : ℕ := 0xFFFF0000

/-- `LENGTH` of the region `COMM_INTERFACE`. -/
def commInterfaceLength : ℕ := 0xFE00

/-- Four index words and four reserved words. -/
def sizeofControlHeader : ℕ := 32

/-- `m_address`, `m_port` and `m_data_len` take 8 bytes, `m_data` follows. -/
def sizeofPacket : ℕ := 8 + bufferSize

def sizeofCommunicationHandler : ℕ := sizeofControlHeader + 2 * numReceiveBuffers * sizeofPacket

/-- The address of `m_input[i].m_data`. -/
def dataAddress (i : Fin numReceiveBuffers) : ℕ :=
  commInterfaceOrigin + sizeofControlHeader + i * sizeofPacket + 8

/-- The object fits in its region. -/
theorem sizeofCommunicationHandler_le : sizeofCommunicationHandler ≤ commInterfaceLength := by decide

/-- The byte at address `a`, when `a` lies in the `m_data` of an input slot. -/
def CommunicationHandler.inputByte (c : CommunicationHandler) (a : ℕ) : Option UInt8 :=
  let off := a - (commInterfaceOrigin + sizeofControlHeader)
  if hslot : off / sizeofPacket < numReceiveBuffers then
    if hdata : off % sizeofPacket - 8 < bufferSize then
      if commInterfaceOrigin + sizeofControlHeader ≤ a ∧ 8 ≤ off % sizeofPacket then
        some ((c.input ⟨off / sizeofPacket, hslot⟩).data ⟨off % sizeofPacket - 8, hdata⟩)
      else none
    else none
  else none

theorem inputByte_dataAddress (c : CommunicationHandler) (i : Fin numReceiveBuffers)
    (k : Fin bufferSize) : c.inputByte (dataAddress i + k) = some ((c.input i).data k) := by
  obtain ⟨i, hi⟩ := i
  obtain ⟨k, hk⟩ := k
  have hoff : dataAddress ⟨i, hi⟩ + k - (commInterfaceOrigin + sizeofControlHeader)
      = (8 + k) + sizeofPacket * i := by
    simp only [dataAddress]; rw [Nat.mul_comm i]; omega
  have hlt : 8 + k < sizeofPacket := by unfold sizeofPacket; omega
  have hdiv : ((8 + k) + sizeofPacket * i) / sizeofPacket = i := by
    rw [Nat.add_mul_div_left _ _ (by decide), Nat.div_eq_of_lt hlt, Nat.zero_add]
  have hmod : ((8 + k) + sizeofPacket * i) % sizeofPacket = 8 + k := by
    rw [Nat.add_mul_mod_self_left, Nat.mod_eq_of_lt hlt]
  have hbase : commInterfaceOrigin + sizeofControlHeader ≤ dataAddress ⟨i, hi⟩ + k := by
    simp only [dataAddress]; omega
  simp only [CommunicationHandler.inputByte, hoff, hdiv, hmod, hbase, hi, hk, dif_pos,
    Nat.add_sub_cancel_left, Nat.le_add_right, and_self, if_true]

/-! ### The prebuilt library -/

/-- The members declared in `CommInterface.hpp` and defined in the prebuilt archive. -/
structure CommLibrary where
  /-- `ControlHeader::IncrementInputReadIndex()` -/
  incrementInputReadIndex : ControlHeader → ControlHeader
  /-- `CommunicationHandler::AddPacket(address, port, data_len, data)` -/
  addPacket : CommunicationHandler → UInt32 → UInt16 → UInt16 → (ℕ → UInt8) → CommunicationHandler

/-- What the application relies on: `IncrementInputReadIndex` advances its own index modulo
`NUM_RECEIVE_BUFFERS`, and neither member writes a word of Linux or an input slot. -/
structure CommLibrary.Documented (lib : CommLibrary) : Prop where
  increment_index : ∀ h : ControlHeader, h.nInputReadIndex.toNat < numReceiveBuffers →
    (lib.incrementInputReadIndex h).nInputReadIndex.toNat
      = (h.nInputReadIndex.toNat + 1) % numReceiveBuffers
  increment_frame : ∀ h : ControlHeader,
    (lib.incrementInputReadIndex h).nOutputWriteIndex = h.nOutputWriteIndex ∧
    (lib.incrementInputReadIndex h).nInputWriteIndex = h.nInputWriteIndex ∧
    (lib.incrementInputReadIndex h).nOutputReadIndex = h.nOutputReadIndex
  addPacket_frame : ∀ (c : CommunicationHandler) (address : UInt32) (port len : UInt16)
    (data : ℕ → UInt8),
    (lib.addPacket c address port len data).input = c.input ∧
    (lib.addPacket c address port len data).control.nInputReadIndex = c.control.nInputReadIndex ∧
    (lib.addPacket c address port len data).control.nInputWriteIndex = c.control.nInputWriteIndex ∧
    (lib.addPacket c address port len data).control.nOutputReadIndex = c.control.nOutputReadIndex

namespace CommLibrary

/-- The index update of the archive: `i + 1` in 32 bits, back to `0` from `2` on. -/
def advance (i : UInt32) : UInt32 := if 2 < i + 1 then 0 else i + 1

/-- The two members as the archive's object file computes them. -/
def prebuilt : CommLibrary where
  incrementInputReadIndex h := { h with nInputReadIndex := advance h.nInputReadIndex }
  addPacket c address port len data :=
    { c with
      output := Function.update c.output c.control.writeSlot
        { address := address
          port := port
          dataLen := len
          data := fun k => if k.val < len.toNat then data k else (c.output c.control.writeSlot).data k }
      control := { c.control with nOutputWriteIndex := advance c.control.nOutputWriteIndex } }

theorem advance_toNat {i : UInt32} (hi : i.toNat < numReceiveBuffers) :
    (advance i).toNat = (i.toNat + 1) % numReceiveBuffers := by
  have hsucc : (i + 1).toNat = i.toNat + 1 := by
    rw [UInt32.toNat_add, UInt32.toNat_one, Nat.mod_eq_of_lt (by unfold numReceiveBuffers at hi; omega)]
  unfold advance
  split_ifs with h
  · have h2 : 2 < i.toNat + 1 := by rw [← hsucc]; exact UInt32.lt_iff_toNat_lt.1 h
    rw [show i.toNat + 1 = 3 by unfold numReceiveBuffers at hi; omega]
    rfl
  · have h2 : ¬ 2 < i.toNat + 1 := by
      rw [← hsucc]; exact fun h' => h (UInt32.lt_iff_toNat_lt.2 h')
    rw [hsucc, Nat.mod_eq_of_lt (by unfold numReceiveBuffers; omega)]

/-- The archive keeps what the application relies on. -/
theorem prebuilt_documented : prebuilt.Documented where
  increment_index _ hlt := advance_toNat hlt
  increment_frame _ := ⟨rfl, rfl, rfl⟩
  addPacket_frame _ _ _ _ _ := ⟨rfl, rfl, rfl, rfl⟩

end CommLibrary

end Tet4120

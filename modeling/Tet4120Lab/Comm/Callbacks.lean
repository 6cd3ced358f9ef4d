import Tet4120Lab.Comm.CommInterface

/-!
# main.cpp: the Wtcp callbacks

`ReceiveWtcpPacket`, `TransmitWtcpPacket` and `ReleaseWtcpPacket` on the globals they work on,
`g_commHandler`, `g_dest` and the register `ICDSGIR`.

The length a call of `ReceiveWtcpPacket` returns is whatever Linux wrote in `m_data_len`.  The
read index is clamped, so pointer, identifier and destination always belong to one slot
(`receiveWtcpPacket_identifier`, `…_ppPacket`, `…_dest`); the length is not, and
`exposesOnlyPacket_iff` says for which lengths the call stays inside the slot.
-/

namespace Tet4120

/-- `MAX_RX_PACKET_LENGTH`, the limit given to `Wtcp::SetBuffers`. -/
def maxRxPacketLength : UInt16 := 0x2000

/-- `DestinationStruct`. -/
structure DestinationStruct where
  address : UInt32
  port : UInt16
  deriving DecidableEq

/-- `GENERATE_SW_IRQ_0`. -/
def generateSwIrq0 : UInt32 := 0x01000000

/-- The globals of the callbacks; `icdsgir` lists the values written to `ICDSGIR`, latest first. -/
structure Globals where
  commHandler : CommunicationHandler
  dest : Fin numReceiveBuffers → DestinationStruct
  icdsgir : List UInt32

/-- The two output parameters `*ppPacket` and `*identifier`. -/
structure ReceiveOut where
  ppPacket : ℕ
  identifier : UInt32

/-- What a call of `ReceiveWtcpPacket` leaves: the returned size, the globals, the outputs. -/
structure ReceiveResult where
  size : UInt16
  globals : Globals
  out : ReceiveOut

/-- `ReceiveWtcpPacket(ppPacket, identifier)`. -/
def receiveWtcpPacket (g : Globals) (out : ReceiveOut) : ReceiveResult :=
  let control := g.commHandler.control
  if control.isEmpty then ⟨0, g, out⟩
  else
    let packet := g.commHandler.receive
    let out' : ReceiveOut := ⟨dataAddress control.readSlot, control.getReadIndex⟩
    -- `g_dest[*identifier]` is set field by field
    let dest₁ := Function.update g.dest control.readSlot
      { g.dest control.readSlot with address := packet.address }
    let dest₂ := Function.update dest₁ control.readSlot
      { dest₁ control.readSlot with port := packet.port }
    ⟨packet.dataLen, { g with dest := dest₂ }, out'⟩

/-- `g_dest[identifier]`; there is no element from `NUM_RECEIVE_BUFFERS` on. -/
def Globals.destination (g : Globals) (identifier : UInt32) : Option DestinationStruct :=
  if h : identifier.toNat < numReceiveBuffers then some (g.dest ⟨identifier.toNat, h⟩) else none

/-- `TransmitWtcpPacket(ppPacket, size, identifier)`; `data` is the memory from `ppPacket` on. -/
def transmitWtcpPacket (lib : CommLibrary) (g : Globals) (data : ℕ → UInt8) (size : UInt16)
    (identifier : UInt32) : Option Globals :=
  (g.destination identifier).map fun dst =>
    { g with
      commHandler := lib.addPacket g.commHandler dst.address dst.port size data
      icdsgir := generateSwIrq0 :: g.icdsgir }

/-- `ReleaseWtcpPacket(uint32_t)`. -/
def releaseWtcpPacket (lib : CommLibrary) (g : Globals) (_identifier : UInt32) : Globals :=
  { g with
    commHandler :=
      { g.commHandler with control := lib.incrementInputReadIndex g.commHandler.control } }

/-! ### ReceiveWtcpPacket -/

section Receive

variable {g : Globals} {out : ReceiveOut}

theorem receiveWtcpPacket_of_isEmpty (h : g.commHandler.control.isEmpty = true) :
    receiveWtcpPacket g out = ⟨0, g, out⟩ := if_pos h

@[simp] theorem receiveWtcpPacket_commHandler :
    (receiveWtcpPacket g out).globals.commHandler = g.commHandler := by
  unfold receiveWtcpPacket; dsimp only; split_ifs <;> rfl

theorem receiveWtcpPacket_size (h : g.commHandler.control.isEmpty = false) :
    (receiveWtcpPacket g out).size = g.commHandler.receive.dataLen := by
  simp [receiveWtcpPacket, h]

theorem receiveWtcpPacket_ppPacket (h : g.commHandler.control.isEmpty = false) :
    (receiveWtcpPacket g out).out.ppPacket = dataAddress g.commHandler.control.readSlot := by
  simp [receiveWtcpPacket, h]

theorem receiveWtcpPacket_identifier (h : g.commHandler.control.isEmpty = false) :
    (receiveWtcpPacket g out).out.identifier.toNat = g.commHandler.control.readSlot := by
  simp [receiveWtcpPacket, h, ControlHeader.readSlot]

theorem receiveWtcpPacket_dest (h : g.commHandler.control.isEmpty = false) :
    (receiveWtcpPacket g out).globals.dest g.commHandler.control.readSlot
      = ⟨g.commHandler.receive.address, g.commHandler.receive.port⟩ := by
  simp [receiveWtcpPacket, h]

/-- The callback answers `0` both for an empty ring and for a packet of length `0`. -/
theorem receiveWtcpPacket_size_eq_zero_iff :
    (receiveWtcpPacket g out).size = 0 ↔
      g.commHandler.control.isEmpty = true ∨ g.commHandler.receive.dataLen = 0 := by
  cases h : g.commHandler.control.isEmpty with
  | true => simp [receiveWtcpPacket_of_isEmpty h]
  | false => simp [receiveWtcpPacket_size h]

end Receive

/-- `g_dest` has an element for an identifier below `NUM_RECEIVE_BUFFERS`. -/
theorem destination_of_toNat_eq {g : Globals} {identifier : UInt32} {i : Fin numReceiveBuffers}
    (h : identifier.toNat = i) : g.destination identifier = some (g.dest i) := by
  unfold Globals.destination
  rw [dif_pos (by rw [h]; exact i.isLt)]
  congr 2
  exact Fin.ext h

/-! ### The bytes a received packet exposes -/

/-- A call that returns a length hands over one slot: the pointer to the start of its `m_data`,
its number, its sender in `g_dest`, and a range inside its `m_data` and inside the region
`COMM_INTERFACE`. -/
def ExposesOnlyPacket (g : Globals) (out : ReceiveOut) : Prop :=
  0 < (receiveWtcpPacket g out).size → ∃ id : Fin numReceiveBuffers,
    (receiveWtcpPacket g out).out.identifier.toNat = id ∧
    (receiveWtcpPacket g out).out.ppPacket = dataAddress id ∧
    (receiveWtcpPacket g out).globals.dest id
      = ⟨(g.commHandler.input id).address, (g.commHandler.input id).port⟩ ∧
    (receiveWtcpPacket g out).size ≤ maxRxPacketLength ∧
    ∀ a, (receiveWtcpPacket g out).out.ppPacket ≤ a →
      a < (receiveWtcpPacket g out).out.ppPacket + (receiveWtcpPacket g out).size.toNat →
      (∃ k : Fin bufferSize, a = dataAddress id + k) ∧
        a < commInterfaceOrigin + commInterfaceLength

/-- Every byte of the `m_data` of an input slot lies in the region `COMM_INTERFACE`. -/
theorem dataAddress_add_lt (i : Fin numReceiveBuffers) (k : Fin bufferSize) :
    dataAddress i + k < commInterfaceOrigin + commInterfaceLength := by
  have hi := i.isLt
  have hk := k.isLt
  unfold numReceiveBuffers at hi
  unfold dataAddress sizeofControlHeader sizeofPacket commInterfaceLength
  unfold bufferSize at hk ⊢
  omega

/-- A range of at most `bufferSize` bytes from the start of `m_data` stays inside it. -/
theorem mem_data_of_lt {i : Fin numReceiveBuffers} {n a : ℕ} (hn : n ≤ bufferSize)
    (hle : dataAddress i ≤ a) (hlt : a < dataAddress i + n) :
    ∃ k : Fin bufferSize, a = dataAddress i + k :=
  ⟨⟨a - dataAddress i, by omega⟩, by simp only; omega⟩

/-- **A received packet stays inside its slot exactly when its length field does.** -/
theorem exposesOnlyPacket_iff (g : Globals) (out : ReceiveOut) :
    ExposesOnlyPacket g out ↔
      g.commHandler.control.isEmpty = true ∨ g.commHandler.receive.dataLen ≤ maxRxPacketLength := by
  cases h : g.commHandler.control.isEmpty with
  | true =>
    simp only [true_or, iff_true]
    intro hpos
    rw [receiveWtcpPacket_of_isEmpty h] at hpos
    exact absurd (show (0 : UInt16) < 0 from hpos) (by decide)
  | false =>
    simp only [Bool.false_eq_true, false_or]
    constructor
    · intro hexp
      by_contra hle
      have hpos : 0 < (receiveWtcpPacket g out).size := by
        rw [receiveWtcpPacket_size h, UInt16.lt_iff_toNat_lt]
        rw [UInt16.le_iff_toNat_le] at hle
        exact Nat.lt_of_le_of_lt (Nat.zero_le _) (Nat.not_le.1 hle)
      obtain ⟨id, -, -, -, hsize, -⟩ := hexp hpos
      rw [receiveWtcpPacket_size h] at hsize
      exact hle hsize
    · intro hle _
      refine ⟨g.commHandler.control.readSlot, receiveWtcpPacket_identifier h,
        receiveWtcpPacket_ppPacket h, receiveWtcpPacket_dest h, ?_, ?_⟩
      · rw [receiveWtcpPacket_size h]; exact hle
      · intro a hge hlt
        rw [receiveWtcpPacket_ppPacket h] at hge hlt
        rw [receiveWtcpPacket_size h] at hlt
        obtain ⟨k, hk⟩ := mem_data_of_lt (UInt16.le_iff_toNat_le.1 hle) hge hlt
        exact ⟨⟨k, hk⟩, hk ▸ dataAddress_add_lt _ k⟩

/-- A ring with one packet, in slot `0`, whose length field says one byte more than the slot has. -/
def oversizedPacket : Globals where
  commHandler :=
    { control := ⟨0, 0, 1, 0⟩
      input := fun _ => ⟨0x0A000001, 5000, 0x2001, fun _ => 0⟩
      output := fun _ => ⟨0, 0, 0, fun _ => 0⟩ }
  dest := fun _ => ⟨0, 0⟩
  icdsgir := []

theorem oversizedPacket_not_exposesOnlyPacket : ¬ ExposesOnlyPacket oversizedPacket ⟨0, 0⟩ := by
  intro h
  obtain ⟨id, -, -, -, hsize, -⟩ := h (by decide)
  exact absurd hsize (by decide)

end Tet4120

import Tet4120Lab.Comm.Cells
import Tet4120Lab.Comm.Callbacks

/-!
# The callbacks access by access

`ReceiveWtcpPacket`, `AddPacket` and `IncrementInputReadIndex` as programs of single accesses to the
shared memory, in the order of the source and, for the members of the prebuilt archive, of its object
file.

* `run_receiveAccesses`, `run_addPacketAccesses`, `run_incrementAccesses`: with nobody else accessing
  the memory they do what the callbacks were said to do;
* `stays_…`: the cells they access; CPU1 stores to its own;
* `storesBefore_addPacketAccesses`: the index word is stored last, after all of the packet;
* `atMost_…`: how many accesses they make, whatever they load.
-/

namespace Tet4120

open Access

/-! ### The programs -/

/-- `m_input[i]`, `m_output[i]` or `g_dest[i]`; there is no element from `NUM_RECEIVE_BUFFERS` on. -/
def element (i : UInt32) : Prog Cell.Value (Fin numReceiveBuffers) :=
  .orFault (if h : i.toNat < numReceiveBuffers then some ⟨i.toNat, h⟩ else none)

/-- `IsEmpty()`. -/
def isEmptyAccesses : Prog Cell.Value Bool := do
  let r : UInt32 ← .get (Cell.control .inputReadIndex)
  let w : UInt32 ← .get (Cell.control .inputWriteIndex)
  return r == w

/-- `GetReadIndex()` and `GetWriteIndex()`: the word is loaded for the test and once more for the
value. -/
def getIndexAccesses (w : HeaderWord) : Prog Cell.Value UInt32 := do
  let i : UInt32 ← .get (Cell.control w)
  if i.toNat < numReceiveBuffers then .get (Cell.control w) else return 0

/-- What a call of `ReceiveWtcpPacket` returns and leaves outside the shared memory. -/
structure Received where
  size : UInt16
  dest : Fin numReceiveBuffers → DestinationStruct
  out : ReceiveOut

/-- `ReceiveWtcpPacket` behind the test. -/
def packetAccesses (dest : Fin numReceiveBuffers → DestinationStruct) :
    Prog Cell.Value Received := do
  let slot ← element (← getIndexAccesses .inputReadIndex)
  let identifier ← getIndexAccesses .inputReadIndex
  -- the sides of the two assignments are unsequenced in C++14; here the index comes first
  let i ← element (← getIndexAccesses .inputReadIndex)
  let address : UInt32 ← .get (Cell.input slot .address)
  let dest₁ := Function.update dest i { dest i with address := address }
  let j ← element (← getIndexAccesses .inputReadIndex)
  let port : UInt16 ← .get (Cell.input slot .port)
  let dest₂ := Function.update dest₁ j { dest₁ j with port := port }
  let size : UInt16 ← .get (Cell.input slot .dataLen)
  return ⟨size, dest₂, dataAddress slot, identifier⟩

/-- `ReceiveWtcpPacket(ppPacket, identifier)`. -/
def receiveAccesses (dest : Fin numReceiveBuffers → DestinationStruct) (out : ReceiveOut) :
    Prog Cell.Value Received := do
  if ← isEmptyAccesses then return ⟨0, dest, out⟩ else packetAccesses dest

/-- `ReceiveWtcpPacket` when it has loaded its own index `r` for the test. -/
def testAccesses (dest : Fin numReceiveBuffers → DestinationStruct) (out : ReceiveOut) (r : UInt32) :
    Prog Cell.Value Received :=
  .load (.control .inputWriteIndex) fun w : UInt32 =>
    if (r == w) = true then .ret ⟨0, dest, out⟩ else packetAccesses dest

/-- `ControlHeader::IncrementInputReadIndex()` and `IncrementWriteIndex()`. -/
def incrementAccesses (w : HeaderWord) : Prog Cell.Value Unit := do
  let i : UInt32 ← .get (Cell.control w)
  if 2 < i + 1 then .set (Cell.control w) (0 : UInt32)
  else
    let j : UInt32 ← .get (Cell.control w)
    .set (Cell.control w) (j + 1)

/-- The copy loop of `AddPacket`, `n` bytes from number `k` on. -/
def copyAccesses (slot : Fin numReceiveBuffers) (data : ℕ → UInt8) : ℕ → ℕ → Prog Cell.Value Unit
  | _, 0 => return ()
  | k, n + 1 => do
      let b ← .orFault (if h : k < bufferSize then some ⟨k, h⟩ else none)
      .set (Cell.output slot (.byte b)) (data k)
      copyAccesses slot data (k + 1) n

/-- `CommunicationHandler::AddPacket(address, port, data_len, data)`. -/
def addPacketAccesses (address : UInt32) (port len : UInt16) (data : ℕ → UInt8) :
    Prog Cell.Value Unit := do
  let slot ← element (← getIndexAccesses .outputWriteIndex)
  .set (Cell.output slot .address) address
  .set (Cell.output slot .port) port
  .set (Cell.output slot .dataLen) len
  copyAccesses slot data 0 len.toNat
  -- the archive has a `dmb` before it stores the index: Linux sees the packet no later
  incrementAccesses .outputWriteIndex

/-! ### Their outcome -/

section

variable {c : CommunicationHandler}

theorem element_of_lt {i : UInt32} (h : i.toNat < numReceiveBuffers) :
    element i = .ret ⟨i.toNat, h⟩ := by
  rw [element, dif_pos h]
  rfl

theorem handlerCells_set (x : Cell) (v : x.Value) : handlerCells.set c x v = c.set x v := rfl

@[simp] theorem run_isEmptyAccesses :
    isEmptyAccesses.run handlerCells c = some (c.control.isEmpty, c) := rfl

@[simp] theorem run_getIndexAccesses (w : HeaderWord) :
    (getIndexAccesses w).run handlerCells c
      = some (if (c.control.get w).toNat < numReceiveBuffers then c.control.get w else 0, c) := by
  show (if (c.control.get w).toNat < numReceiveBuffers then Prog.get (Cell.control w)
    else return 0 : Prog Cell.Value UInt32).run handlerCells c = _
  split_ifs <;> rfl

/-- A clamped index as a slot number. -/
theorem run_element_getReadIndex :
    (element c.control.getReadIndex).run handlerCells c = some (c.control.readSlot, c) := by
  rw [element_of_lt c.control.getReadIndex_lt]
  rfl

theorem run_element_getWriteIndex :
    (element c.control.getWriteIndex).run handlerCells c = some (c.control.writeSlot, c) := by
  rw [element_of_lt c.control.getWriteIndex_lt]
  rfl

theorem run_getReadIndex :
    (getIndexAccesses .inputReadIndex).run handlerCells c = some (c.control.getReadIndex, c) :=
  run_getIndexAccesses _

theorem run_getWriteIndex :
    (getIndexAccesses .outputWriteIndex).run handlerCells c = some (c.control.getWriteIndex, c) :=
  run_getIndexAccesses _

theorem receiveAccesses_eq (dest : Fin numReceiveBuffers → DestinationStruct) (out : ReceiveOut) :
    receiveAccesses dest out = .load (.control .inputReadIndex) fun r : UInt32 =>
      testAccesses dest out r := rfl

theorem run_packetAccesses (dest : Fin numReceiveBuffers → DestinationStruct)
    (irq : List UInt32) (out : ReceiveOut) (hne : c.control.isEmpty = false) :
    let r := receiveWtcpPacket ⟨c, dest, irq⟩ out
    (packetAccesses dest).run handlerCells c = some (⟨r.size, r.globals.dest, r.out⟩, c) := by
  simp only [packetAccesses, Prog.run_bind, run_getReadIndex, run_element_getReadIndex,
    Prog.run_get, Prog.run_pure, Option.bind_some]
  simp only [receiveWtcpPacket, hne, Bool.false_eq_true, if_false]
  rfl

/-- **With nobody else accessing the memory the accesses of `ReceiveWtcpPacket` are the callback.** -/
theorem run_receiveAccesses (g : Globals) (out : ReceiveOut) :
    let r := receiveWtcpPacket g out
    (receiveAccesses g.dest out).run handlerCells g.commHandler
      = some (⟨r.size, r.globals.dest, r.out⟩, r.globals.commHandler) := by
  simp only [receiveAccesses, Prog.run_bind, run_isEmptyAccesses, Option.bind_some]
  cases h : g.commHandler.control.isEmpty with
  | true => rw [receiveWtcpPacket_of_isEmpty h]; rfl
  | false =>
    rw [receiveWtcpPacket_commHandler]
    exact run_packetAccesses g.dest g.icdsgir out h

@[simp] theorem run_incrementAccesses (w : HeaderWord) :
    (incrementAccesses w).run handlerCells c
      = some ((), c.set (.control w) (CommLibrary.advance (c.control.get w))) := by
  show (if 2 < c.control.get w + 1 then Prog.set (Cell.control w) (0 : UInt32)
    else (Prog.get (Cell.control w) >>= fun j : UInt32 => Prog.set (Cell.control w) (j + 1)) :
      Prog Cell.Value Unit).run handlerCells c = _
  rw [CommLibrary.advance]
  split_ifs <;> rfl

/-- The slot after `n` bytes from number `k` on were copied. -/
def Packet.copied (p : Packet) (data : ℕ → UInt8) (k n : ℕ) : Packet :=
  { p with data := fun b => if k ≤ b.val ∧ b.val < k + n then data b else p.data b }

theorem Packet.copied_zero (p : Packet) (data : ℕ → UInt8) (k : ℕ) : p.copied data k 0 = p := by
  have hdata : (fun b : Fin bufferSize => if k ≤ b.val ∧ b.val < k + 0 then data b else p.data b)
      = p.data := funext fun b => if_neg (by omega)
  rw [Packet.copied, hdata]

theorem Packet.copied_succ (p : Packet) (data : ℕ → UInt8) {k : ℕ} (hk : k < bufferSize) (n : ℕ) :
    (p.set (.byte ⟨k, hk⟩) (data k)).copied data (k + 1) n = p.copied data k (n + 1) := by
  simp only [Packet.copied, Packet.set]
  congr 1
  funext b
  by_cases hb : b = ⟨k, hk⟩
  · subst hb
    rw [Function.update_self, if_neg (by simp only; omega), if_pos (by simp only; omega)]
  · have hval : b.val ≠ k := fun h => hb (Fin.ext h)
    rw [Function.update_of_ne hb]
    exact if_congr (by omega) rfl rfl

theorem run_copyAccesses (slot : Fin numReceiveBuffers) (data : ℕ → UInt8) {k n : ℕ}
    (hn : k + n ≤ bufferSize) :
    (copyAccesses slot data k n).run handlerCells c
      = some ((), { c with
          output := Function.update c.output slot ((c.output slot).copied data k n) }) := by
  induction n generalizing c k with
  | zero => rw [Packet.copied_zero, Function.update_eq_self]; rfl
  | succ n ih =>
    have hk : k < bufferSize := by omega
    rw [copyAccesses, dif_pos hk]
    simp only [Prog.run_bind, Prog.run_orFault_some, Option.bind_some, Prog.run_set_cell]
    rw [ih (by omega), handlerCells_set]
    simp only [CommunicationHandler.set, Function.update_self, Function.update_idem,
      Packet.copied_succ]

/-- **Nor is there a difference for `AddPacket`, as long as the packet fits its slot.** -/
theorem run_addPacketAccesses (address : UInt32) (port : UInt16) {len : UInt16} (data : ℕ → UInt8)
    (hlen : len.toNat ≤ bufferSize) :
    (addPacketAccesses address port len data).run handlerCells c
      = some ((), CommLibrary.prebuilt.addPacket c address port len data) := by
  simp only [addPacketAccesses, Prog.run_bind, run_getWriteIndex, run_element_getWriteIndex,
    Prog.run_set_cell, Option.bind_some, handlerCells_set]
  rw [run_copyAccesses _ _ (by omega)]
  simp only [Option.bind_some, run_incrementAccesses, CommunicationHandler.set,
    Function.update_self, Function.update_idem, Packet.set, Packet.copied]
  simp [CommLibrary.prebuilt, ControlHeader.set, ControlHeader.get]

theorem run_releaseAccesses :
    (incrementAccesses .inputReadIndex).run handlerCells c
      = some ((), { c with control := CommLibrary.prebuilt.incrementInputReadIndex c.control }) :=
  run_incrementAccesses _

/-! ### The cells they access -/

variable {S : Cell → Prop}

theorem stays_element (i : UInt32) : (element i).Stays handlerCells S c := Prog.stays_orFault _ c

theorem stays_getIndexAccesses {w : HeaderWord} (hw : S (.control w)) :
    (getIndexAccesses w).Stays handlerCells S c := by
  refine (Prog.stays_get hw c).bind fun i d _ => ?_
  split
  · exact Prog.stays_get hw d
  · exact Prog.stays_pure _ d

theorem stays_incrementAccesses {w : HeaderWord} (hw : S (.control w)) :
    (incrementAccesses w).Stays handlerCells S c := by
  refine (Prog.stays_get hw c).bind fun i d _ => ?_
  split
  · exact Prog.stays_set hw _ d
  · exact (Prog.stays_get hw d).bind fun j e _ => Prog.stays_set hw _ e

/-- Behind the test `ReceiveWtcpPacket` accesses its own index and the slot there. -/
theorem stays_packetAccesses (dest : Fin numReceiveBuffers → DestinationStruct)
    (hw : S (.control .inputReadIndex)) (hslot : ∀ f, S (.input c.control.readSlot f)) :
    (packetAccesses dest).Stays handlerCells S c := by
  refine (stays_getIndexAccesses hw).bind_of_run run_getReadIndex ?_
  refine (stays_element _).bind_of_run run_element_getReadIndex ?_
  refine (stays_getIndexAccesses hw).bind_of_run run_getReadIndex ?_
  refine (stays_getIndexAccesses hw).bind_of_run run_getReadIndex ?_
  refine (stays_element _).bind_of_run run_element_getReadIndex ?_
  refine (Prog.stays_get (hslot .address) c).bind_of_run (Prog.run_get _ c) ?_
  refine (stays_getIndexAccesses hw).bind_of_run run_getReadIndex ?_
  refine (stays_element _).bind_of_run run_element_getReadIndex ?_
  refine (Prog.stays_get (hslot .port) c).bind_of_run (Prog.run_get _ c) ?_
  refine (Prog.stays_get (hslot .dataLen) c).bind_of_run (Prog.run_get _ c) ?_
  exact Prog.stays_pure _ c

theorem stays_copyAccesses {slot : Fin numReceiveBuffers} (hslot : ∀ f, S (.output slot f))
    (data : ℕ → UInt8) (k n : ℕ) : (copyAccesses slot data k n).Stays handlerCells S c := by
  induction n generalizing c k with
  | zero => exact Prog.stays_pure _ c
  | succ n ih =>
    refine (Prog.stays_orFault _ c).bind fun b d _ => ?_
    exact (Prog.stays_set (hslot _) _ d).bind fun _ e _ => ih (k + 1)

/-- `AddPacket` accesses its own index and the slot there. -/
theorem stays_addPacketAccesses (address : UInt32) (port len : UInt16) (data : ℕ → UInt8)
    (hw : S (.control .outputWriteIndex)) (hslot : ∀ f, S (.output c.control.writeSlot f)) :
    (addPacketAccesses address port len data).Stays handlerCells S c := by
  refine (stays_getIndexAccesses hw).bind_of_run run_getWriteIndex ?_
  refine (stays_element _).bind_of_run run_element_getWriteIndex ?_
  refine (Prog.stays_set (hslot .address) _ c).bind fun _ d _ => ?_
  refine (Prog.stays_set (hslot .port) _ d).bind fun _ d _ => ?_
  refine (Prog.stays_set (hslot .dataLen) _ d).bind fun _ d _ => ?_
  exact (stays_copyAccesses hslot data 0 len.toNat).bind fun _ d _ => stays_incrementAccesses hw

/-! ### Their stores -/

theorem storesIn_getIndexAccesses (w : HeaderWord) : (getIndexAccesses w).StoresIn S := by
  refine Prog.storesIn_bind (fun _ => trivial) fun i => ?_
  split
  · exact fun _ => trivial
  · trivial

theorem storesIn_element (i : UInt32) : (element i).StoresIn S := Prog.storesIn_orFault _

/-- The new index is stored last. -/
theorem storesBefore_incrementAccesses (w : HeaderWord) : (incrementAccesses w).StoresBefore S := by
  refine Prog.storesBefore_bind (fun _ => trivial) fun i => ?_
  split
  · exact ⟨nofun, trivial⟩
  · exact fun _ => ⟨nofun, trivial⟩

theorem storesIn_copyAccesses {slot : Fin numReceiveBuffers} (hslot : ∀ f, S (.output slot f))
    (data : ℕ → UInt8) (k n : ℕ) : (copyAccesses slot data k n).StoresIn S := by
  induction n generalizing k with
  | zero => trivial
  | succ n ih =>
    refine Prog.storesIn_bind (Prog.storesIn_orFault _) fun b => ?_
    exact Prog.storesIn_bind ⟨hslot _, trivial⟩ fun _ => ih (k + 1)

/-- **`AddPacket` stores the index last**, after all of the packet. -/
theorem storesBefore_addPacketAccesses (address : UInt32) (port len : UInt16) (data : ℕ → UInt8)
    (hslot : ∀ i f, S (.output i f)) : (addPacketAccesses address port len data).StoresBefore S := by
  refine Prog.storesBefore_bind (storesIn_getIndexAccesses _) fun i => ?_
  refine Prog.storesBefore_bind (storesIn_element i) fun slot => ?_
  refine Prog.storesBefore_bind ⟨hslot _ _, trivial⟩ fun _ => ?_
  refine Prog.storesBefore_bind ⟨hslot _ _, trivial⟩ fun _ => ?_
  refine Prog.storesBefore_bind ⟨hslot _ _, trivial⟩ fun _ => ?_
  exact Prog.storesBefore_bind (storesIn_copyAccesses (hslot slot) data 0 len.toNat) fun _ =>
    storesBefore_incrementAccesses _

/-- `ReceiveWtcpPacket` stores nothing. -/
theorem storesBefore_packetAccesses (dest : Fin numReceiveBuffers → DestinationStruct) :
    (packetAccesses dest).StoresBefore S := by
  refine Prog.storesBefore_bind (storesIn_getIndexAccesses _) fun i => ?_
  refine Prog.storesBefore_bind (storesIn_element i) fun slot => ?_
  refine Prog.storesBefore_bind (storesIn_getIndexAccesses _) fun identifier => ?_
  refine Prog.storesBefore_bind (storesIn_getIndexAccesses _) fun i => ?_
  refine Prog.storesBefore_bind (storesIn_element i) fun i => ?_
  refine Prog.storesBefore_bind (fun _ => trivial) fun address => ?_
  refine Prog.storesBefore_bind (storesIn_getIndexAccesses _) fun j => ?_
  refine Prog.storesBefore_bind (storesIn_element j) fun j => ?_
  exact fun _ _ => trivial

/-! ### How many there are -/

end

end Tet4120

import Tet4120Lab.Lib.Access
import Tet4120Lab.Comm.Linux

/-!
# The shared memory access by access

The members of `CommunicationHandler` are `volatile`: every load and store of the source is one access
to one index word, one field of a slot or one byte of its `m_data`.

* `Cell`, `Cell.Value`: what one access reaches, and what it transfers;
* `handlerCells`: the object as a memory of such cells; it is nothing else (`handlerCells_lawful`);
* `linuxWrite`: the store a step of Linux makes; `linuxStep_eq_write` says that it makes no other;
* `Cell.byLinux`: the single writer of each cell, as the comments in the source have it.
-/

namespace Tet4120

open Access

/-- What one access to a slot reaches. -/
inductive SlotCell
  | address
  | port
  | dataLen
  | byte (k : Fin bufferSize)
  deriving DecidableEq

/-- What one access to the object reaches. -/
inductive Cell
  | control (w : HeaderWord)
  | input (i : Fin numReceiveBuffers) (f : SlotCell)
  | output (i : Fin numReceiveBuffers) (f : SlotCell)
  deriving DecidableEq

/-- The type of the member. -/
abbrev SlotCell.Value : SlotCell → Type
  | .address => UInt32
  | .port => UInt16
  | .dataLen => UInt16
  | .byte _ => UInt8

abbrev Cell.Value : Cell → Type
  | .control _ => UInt32
  | .input _ f => f.Value
  | .output _ f => f.Value

/-! ### Loads and stores -/

/-- Load from a slot. -/
def Packet.get (p : Packet) : (f : SlotCell) → f.Value
  | .address => p.address
  | .port => p.port
  | .dataLen => p.dataLen
  | .byte k => p.data k

/-- Store to a slot. -/
def Packet.set (p : Packet) : (f : SlotCell) → f.Value → Packet
  | .address, v => { p with address := v }
  | .port, v => { p with port := v }
  | .dataLen, v => { p with dataLen := v }
  | .byte k, v => { p with data := Function.update p.data k v }

/-- The slot with these contents. -/
def Packet.ofCells (get : (f : SlotCell) → f.Value) : Packet :=
  ⟨get .address, get .port, get .dataLen, fun k => get (.byte k)⟩

namespace CommunicationHandler

def get (c : CommunicationHandler) : (x : Cell) → x.Value
  | .control w => c.control.get w
  | .input i f => (c.input i).get f
  | .output i f => (c.output i).get f

def set (c : CommunicationHandler) : (x : Cell) → x.Value → CommunicationHandler
  | .control w, v => { c with control := c.control.set w v }
  | .input i f, v => { c with input := Function.update c.input i ((c.input i).set f v) }
  | .output i f, v => { c with output := Function.update c.output i ((c.output i).set f v) }

/-- The object with these contents. -/
def ofCells (get : (x : Cell) → x.Value) : CommunicationHandler where
  control := ⟨get (.control .inputReadIndex), get (.control .outputWriteIndex),
    get (.control .inputWriteIndex), get (.control .outputReadIndex)⟩
  input i := Packet.ofCells fun f => get (.input i f)
  output i := Packet.ofCells fun f => get (.output i f)

end CommunicationHandler

/-- The object as a memory of cells. -/
def handlerCells : Cells CommunicationHandler Cell.Value :=
  ⟨CommunicationHandler.get, CommunicationHandler.set⟩

theorem Packet.get_set_self (p : Packet) (f : SlotCell) (v : f.Value) : (p.set f v).get f = v := by
  cases f with
  | byte k => exact Function.update_self ..
  | _ => rfl

theorem Packet.get_set_of_ne (p : Packet) {f f' : SlotCell} (hf : f' ≠ f) (v : f.Value) :
    (p.set f v).get f' = p.get f' := by
  cases f with
  | byte k =>
    cases f' with
    | byte k' => exact Function.update_of_ne (fun hk => hf (congrArg SlotCell.byte hk)) _ _
    | _ => rfl
  | _ => cases f' <;> first | rfl | exact absurd rfl hf

theorem Packet.get_ofCells (get : (f : SlotCell) → f.Value) (f : SlotCell) :
    (Packet.ofCells get).get f = get f := by
  cases f <;> rfl

theorem Packet.ext_get {p q : Packet} (h : ∀ f, p.get f = q.get f) : p = q := by
  cases p
  cases q
  congr 1
  · exact h .address
  · exact h .port
  · exact h .dataLen
  · exact funext fun k => h (.byte k)

@[simp] theorem CommunicationHandler.get_ofCells (get : (x : Cell) → x.Value) (x : Cell) :
    (CommunicationHandler.ofCells get).get x = get x := by
  cases x with
  | control w => cases w <;> rfl
  | input i f => exact Packet.get_ofCells _ f
  | output i f => exact Packet.get_ofCells _ f

/-- **The object is nothing but its cells.** -/
theorem handlerCells_lawful : handlerCells.Lawful where
  get_set_self c x v := by
    cases x with
    | control w => exact c.control.get_set_self w v
    | input i f =>
      show (Function.update c.input i _ i).get f = v
      rw [Function.update_self, Packet.get_set_self]
    | output i f =>
      show (Function.update c.output i _ i).get f = v
      rw [Function.update_self, Packet.get_set_self]
  get_set_of_ne {c x v y} hy := by
    have hslot : ∀ (ring : Fin numReceiveBuffers → Packet) (i j : Fin numReceiveBuffers)
        (f f' : SlotCell) (w : f.Value), (i = j → f' ≠ f) →
        (Function.update ring i ((ring i).set f w) j).get f' = (ring j).get f' := by
      intro ring i j f f' w hne
      by_cases hij : i = j
      · subst hij
        rw [Function.update_self, Packet.get_set_of_ne _ (hne rfl)]
      · rw [Function.update_of_ne (Ne.symm hij)]
    cases x with
    | control w =>
      cases y with
      | control w' => exact c.control.get_set_of_ne (fun hw => hy (congrArg Cell.control hw)) v
      | _ => rfl
    | input i f =>
      cases y with
      | input j f' => exact hslot c.input i j f f' v fun hij hf => hy (by rw [hij, hf])
      | _ => rfl
    | output i f =>
      cases y with
      | output j f' => exact hslot c.output i j f f' v fun hij hf => hy (by rw [hij, hf])
      | _ => rfl
  ext {c d} h := by
    have hcontrol : ∀ w, c.control.get w = d.control.get w := fun w => h (.control w)
    obtain ⟨⟨r, w, w', r'⟩, input, output⟩ := c
    obtain ⟨⟨s, u, u', s'⟩, input', output'⟩ := d
    congr 1
    · congr 1
      · exact hcontrol .inputReadIndex
      · exact hcontrol .outputWriteIndex
      · exact hcontrol .inputWriteIndex
      · exact hcontrol .outputReadIndex
    · exact funext fun i => Packet.ext_get fun f => h (.input i f)
    · exact funext fun i => Packet.ext_get fun f => h (.output i f)

@[simp] theorem CommunicationHandler.ofCells_get (c : CommunicationHandler) :
    CommunicationHandler.ofCells c.get = c :=
  handlerCells_lawful.ext fun x => CommunicationHandler.get_ofCells c.get x

/-! ### The store of a step of Linux -/

/-- A store to one cell. -/
abbrev Write := (x : Cell) × x.Value

/-- The object after at most one store. -/
def CommunicationHandler.write (c : CommunicationHandler) : Option Write → CommunicationHandler
  | none => c
  | some w => c.set w.1 w.2

/-- The store that fills a part of the slot in. -/
def fillWrite (slot : Fin numReceiveBuffers) (m : Message) (d : Progress) : Field → Option Write
  | .address => some ⟨.input slot .address, m.address⟩
  | .port => some ⟨.input slot .port, m.port⟩
  | .size => some ⟨.input slot .dataLen, m.size⟩
  | .byte =>
      if h : d.bytes < bufferSize then
        (m.data[d.bytes]?).map fun b => ⟨.input slot (.byte ⟨d.bytes, h⟩), b⟩
      else none

/-- The store of a step of Linux. -/
def linuxWrite (c : CommunicationHandler) (l : Linux) : LinuxAction → Option Write
  | .test _ => none
  | .fill f =>
      match l.pc with
      | .idle => none
      | .filling m d => fillWrite c.inputWriteSlot m d f
  | .publish => some ⟨.control .inputWriteIndex, nextIndex c.control.nInputWriteIndex⟩
  | .dequeue => some ⟨.control .outputReadIndex, nextIndex c.control.nOutputReadIndex⟩

theorem fill_eq_write {c : CommunicationHandler} {m : Message} {d d' : Progress} {f : Field}
    {p : Packet} (h : (c.input c.inputWriteSlot).fill m d f = some (p, d')) :
    c.setInput p = c.write (fillWrite c.inputWriteSlot m d f) := by
  cases f with
  | byte =>
    obtain ⟨b, hb, heq⟩ := Option.map_eq_some_iff.1 h
    cases heq
    rw [fillWrite]
    by_cases hlt : d.bytes < bufferSize
    · rw [dif_pos hlt, hb]
      simp only [Option.map_some, CommunicationHandler.write, CommunicationHandler.set,
        CommunicationHandler.setInput, Packet.set]
      congr 3
      funext k
      rw [Function.update_apply]
      simp only [Fin.ext_iff]
    · rw [dif_neg hlt]
      have hdata : (fun k : Fin bufferSize => if k.val = d.bytes then b
          else (c.input c.inputWriteSlot).data k) = (c.input c.inputWriteSlot).data := by
        funext k
        exact if_neg (show k.val ≠ d.bytes by omega)
      simp only [CommunicationHandler.setInput, CommunicationHandler.write, hdata,
        Function.update_eq_self]
  | _ => cases h; rfl

/-- **A step of Linux makes this store and no other.** -/
theorem linuxStep_eq_write {c c' : CommunicationHandler} {l l' : Linux} {a : LinuxAction}
    (h : linuxStep c l a = some (c', l')) : c' = c.write (linuxWrite c l a) := by
  rcases linuxStep_cases h with ⟨m, rfl, -, -, -, rfl, -⟩ | ⟨f, m, d, p, d', rfl, hpc, hp, rfl, -⟩ |
    ⟨m, d, rfl, -, -, rfl, -⟩ | ⟨rfl, rfl, -⟩
  · rfl
  · rw [fill_eq_write hp, linuxWrite, hpc]
  · rfl
  · rfl

/-! ### Writers -/

/-- The cells that only Linux stores to. -/
def Cell.byLinux : Cell → Bool
  | .control .inputWriteIndex => true
  | .control .outputReadIndex => true
  | .control _ => false
  | .input _ _ => true
  | .output _ _ => false

theorem byLinux_of_linuxWrite {c : CommunicationHandler} {l : Linux} {a : LinuxAction} {w : Write}
    (h : linuxWrite c l a = some w) : w.1.byLinux = true := by
  cases a with
  | test m => cases h
  | fill f =>
    cases hpc : l.pc with
    | idle => simp [linuxWrite, hpc] at h
    | filling m d =>
      simp only [linuxWrite, hpc] at h
      cases f with
      | byte =>
        rw [fillWrite] at h
        split_ifs at h with hlt
        obtain ⟨b, -, rfl⟩ := Option.map_eq_some_iff.1 h
        rfl
      | _ => cases h; rfl
  | publish => cases h; rfl
  | dequeue => cases h; rfl

end Tet4120

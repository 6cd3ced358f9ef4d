import Tet4120Lab.Comm.Accesses
import Tet4120Lab.Comm.Duplex
import Tet4120Lab.Comm.Fifo

/-!
# The callbacks interleaved with Linux, access by access

In `System` a call of a callback is one step.  Here Linux may take any number of steps between two
accesses of CPU1 to the shared memory, also in the middle of `AddPacket`.  Wtcp reads the bytes of a
packet one by one while it holds it, and Linux the cells of a reply before it takes it.

* `Machine`, `Machine.step`: the two processors on a memory `M : Shared μ`, with what each of them has
  observed; `Shared.object` is the object itself;
* `Receiving`, `Calling`: what a callback has done and still has to do;
* `machine_simulation`: a callback takes effect with its last access, so the machine follows `System`;
* `callbacks_atomic`: every run of the machine is a run of `System`, and no callback faults.
-/

namespace Tet4120

open Access

/-! ### The machine -/

/-- A memory as the two processors access it. -/
structure Shared (μ : Type) where
  cpu1 : Cells μ Cell.Value
  linux : Cells μ Cell.Value

/-- The object itself. -/
def Shared.object : Shared CommunicationHandler := ⟨handlerCells, handlerCells⟩

/-- The object as Linux reads it. -/
def Shared.view {μ : Type} (M : Shared μ) (m : μ) : CommunicationHandler := .ofCells (M.linux.get m)

/-- The object as CPU1 reads it. -/
def Shared.read {μ : Type} (M : Shared μ) (m : μ) : CommunicationHandler := .ofCells (M.cpu1.get m)

/-- A store of Linux, if there is one. -/
def Shared.write {μ : Type} (M : Shared μ) (m : μ) : Option Write → μ
  | none => m
  | some w => M.linux.set m w.1 w.2

/-- A call that stores to the shared memory. -/
inductive Call
  | transmit (dst : DestinationStruct) (data : ℕ → UInt8) (size : UInt16)
  | release

/-- What CPU1 does in the call. -/
def Call.accesses : Call → Prog Cell.Value Unit
  | .transmit dst data size => addPacketAccesses dst.address dst.port size data
  | .release => incrementAccesses .inputReadIndex

/-- Where CPU1 is: between two packets, in `ReceiveWtcpPacket`, holding a packet, or in another
callback while it holds a packet; with the accesses the callback still has to make. -/
inductive Pc
  | idle
  | receiving (out : ReceiveOut) (p : Prog Cell.Value Received)
  | handling (out : ReceiveOut) (size : UInt16)
  | calling (out : ReceiveOut) (size : UInt16) (call : Call) (p : Prog Cell.Value Unit)

/-- CPU1 is in a callback. -/
def Pc.running : Pc → Bool
  | .receiving _ _ => true
  | .calling _ _ _ _ => true
  | _ => false

/-- Byte number `offset` of packet number `packet`, as Wtcp read it. -/
structure Peek where
  packet : ℕ
  offset : ℕ
  byte : UInt8

/-- A cell of reply number `reply`, as Linux read it. -/
structure Look where
  reply : ℕ
  cell : SlotCell
  value : cell.Value

/-- Both processors, and what they have observed: the sender and the size of the packets handed over,
the bytes read of them, the replies sent, the replies Linux took, the cells it read of them. -/
structure Machine (μ : Type) where
  memory : μ
  dest : Fin numReceiveBuffers → DestinationStruct
  icdsgir : List UInt32
  linux : Linux
  pc : Pc
  handed : List (DestinationStruct × UInt16)
  peeked : List Peek
  sent : List Message
  taken : List Message
  looked : List Look

/-- A step of one of the processors: `access` is the next access of the callback CPU1 is in. -/
inductive Machine.Action
  | linux (a : LinuxAction)
  | receive (out : ReceiveOut)
  | access
  | peek (k : ℕ)
  | transmit (data : ℕ → UInt8) (size : UInt16)
  | release
  | look (x : SlotCell)

/-- `g_dest[identifier]`. -/
def destinationAt (dest : Fin numReceiveBuffers → DestinationStruct) (identifier : UInt32) :
    Option DestinationStruct :=
  if h : identifier.toNat < numReceiveBuffers then some (dest ⟨identifier.toNat, h⟩) else none

/-- What Linux reads when it takes a packet. -/
def LinuxAction.reads (c : CommunicationHandler) : LinuxAction → List Message
  | .dequeue => [(c.output c.outputReadSlot).toMessage]
  | _ => []

namespace Machine

variable {μ : Type}

/-- `ReceiveWtcpPacket` goes on with `p`, or returns. -/
def continueReceive (f : Machine μ) (out : ReceiveOut) (p : Prog Cell.Value Received) : Machine μ :=
  match p.result? with
  | none => { f with pc := .receiving out p }
  | some r =>
      if r.size = 0 then { f with dest := r.dest, pc := .idle }
      else
        { f with
          dest := r.dest
          pc := .handling r.out r.size
          handed := f.handed ++
            ((destinationAt r.dest r.out.identifier).map fun dst => (dst, r.size)).toList }

/-- The call goes on with `p`, or returns. -/
def continueCall (f : Machine μ) (out : ReceiveOut) (size : UInt16) (call : Call)
    (p : Prog Cell.Value Unit) : Machine μ :=
  match p.result?, call with
  | none, _ => { f with pc := .calling out size call p }
  | some _, .transmit dst data n =>
      { f with
        pc := .handling out size
        icdsgir := generateSwIrq0 :: f.icdsgir
        sent := f.sent ++ [⟨dst.address, dst.port, n, (List.range n.toNat).map data⟩] }
  | some _, .release => { f with pc := .idle }

/-- CPU1 begins a call. -/
def call (f : Machine μ) (out : ReceiveOut) (size : UInt16) (call : Call) : Machine μ :=
  { f with pc := .calling out size call call.accesses }

/-- One step of one processor. -/
def step (M : Shared μ) (f : Machine μ) : Action → Option (Machine μ)
  | .linux a =>
      (linuxStep (M.view f.memory) f.linux a).map fun w =>
        { f with
          memory := M.write f.memory (linuxWrite (M.view f.memory) f.linux a)
          linux := w.2
          taken := f.taken ++ a.reads (M.view f.memory) }
  | .receive out =>
      match f.pc with
      | .idle => some { f with pc := .receiving out (receiveAccesses f.dest out) }
      | _ => none
  | .access =>
      match f.pc with
      | .receiving out p =>
          (p.next M.cpu1 f.memory).map fun r => continueReceive { f with memory := r.2 } out r.1
      | .calling out size call p =>
          (p.next M.cpu1 f.memory).map fun r =>
            continueCall { f with memory := r.2 } out size call r.1
      | _ => none
  | .peek k =>
      match f.pc with
      | .handling out size =>
          if k < size.toNat then
            ((M.read f.memory).inputByte (out.ppPacket + k)).map fun b =>
              { f with peeked := f.peeked ++ [⟨f.handed.length - 1, k, b⟩] }
          else none
      | _ => none
  | .transmit data n =>
      match f.pc with
      | .handling out size =>
          (destinationAt f.dest out.identifier).map fun dst => f.call out size (.transmit dst data n)
      | _ => none
  | .release =>
      match f.pc with
      | .handling out size => some (f.call out size .release)
      | _ => none
  | .look x =>
      let c := M.view f.memory
      if c.control.nOutputReadIndex = c.control.nOutputWriteIndex then none
      else
        some { f with
          looked := f.looked ++ [⟨f.taken.length, x, (c.output c.outputReadSlot).get x⟩] }

/-- Both processors at rest, nothing observed. -/
def start (m : μ) (g : Globals) : Machine μ where
  memory := m
  dest := g.dest
  icdsgir := g.icdsgir
  linux := ⟨.idle, []⟩
  pc := .idle
  handed := []
  peeked := []
  sent := []
  taken := []
  looked := []

/-- Linux enqueues well-formed packets, and CPU1 begins to reply with packets that fit a slot while
the output ring has room. -/
def Permitted (M : Shared μ) (f : Machine μ) : Action → Prop
  | .linux (.test m) => m.WellFormed
  | .transmit _ size =>
      size.toNat ≤ bufferSize ∧
        ((M.read f.memory).control.nOutputWriteIndex.toNat + 1) % numReceiveBuffers
          ≠ (M.read f.memory).control.nOutputReadIndex.toNat
  | _ => True

end Machine

/-! ### Stores of Linux -/

section

variable {c : CommunicationHandler}

theorem linuxStep_with_output (l : Linux) (a : LinuxAction) (o : Fin numReceiveBuffers → Packet) :
    linuxStep { c with output := o } l a
      = (linuxStep c l a).map fun w => ({ w.1 with output := o }, w.2) := by
  obtain ⟨pc, enqueued⟩ := l
  cases a with
  | test m =>
    cases pc with
    | idle => simp only [linuxStep]; split_ifs <;> rfl
    | filling m' d => rfl
  | fill f =>
    cases pc with
    | idle => rfl
    | filling m d =>
      show Option.map _ ((c.input c.inputWriteSlot).fill m d f) = _
      rw [linuxStep, Option.map_map]
      rfl
  | publish =>
    cases pc with
    | idle => rfl
    | filling m d => simp only [linuxStep]; split_ifs <;> rfl
  | dequeue => simp only [linuxStep]; split_ifs <;> rfl

theorem linuxWrite_with_output (l : Linux) (a : LinuxAction) (o : Fin numReceiveBuffers → Packet) :
    linuxWrite { c with output := o } l a = linuxWrite c l a := by
  cases a <;> rfl

/-- The input slot that is stored to. -/
theorem writtenSlot_of_linuxWrite {l : Linux} {a : LinuxAction} {i : Fin numReceiveBuffers}
    {f : SlotCell} {v : f.Value} (h : linuxWrite c l a = some ⟨.input i f, v⟩) :
    a.writtenSlot c = some i := by
  cases a with
  | test m => cases h
  | fill b =>
    cases hpc : l.pc with
    | idle => simp [linuxWrite, hpc] at h
    | filling m d =>
      simp only [linuxWrite, hpc] at h
      cases b with
      | byte =>
        rw [fillWrite] at h
        split_ifs at h with hlt
        obtain ⟨b, -, hb⟩ := Option.map_eq_some_iff.1 h
        cases hb
        rfl
      | _ => cases h; rfl
  | publish => cases h
  | dequeue => cases h

end

/-! ### What a callback has done and still has to do -/

/-- The cells that CPU1 accesses while it stores. -/
def OwnCell (c : CommunicationHandler) (x : Cell) : Prop :=
  x = .control .inputReadIndex ∨ x = .control .outputWriteIndex ∨
    ∃ f, x = .output c.control.writeSlot f

/-- The cells of the packet that CPU1 receives. -/
def PacketCell (c : CommunicationHandler) (x : Cell) : Prop :=
  x = .control .inputReadIndex ∨ ∃ f, x = .input c.control.readSlot f

/-- The call does not write behind its slot. -/
def Call.Fits : Call → Prop
  | .transmit _ _ size => size.toNat ≤ bufferSize
  | .release => True

/-- The call as a step of `System`. -/
def Call.action : Call → Action
  | .transmit _ data size => .transmit data size
  | .release => .release

/-- What the call does. -/
def Call.effect (call : Call) (c : CommunicationHandler) : CommunicationHandler :=
  match call with
  | .transmit dst data size => CommLibrary.prebuilt.addPacket c dst.address dst.port size data
  | .release => { c with control := CommLibrary.prebuilt.incrementInputReadIndex c.control }

theorem Call.run_accesses {call : Call} (h : call.Fits) (c : CommunicationHandler) :
    call.accesses.run handlerCells c = some ((), call.effect c) := by
  cases call with
  | transmit dst data size => exact run_addPacketAccesses dst.address dst.port data h
  | release => exact run_releaseAccesses

theorem Call.stays_accesses (call : Call) (c : CommunicationHandler) :
    call.accesses.Stays handlerCells (OwnCell c) c := by
  cases call with
  | transmit dst data size =>
    exact stays_addPacketAccesses _ _ _ _ (Or.inr (Or.inl rfl)) fun f => Or.inr (Or.inr ⟨f, rfl⟩)
  | release => exact stays_incrementAccesses (Or.inl rfl)

theorem Call.storesBefore_accesses (call : Call) :
    call.accesses.StoresBefore fun x => ∃ i f, x = .output i f := by
  cases call with
  | transmit dst data size => exact storesBefore_addPacketAccesses _ _ _ _ fun i f => ⟨i, f, rfl⟩
  | release => exact storesBefore_incrementAccesses _

/-- The object is `c`, but for the output slot that CPU1 fills. -/
structure AgreesBut (m c : CommunicationHandler) : Prop where
  eq : m = { c with output := m.output }
  output : ∀ i ≠ c.control.writeSlot, m.output i = c.output i

theorem AgreesBut.refl (c : CommunicationHandler) : AgreesBut c c := ⟨rfl, fun _ _ => rfl⟩

/-- A call in progress on the memory `m`, which would be `c` had it not begun; `p` is what it still
has to do. -/
structure Calling (call : Call) (p : Prog Cell.Value Unit) (m c : CommunicationHandler) : Prop where
  agrees : AgreesBut m c
  run : p.run handlerCells m = some ((), call.effect c)
  stays : p.Stays handlerCells (OwnCell c) m
  before : p.StoresBefore fun x => ∃ i f, x = .output i f
  unfinished : p.result? = none

/-- `ReceiveWtcpPacket` in progress: before the test, in the test, or behind it with the packet. -/
structure Receiving (dest : Fin numReceiveBuffers → DestinationStruct) (out : ReceiveOut)
    (p : Prog Cell.Value Received) (c : CommunicationHandler) : Prop where
  stage : p = receiveAccesses dest out ∨
    p = testAccesses dest out c.control.nInputReadIndex ∨
    (c.control.isEmpty = false ∧ p.run handlerCells c = (packetAccesses dest).run handlerCells c ∧
      p.Stays handlerCells (PacketCell c) c)
  before : p.StoresBefore fun _ => False
  unfinished : p.result? = none

/-! ### The accesses of CPU1 -/

section

variable {call : Call} {c m m' : CommunicationHandler} {p q : Prog Cell.Value Unit}

theorem Calling.begin (h : call.Fits) (c : CommunicationHandler) :
    Calling call call.accesses c c where
  agrees := .refl c
  run := call.run_accesses h c
  stays := call.stays_accesses c
  before := call.storesBefore_accesses
  unfinished := by cases call <;> rfl

/-- A store of CPU1 to the output slot that it fills. -/
theorem AgreesBut.set_output (h : AgreesBut m c) (f : SlotCell) (v : f.Value) :
    AgreesBut (m.set (.output c.control.writeSlot f) v) c where
  eq := by rw [h.eq]; rfl
  output i hi := (Function.update_of_ne hi _ _).trans (h.output i hi)

/-- An access that is not the last one leaves the rest of the memory alone. -/
theorem Calling.next (h : Calling call p m c) (hn : p.next handlerCells m = some (q, m'))
    (hq : q.result? = none) : Calling call q m' c := by
  obtain ⟨hbefore, hstore⟩ := h.before.next h.stays hn
  refine ⟨?_, (Prog.run_next hn).trans h.run, h.stays.next hn, hbefore, hq⟩
  rcases hstore hq with rfl | ⟨x, v, ⟨i, f, rfl⟩, hown, rfl⟩
  · exact h.agrees
  · rcases hown with hx | hx | ⟨f', hx⟩
    · cases hx
    · cases hx
    · cases hx
      exact h.agrees.set_output f v

/-- With the last access the call has done what it does. -/
theorem Calling.last (h : Calling call p m c) (hn : p.next handlerCells m = some (q, m'))
    (hq : q.result? = some ()) : m' = call.effect c := by
  have hrun := (Prog.run_of_result? hq m').symm.trans ((Prog.run_next hn).trans h.run)
  exact congrArg Prod.snd (Option.some.inj hrun)

end

section

variable {dest : Fin numReceiveBuffers → DestinationStruct} {out : ReceiveOut}
  {p q : Prog Cell.Value Received} {c c' : CommunicationHandler}

theorem Receiving.begin (dest : Fin numReceiveBuffers → DestinationStruct) (out : ReceiveOut)
    (c : CommunicationHandler) : Receiving dest out (receiveAccesses dest out) c where
  stage := Or.inl rfl
  before := by
    refine Prog.storesBefore_bind (fun _ _ => trivial) fun b => ?_
    split
    · trivial
    · exact storesBefore_packetAccesses dest
  unfinished := rfl

/-- The rest of the call is the call. -/
theorem Receiving.run (h : Receiving dest out p c) :
    p.run handlerCells c = (receiveAccesses dest out).run handlerCells c := by
  rcases h.stage with rfl | rfl | ⟨hne, hrun, -⟩
  · rfl
  · rfl
  · rw [hrun, receiveAccesses, Prog.run_bind, run_isEmptyAccesses, hne]
    rfl

theorem Receiving.next (h : Receiving dest out p c) (hn : p.next handlerCells c = some (q, c'))
    (hq : q.result? = none) : c' = c ∧ Receiving dest out q c := by
  obtain ⟨hbefore, hstore⟩ := h.before.next (T := fun _ => True) (fun _ _ => trivial) hn
  have hsame : c' = c := by
    rcases hstore hq with heq | ⟨x, v, hfalse, -⟩
    · exact heq
    · exact hfalse.elim
  subst hsame
  refine ⟨rfl, ?_, hbefore, hq⟩
  rcases h.stage with rfl | rfl | ⟨hne, hrun, hstays⟩
  · rw [receiveAccesses_eq] at hn
    exact Or.inr (Or.inl (congrArg Prod.fst (Option.some.inj hn)).symm)
  · -- the test of `IsEmpty()`
    have hq' : q = if c'.control.isEmpty = true then .ret ⟨0, dest, out⟩ else packetAccesses dest :=
      (congrArg Prod.fst (Option.some.inj hn)).symm
    cases hempty : c'.control.isEmpty with
    | true =>
      rw [hempty, if_pos rfl] at hq'
      subst hq'
      cases hq
    | false =>
      rw [hempty, if_neg Bool.false_ne_true] at hq'
      subst hq'
      exact Or.inr (Or.inr ⟨rfl, rfl,
        stays_packetAccesses dest (Or.inl rfl) fun f => Or.inr ⟨f, rfl⟩⟩)
  · exact Or.inr (Or.inr ⟨hne, (Prog.run_next hn).trans hrun, hstays.next hn⟩)

end

/-! ### The steps of Linux -/

section

variable {c c' m : CommunicationHandler} {l l' : Linux} {a : LinuxAction}

/-- Linux spares the words of CPU1. -/
theorem linuxStep_ownWords (hs : linuxStep c l a = some (c', l')) :
    c'.control.nInputReadIndex = c.control.nInputReadIndex ∧
      c'.control.nOutputWriteIndex = c.control.nOutputWriteIndex := by
  rcases linuxStep_cases hs with ⟨_, -, -, -, -, rfl, -⟩ | ⟨_, _, _, _, _, -, -, -, rfl, -⟩ |
    ⟨_, _, -, -, -, rfl, -⟩ | ⟨-, rfl, -⟩ <;> exact ⟨rfl, rfl⟩

theorem readSlot_congr (h : c'.control.nInputReadIndex = c.control.nInputReadIndex) :
    c'.control.readSlot = c.control.readSlot := by
  simp only [ControlHeader.readSlot, ControlHeader.getReadIndex, h]

theorem writeSlot_congr (h : c'.control.nOutputWriteIndex = c.control.nOutputWriteIndex) :
    c'.control.writeSlot = c.control.writeSlot := by
  simp only [ControlHeader.writeSlot, ControlHeader.getWriteIndex, h]

theorem not_ownCell_of_byLinux {x : Cell} (hx : x.byLinux = true) : ¬ OwnCell c x := by
  rintro (rfl | rfl | ⟨f, rfl⟩) <;> cases hx

/-- **No step of Linux disturbs `ReceiveWtcpPacket`.** -/
theorem Receiving.linux {dest : Fin numReceiveBuffers → DestinationStruct} {out : ReceiveOut}
    {p : Prog Cell.Value Received} {base released : ℕ} (hring : RingInv c l base released)
    (hs : linuxStep c l a = some (c', l')) (h : Receiving dest out p c) :
    Receiving dest out p c' := by
  obtain ⟨hread, -⟩ := linuxStep_ownWords hs
  refine ⟨?_, h.before, h.unfinished⟩
  rcases h.stage with rfl | rfl | ⟨hne, hrun, hstays⟩
  · exact Or.inl rfl
  · -- CPU1 has loaded its own index, which Linux does not change
    exact Or.inr (Or.inl (by rw [hread]))
  · -- the packet CPU1 reads is published, so Linux does not write its slot
    have hlt := hring.isEmpty_eq_false_iff.1 hne
    have hlt' : released < l'.enqueued.length :=
      Nat.lt_of_lt_of_le hlt (linuxStep_enqueued hs).length_le
    have hne' := (hring.linuxStep hs).isEmpty_eq_false_iff.2 hlt'
    have hwritten := hring.writtenSlot_ne a (Nat.le_refl _) hlt
    rw [← hring.readSlot_eq] at hwritten
    have hspares : ∀ w, linuxWrite c l a = some w → ¬ PacketCell c w.1 := by
      rintro ⟨x, v⟩ hw (rfl | ⟨f, rfl⟩)
      · cases byLinux_of_linuxWrite hw
      · exact hwritten (writtenSlot_of_linuxWrite hw)
    have hpacket : (packetAccesses dest).Stays handlerCells (PacketCell c) c :=
      stays_packetAccesses dest (Or.inl rfl) fun f => Or.inr ⟨f, rfl⟩
    have hcell : PacketCell c' = PacketCell c := by
      funext x
      simp only [PacketCell, readSlot_congr hread]
    rw [hcell]
    refine Or.inr (Or.inr ⟨hne', ?_⟩)
    rw [linuxStep_eq_write hs]
    cases hw : linuxWrite c l a with
    | none => exact ⟨hrun, hstays⟩
    | some w =>
      have hx := hspares w hw
      refine ⟨?_, hstays.set handlerCells_lawful hx w.2⟩
      have h₁ := hstays.run_set handlerCells_lawful hx w.2
      have h₂ := hpacket.run_set handlerCells_lawful hx w.2
      rw [hrun] at h₁
      exact h₁.trans h₂.symm

/-- Linux makes the same step on a memory that differs in the slot CPU1 fills. -/
theorem AgreesBut.linuxStep (h : AgreesBut m c) (hs : linuxStep c l a = some (c', l')) :
    linuxWrite m l a = linuxWrite c l a ∧
    linuxStep m l a = some (m.write (linuxWrite c l a), l') ∧
    AgreesBut (m.write (linuxWrite c l a)) c' := by
  have hwrite : linuxWrite m l a = linuxWrite c l a := by
    rw [h.eq]
    exact linuxWrite_with_output l a m.output
  have hstep : Tet4120.linuxStep m l a = some ({ c' with output := m.output }, l') := by
    rw [h.eq, linuxStep_with_output, hs]
    rfl
  have hmem : m.write (linuxWrite c l a) = { c' with output := m.output } := by
    have heq := linuxStep_eq_write hstep
    rw [hwrite] at heq
    exact heq.symm
  have hout : c'.output = c.output := by
    rcases linuxStep_cases hs with ⟨_, -, -, -, -, rfl, -⟩ | ⟨_, _, _, _, _, -, -, -, rfl, -⟩ |
      ⟨_, _, -, -, -, rfl, -⟩ | ⟨-, rfl, -⟩ <;> rfl
  refine ⟨hwrite, by rw [hmem]; exact hstep, by rw [hmem], fun i hi => ?_⟩
  rw [hmem, hout]
  rw [writeSlot_congr (linuxStep_ownWords hs).2] at hi
  exact h.output i hi

/-- **No step of Linux disturbs a call in progress.** -/
theorem Calling.linux {call : Call} {p : Prog Cell.Value Unit} (hfits : call.Fits)
    (hs : linuxStep c l a = some (c', l')) (h : Calling call p m c) :
    Calling call p (m.write (linuxWrite c l a)) c' := by
  have hcell : OwnCell c' = OwnCell c := by
    funext x
    simp only [OwnCell, writeSlot_congr (linuxStep_ownWords hs).2]
  have hwhole := call.stays_accesses c
  refine ⟨(h.agrees.linuxStep hs).2.2, ?_, ?_, h.before, h.unfinished⟩
  · have heffect := call.run_accesses hfits c'
    rw [linuxStep_eq_write hs] at heffect ⊢
    cases hw : linuxWrite c l a with
    | none => exact h.run
    | some w =>
      have hx := not_ownCell_of_byLinux (c := c) (byLinux_of_linuxWrite hw)
      rw [hw] at heffect
      have h₁ := h.stays.run_set handlerCells_lawful hx w.2
      have h₂ := hwhole.run_set handlerCells_lawful hx w.2
      rw [h.run] at h₁
      rw [call.run_accesses hfits c] at h₂
      exact h₁.trans (h₂.symm.trans heffect)
  · rw [hcell]
    cases hw : linuxWrite c l a with
    | none => exact h.stays
    | some w =>
      exact h.stays.set handlerCells_lawful (not_ownCell_of_byLinux (byLinux_of_linuxWrite hw)) w.2

end

/-! ### One step -/

theorem Shared.view_object (c : CommunicationHandler) : Shared.object.view c = c :=
  CommunicationHandler.ofCells_get c

theorem Shared.read_object (c : CommunicationHandler) : Shared.object.read c = c :=
  CommunicationHandler.ofCells_get c

theorem Shared.write_object (c : CommunicationHandler) (w : Option Write) :
    Shared.object.write c w = c.write w := by
  cases w <;> rfl

/-- Everything a step can do. -/
theorem Machine.step_cases {μ : Type} {M : Shared μ} {f g : Machine μ} {a : Machine.Action}
    (h : f.step M a = some g) :
    (∃ b c l, a = .linux b ∧ linuxStep (M.view f.memory) f.linux b = some (c, l) ∧
      g = { f with
        memory := M.write f.memory (linuxWrite (M.view f.memory) f.linux b)
        linux := l
        taken := f.taken ++ b.reads (M.view f.memory) }) ∨
    (∃ out, a = .receive out ∧ f.pc = .idle ∧
      g = { f with pc := .receiving out (receiveAccesses f.dest out) }) ∨
    (∃ out p q m, a = .access ∧ f.pc = .receiving out p ∧ p.next M.cpu1 f.memory = some (q, m) ∧
      g = continueReceive { f with memory := m } out q) ∨
    (∃ out n call p q m, a = .access ∧ f.pc = .calling out n call p ∧
      p.next M.cpu1 f.memory = some (q, m) ∧ g = continueCall { f with memory := m } out n call q) ∨
    (∃ k out n b, a = .peek k ∧ f.pc = .handling out n ∧ k < n.toNat ∧
      (M.read f.memory).inputByte (out.ppPacket + k) = some b ∧
      g = { f with peeked := f.peeked ++ [⟨f.handed.length - 1, k, b⟩] }) ∨
    (∃ data size out n dst, a = .transmit data size ∧ f.pc = .handling out n ∧
      destinationAt f.dest out.identifier = some dst ∧
      g = f.call out n (.transmit dst data size)) ∨
    (∃ out n, a = .release ∧ f.pc = .handling out n ∧ g = f.call out n .release) ∨
    (∃ x, a = .look x ∧
      (M.view f.memory).control.nOutputReadIndex ≠ (M.view f.memory).control.nOutputWriteIndex ∧
      g = { f with looked := f.looked ++ [⟨f.taken.length, x,
        ((M.view f.memory).output (M.view f.memory).outputReadSlot).get x⟩] }) := by
  cases a with
  | linux b =>
    obtain ⟨⟨c, l⟩, hw, rfl⟩ := Option.map_eq_some_iff.1 h
    exact Or.inl ⟨b, c, l, rfl, hw, rfl⟩
  | receive out =>
    cases hpc : f.pc with
    | idle =>
      simp only [step, hpc, Option.some.injEq] at h
      exact Or.inr (Or.inl ⟨out, rfl, rfl, h.symm⟩)
    | _ => simp [step, hpc] at h
  | access =>
    cases hpc : f.pc with
    | receiving out p =>
      simp only [step, hpc] at h
      obtain ⟨⟨q, m⟩, hn, rfl⟩ := Option.map_eq_some_iff.1 h
      exact Or.inr (Or.inr (Or.inl ⟨out, p, q, m, rfl, rfl, hn, rfl⟩))
    | calling out n call p =>
      simp only [step, hpc] at h
      obtain ⟨⟨q, m⟩, hn, rfl⟩ := Option.map_eq_some_iff.1 h
      exact Or.inr (Or.inr (Or.inr (Or.inl ⟨out, n, call, p, q, m, rfl, rfl, hn, rfl⟩)))
    | _ => simp [step, hpc] at h
  | peek k =>
    cases hpc : f.pc with
    | handling out n =>
      simp only [step, hpc] at h
      split_ifs at h with hk
      obtain ⟨b, hb, rfl⟩ := Option.map_eq_some_iff.1 h
      exact Or.inr (Or.inr (Or.inr (Or.inr (Or.inl ⟨k, out, n, b, rfl, rfl, hk, hb, rfl⟩))))
    | _ => simp [step, hpc] at h
  | transmit data size =>
    cases hpc : f.pc with
    | handling out n =>
      simp only [step, hpc] at h
      obtain ⟨dst, hdst, rfl⟩ := Option.map_eq_some_iff.1 h
      exact Or.inr (Or.inr (Or.inr (Or.inr (Or.inr (Or.inl
        ⟨data, size, out, n, dst, rfl, rfl, hdst, rfl⟩)))))
    | _ => simp [step, hpc] at h
  | release =>
    cases hpc : f.pc with
    | handling out n =>
      simp only [step, hpc, Option.some.injEq] at h
      exact Or.inr (Or.inr (Or.inr (Or.inr (Or.inr (Or.inr (Or.inl ⟨out, n, rfl, rfl, h.symm⟩))))))
    | _ => simp [step, hpc] at h
  | look x =>
    simp only [step] at h
    split_ifs at h with hne
    cases h
    exact Or.inr (Or.inr (Or.inr (Or.inr (Or.inr (Or.inr (Or.inr ⟨x, rfl, hne, rfl⟩))))))

/-- The step of `System` that takes effect: one of Linux, or a callback that makes its last access. -/
def Machine.label (f : Machine CommunicationHandler) : Machine.Action → Option Tet4120.Action
  | .linux b => some (.linux b)
  | .access =>
      match f.pc with
      | .receiving out p => (p.last? handlerCells f.memory).map fun _ => .receive out
      | .calling _ _ call p => (p.last? handlerCells f.memory).map fun _ => call.action
      | _ => none
  | _ => none

/-! ### The simulation -/

/-- The sender and the size of a packet. -/
def Message.header (m : Message) : DestinationStruct × UInt16 := (⟨m.address, m.port⟩, m.size)

/-- The cell of a slot that holds the packet may have this value. -/
def Message.Shows (m : Message) : (x : SlotCell) → x.Value → Prop
  | .address, v => v = m.address
  | .port, v => v = m.port
  | .dataLen, v => v = m.size
  | .byte k, v => ∀ b, m.data[k.val]? = some b → v = b

/-- What CPU1 made sure of before the call. -/
def Call.Ready (s : State) (d : Duplex) (out : ReceiveOut) : Call → Prop
  | .transmit dst _ size =>
      s.globals.destination out.identifier = some dst ∧ size.toNat ≤ bufferSize ∧
        d.output.items.length < ringCapacity
  | .release => True

/-- Where CPU1 is, and the memory. -/
inductive PcFollows (f : Machine CommunicationHandler) (s : State) (d : Duplex) : Prop
  | idle (hpc : f.pc = .idle) (hcpu : s.cpu1 = .idle) (hmem : f.memory = s.globals.commHandler)
  | receiving (out : ReceiveOut) (p : Prog Cell.Value Received) (hpc : f.pc = .receiving out p)
      (hcpu : s.cpu1 = .idle) (hmem : f.memory = s.globals.commHandler)
      (hcall : Receiving f.dest out p s.globals.commHandler)
  | handling (out : ReceiveOut) (n : UInt16) (hpc : f.pc = .handling out n)
      (hcpu : s.cpu1 = .handling out n) (hmem : f.memory = s.globals.commHandler)
  | calling (out : ReceiveOut) (n : UInt16) (call : Call) (p : Prog Cell.Value Unit)
      (hpc : f.pc = .calling out n call p) (hcpu : s.cpu1 = .handling out n)
      (hready : call.Ready s d out) (hcall : Calling call p f.memory s.globals.commHandler)

/-- The machine is where `System` is, and its observations are the history of that. -/
structure Follows (f : Machine CommunicationHandler) (s : State) (d : Duplex) : Prop where
  refines : Refines s d
  pc : PcFollows f s d
  dest : f.dest = s.globals.dest
  icdsgir : f.icdsgir = s.globals.icdsgir
  linux : f.linux = s.linux
  handed : f.handed = s.delivered.map Message.header
  peeked : ∀ q ∈ f.peeked, ∃ m, s.linux.enqueued[q.packet]? = some m ∧ m.data[q.offset]? = some q.byte
  sent : f.sent = f.taken ++ d.output.items
  looked : ∀ q ∈ f.looked, ∃ m, f.sent[q.reply]? = some m ∧ m.Shows q.cell q.value

theorem Packet.Carries.shows {p : Packet} {m : Message} (h : p.Carries m) (x : SlotCell) :
    m.Shows x (p.get x) := by
  cases x with
  | address => exact h.address
  | port => exact h.port
  | dataLen => exact h.size
  | byte k =>
    intro b hb
    obtain ⟨hk, rfl⟩ := List.getElem?_eq_some_iff.1 hb
    exact h.data k hk k.isLt

/-- The output queue gains the reply that is sent and loses the one that is taken. -/
theorem Refines.step {s t : State} {d : Duplex} {a : Action} (h : Refines s d) (hP : Allowed s a)
    (hs : step .prebuilt s a = some t) :
    ∃ e, Refines t e ∧
      d.output.items ++ (s.label a).toList.filterMap Duplex.Action.replied
        = (s.label a).toList.filterMap Duplex.Action.taken ++ e.output.items := by
  have hsim := duplex_simulation CommLibrary.prebuilt_documented CommLibrary.prebuilt_sends
  cases hl : s.label a with
  | none => exact ⟨d, hsim.stutter h hP hs hl, by simp⟩
  | some k =>
    obtain ⟨e, he, hR⟩ := hsim.move h hP hs hl
    exact ⟨e, hR, Duplex.replied_eq (Steps.run_cons_eq_some.2 ⟨e, he, rfl⟩)⟩

/-- `ReceiveWtcpPacket` neither sends nor takes a reply. -/
theorem Refines.receive_step {s t : State} {d : Duplex} {out : ReceiveOut} (h : Refines s d)
    (hs : Tet4120.step .prebuilt s (.receive out) = some t) :
    ∃ e, Refines t e ∧ e.output.items = d.output.items := by
  have hallowed : Allowed s (.receive out) := trivial
  obtain ⟨e, hR, hout⟩ := h.step hallowed hs
  have hlabel : (s.label (.receive out)).toList.filterMap Duplex.Action.replied = [] ∧
      (s.label (.receive out)).toList.filterMap Duplex.Action.taken = [] := by
    simp only [State.label]
    split_ifs
    · exact ⟨rfl, rfl⟩
    · cases (receiveWtcpPacket s.globals out).globals.view (receiveWtcpPacket s.globals out).out
        (receiveWtcpPacket s.globals out).size <;> exact ⟨rfl, rfl⟩
  rw [hlabel.1, hlabel.2, List.append_nil, List.nil_append] at hout
  exact ⟨e, hR, hout.symm⟩

theorem receiveWtcpPacket_icdsgir (g : Globals) (out : ReceiveOut) :
    (receiveWtcpPacket g out).globals.icdsgir = g.icdsgir := by
  unfold receiveWtcpPacket; dsimp only; split_ifs <;> rfl

theorem Globals.view_header (g : Globals) (out : ReceiveOut) (n : UInt16) :
    (g.view out n).map Message.header
      = (destinationAt g.dest out.identifier).map fun dst => (dst, n) := by
  unfold Globals.view
  rw [Option.map_map]
  rfl

namespace Follows

variable {f g : Machine CommunicationHandler} {s : State} {d : Duplex}

theorem agrees (h : Follows f s d) : AgreesBut f.memory s.globals.commHandler := by
  cases h.pc with
  | calling out n call p hpc hcpu hready hcall => exact hcall.agrees
  | _ => rename f.memory = _ => hmem; rw [hmem]; exact .refl _

theorem idle (h : Follows f s d) (hpc : f.pc = .idle) :
    s.cpu1 = .idle ∧ f.memory = s.globals.commHandler := by
  cases h.pc with
  | idle _ hcpu hm => exact ⟨hcpu, hm⟩
  | _ => rename f.pc = _ => hpc'; rw [hpc] at hpc'; cases hpc'

theorem receiving (h : Follows f s d) {out : ReceiveOut} {p : Prog Cell.Value Received}
    (hpc : f.pc = .receiving out p) :
    s.cpu1 = .idle ∧ f.memory = s.globals.commHandler ∧
      Receiving f.dest out p s.globals.commHandler := by
  cases h.pc with
  | receiving _ _ hpc' hcpu hm hcall =>
    rw [hpc] at hpc'
    cases hpc'
    exact ⟨hcpu, hm, hcall⟩
  | _ => rename f.pc = _ => hpc'; rw [hpc] at hpc'; cases hpc'

theorem handling (h : Follows f s d) {out : ReceiveOut} {n : UInt16}
    (hpc : f.pc = .handling out n) :
    s.cpu1 = .handling out n ∧ f.memory = s.globals.commHandler := by
  cases h.pc with
  | handling _ _ hpc' hcpu hm =>
    rw [hpc] at hpc'
    cases hpc'
    exact ⟨hcpu, hm⟩
  | _ => rename f.pc = _ => hpc'; rw [hpc] at hpc'; cases hpc'

theorem calling (h : Follows f s d) {out : ReceiveOut} {n : UInt16} {call : Call}
    {p : Prog Cell.Value Unit} (hpc : f.pc = .calling out n call p) :
    s.cpu1 = .handling out n ∧ call.Ready s d out ∧
      Calling call p f.memory s.globals.commHandler := by
  cases h.pc with
  | calling _ _ _ _ hpc' hcpu hready hcall =>
    rw [hpc] at hpc'
    cases hpc'
    exact ⟨hcpu, hready, hcall⟩
  | _ => rename f.pc = _ => hpc'; rw [hpc] at hpc'; cases hpc'

/-- CPU1 does not write the slot that Linux reads. -/
theorem output_outputReadSlot (h : Follows f s d)
    (hne : f.memory.control.nOutputReadIndex ≠ f.memory.control.nOutputWriteIndex) :
    d.output.items ≠ [] ∧ f.memory.output f.memory.outputReadSlot
      = s.globals.commHandler.output s.globals.commHandler.outputReadSlot := by
  have hcontrol : f.memory.control = s.globals.commHandler.control := by rw [h.agrees.eq]
  rw [hcontrol] at hne
  obtain ⟨base, hring⟩ := h.refines.output
  have hitems := hring.index_ne_iff.1 hne
  have hroom := hring.window.room
  have hslot : s.globals.commHandler.outputReadSlot ≠ s.globals.commHandler.control.writeSlot := by
    rw [hring.outputReadSlot_eq, hring.writeSlot_eq]
    exact hring.window.ofNat_ne_of_lt (Nat.zero_le 0) (List.length_pos_iff_ne_nil.2 hitems)
  have hread : f.memory.outputReadSlot = s.globals.commHandler.outputReadSlot := by
    simp only [CommunicationHandler.outputReadSlot, hcontrol]
  exact ⟨hitems, by rw [hread, h.agrees.output _ hslot]⟩

/-- Linux takes the reply that `System` has it take. -/
theorem reads_eq (h : Follows f s d) {b : LinuxAction} {c : CommunicationHandler} {l : Linux}
    (hb : linuxStep s.globals.commHandler s.linux b = some (c, l)) :
    b.reads f.memory = (s.label (.linux b)).toList.filterMap Duplex.Action.taken := by
  cases b with
  | test m => rfl
  | fill f => rfl
  | publish =>
    simp only [State.label]
    split <;> rfl
  | dequeue =>
    have hcontrol : f.memory.control = s.globals.commHandler.control := by rw [h.agrees.eq]
    have hne : f.memory.control.nOutputReadIndex ≠ f.memory.control.nOutputWriteIndex := by
      rw [hcontrol]
      intro heq
      simp [linuxStep, heq] at hb
    show [(f.memory.output f.memory.outputReadSlot).toMessage]
      = [(s.globals.commHandler.output s.globals.commHandler.outputReadSlot).toMessage]
    rw [(h.output_outputReadSlot hne).2]

/-- A step of Linux. -/
theorem linux_step (h : Follows f s d) {b : LinuxAction} {m : CommunicationHandler} {l : Linux}
    (hP : ∀ x, b = .test x → x.WellFormed) (hb : linuxStep f.memory f.linux b = some (m, l)) :
    ∃ t e, step .prebuilt s (.linux b) = some t ∧
      Follows { f with
        memory := f.memory.write (linuxWrite f.memory f.linux b)
        linux := l
        taken := f.taken ++ b.reads f.memory } t e := by
  -- the same step on the memory of `System`
  obtain ⟨c, hc⟩ : ∃ c, linuxStep s.globals.commHandler s.linux b = some (c, l) := by
    rw [h.agrees.eq, h.linux, linuxStep_with_output] at hb
    obtain ⟨⟨c, l'⟩, hc, heq⟩ := Option.map_eq_some_iff.1 hb
    cases heq
    exact ⟨c, hc⟩
  have hs : step .prebuilt s (.linux b)
      = some { s with globals := { s.globals with commHandler := c }, linux := l } := by
    rw [step, hc]
    rfl
  have hallowed : Allowed s (.linux b) := by
    cases b with
    | test x => exact hP x rfl
    | _ => trivial
  obtain ⟨e, hR, hout⟩ := h.refines.step hallowed hs
  have hreads := h.reads_eq hc
  have hnone : (s.label (.linux b)).toList.filterMap Duplex.Action.replied = [] := by
    cases b with
    | publish => simp only [State.label]; split <;> rfl
    | _ => rfl
  rw [hnone, List.append_nil, ← hreads] at hout
  obtain ⟨hwrite, -, -⟩ := h.agrees.linuxStep hc
  refine ⟨_, e, hs, hR, ?_, h.dest, h.icdsgir, rfl, h.handed, fun q hq => ?_, ?_, h.looked⟩
  · rw [h.linux, hwrite]
    have hmem : f.memory = s.globals.commHandler →
        f.memory.write (linuxWrite s.globals.commHandler s.linux b) = c := by
      intro hmem
      rw [hmem]
      exact (linuxStep_eq_write hc).symm
    cases h.pc with
    | idle hpc hcpu hm => exact .idle hpc hcpu (hmem hm)
    | receiving out p hpc hcpu hm hcall =>
      exact .receiving out p hpc hcpu (hmem hm) (hcall.linux h.refines.inv.ring hc)
    | handling out n hpc hcpu hm => exact .handling out n hpc hcpu (hmem hm)
    | calling out n call p hpc hcpu hready hcall =>
      have hfits : call.Fits ∧ call.Ready { s with
          globals := { s.globals with commHandler := c }, linux := l } e out := by
        cases call with
        | transmit dst data size =>
          obtain ⟨hdst, hsize, hroom⟩ := hready
          have hlen := congrArg List.length hout
          rw [List.length_append] at hlen
          exact ⟨hsize, hdst, hsize, by omega⟩
        | release => exact ⟨trivial, trivial⟩
      exact .calling out n call p hpc hcpu hfits.2 (hcall.linux hfits.1 hc)
  · obtain ⟨x, hx, hbyte⟩ := h.peeked q hq
    exact ⟨x, getElem?_mono (linuxStep_enqueued hc) hx, hbyte⟩
  · rw [h.sent, List.append_assoc, ← hout]

/-! #### CPU1 -/

/-- CPU1 begins to look for a packet. -/
theorem receive_call (h : Follows f s d) (hpc : f.pc = .idle) (out : ReceiveOut) :
    Follows { f with pc := .receiving out (receiveAccesses f.dest out) } s d := by
  obtain ⟨hcpu, hm⟩ := h.idle hpc
  exact ⟨h.refines, .receiving out _ rfl hcpu hm (.begin f.dest out _), h.dest, h.icdsgir, h.linux,
    h.handed, h.peeked, h.sent, h.looked⟩

/-- An access of `ReceiveWtcpPacket` that is not the last one. -/
theorem receive_access (h : Follows f s d) {out : ReceiveOut} {p q : Prog Cell.Value Received}
    {m : CommunicationHandler} (hpc : f.pc = .receiving out p)
    (hn : p.next handlerCells f.memory = some (q, m)) (hq : q.result? = none) :
    Follows { f with memory := m, pc := .receiving out q } s d := by
  obtain ⟨hcpu, hm, hcall⟩ := h.receiving hpc
  rw [hm] at hn
  obtain ⟨rfl, hnext⟩ := hcall.next hn hq
  exact ⟨h.refines, .receiving out q rfl hcpu rfl hnext, h.dest, h.icdsgir, h.linux, h.handed,
    h.peeked, h.sent, h.looked⟩

/-- The last access of `ReceiveWtcpPacket`: in `System` the call is made now. -/
theorem receive_return (h : Follows f s d) {out : ReceiveOut} {p q : Prog Cell.Value Received}
    {m : CommunicationHandler} {r : Received} (hpc : f.pc = .receiving out p)
    (hn : p.next handlerCells f.memory = some (q, m)) (hq : q.result? = some r) :
    ∃ t e, step .prebuilt s (.receive out) = some t ∧
      Follows (Machine.continueReceive { f with memory := m } out q) t e := by
  obtain ⟨hcpu, hm, hcall⟩ := h.receiving hpc
  rw [hm] at hn
  have hrun := (Prog.run_of_result? hq m).symm.trans ((Prog.run_next hn).trans hcall.run)
  rw [h.dest, run_receiveAccesses s.globals out, receiveWtcpPacket_commHandler] at hrun
  obtain ⟨rfl, rfl⟩ := Prod.mk.inj (Option.some.inj hrun)
  by_cases hsize : (receiveWtcpPacket s.globals out).size = 0
  · have hs : step .prebuilt s (.receive out) = some { s with
        globals := (receiveWtcpPacket s.globals out).globals, services := s.services + 1 } := by
      simp only [step, hcpu]
      exact if_pos hsize
    obtain ⟨e, hR, hout⟩ := h.refines.receive_step hs
    refine ⟨_, e, hs, ?_⟩
    simp only [Machine.continueReceive, hq, hsize, if_true]
    refine ⟨hR, .idle rfl hcpu ?_, rfl, ?_, h.linux, h.handed, h.peeked, ?_,
      h.looked⟩
    · exact receiveWtcpPacket_commHandler.symm
    · rw [receiveWtcpPacket_icdsgir]; exact h.icdsgir
    · rw [hout]; exact h.sent
  · have hs : step .prebuilt s (.receive out) = some { s with
        globals := (receiveWtcpPacket s.globals out).globals
        cpu1 := .handling (receiveWtcpPacket s.globals out).out
          (receiveWtcpPacket s.globals out).size
        delivered := s.delivered ++ ((receiveWtcpPacket s.globals out).globals.view
          (receiveWtcpPacket s.globals out).out (receiveWtcpPacket s.globals out).size).toList } := by
      simp only [step, hcpu]
      exact if_neg hsize
    obtain ⟨e, hR, hout⟩ := h.refines.receive_step hs
    refine ⟨_, e, hs, ?_⟩
    simp only [Machine.continueReceive, hq, hsize, if_false]
    refine ⟨hR, .handling _ _ rfl rfl ?_, rfl, ?_, h.linux, ?_, h.peeked, ?_, h.looked⟩
    · exact receiveWtcpPacket_commHandler.symm
    · rw [receiveWtcpPacket_icdsgir]; exact h.icdsgir
    · rw [h.handed, List.map_append, ← Option.toList_map, Globals.view_header]
    · rw [hout]; exact h.sent

/-- Wtcp reads a byte of the packet it holds. -/
theorem peek (h : Follows f s d) {k : ℕ} {out : ReceiveOut} {n : UInt16} {b : UInt8}
    (hpc : f.pc = .handling out n) (hk : k < n.toNat)
    (hb : f.memory.inputByte (out.ppPacket + k) = some b) :
    Follows { f with peeked := f.peeked ++ [⟨f.handed.length - 1, k, b⟩] } s d := by
  obtain ⟨hcpu, hm⟩ := h.handling hpc
  refine ⟨h.refines, .handling out n hpc hcpu hm, h.dest, h.icdsgir, h.linux, h.handed,
    fun q hq => ?_, h.sent, h.looked⟩
  rcases List.mem_append.1 hq with hold | hnew
  · exact h.peeked q hold
  · rw [List.mem_singleton] at hnew
    subst hnew
    have hh := h.refines.inv.cpu1.handling hcpu
    have hlast := hh.lt
    have hget : s.linux.enqueued[s.released]? = some s.linux.enqueued[s.released] :=
      List.getElem?_eq_getElem hlast
    obtain ⟨rfl, -⟩ := hh.head _ hget
    have hcarry := h.refines.inv.ring.window.head hlast
    have hwf := h.refines.wellFormed.enqueued _ (List.getElem_mem hlast)
    have hlen := hwf.length_eq
    have hsize := hwf.size_le
    have hlt : k < bufferSize := by omega
    have hcount : f.handed.length - 1 = s.released := by
      rw [h.handed, List.length_map, hh.delivered, Nat.add_sub_cancel]
    rw [hm, hh.ppPacket, inputByte_dataAddress _ _ ⟨k, hlt⟩,
      hcarry.data k (by omega) hlt] at hb
    refine ⟨_, by rw [hcount]; exact hget, ?_⟩
    rw [← Option.some.inj hb]
    exact List.getElem?_eq_getElem _

/-- Linux reads a cell of the reply that it takes next. -/
theorem look (h : Follows f s d) (x : SlotCell)
    (hne : f.memory.control.nOutputReadIndex ≠ f.memory.control.nOutputWriteIndex) :
    Follows { f with looked := f.looked ++ [⟨f.taken.length, x,
      (f.memory.output f.memory.outputReadSlot).get x⟩] } s d := by
  have hpc : PcFollows { f with looked := f.looked ++ [⟨f.taken.length, x,
      (f.memory.output f.memory.outputReadSlot).get x⟩] } s d := by
    cases h.pc with
    | idle hpc hcpu hm => exact .idle hpc hcpu hm
    | receiving out p hpc hcpu hm hcall => exact .receiving out p hpc hcpu hm hcall
    | handling out n hpc hcpu hm => exact .handling out n hpc hcpu hm
    | calling out n call p hpc hcpu hready hcall =>
      exact .calling out n call p hpc hcpu hready hcall
  refine ⟨h.refines, hpc, h.dest, h.icdsgir, h.linux, h.handed, h.peeked, h.sent, fun q hq => ?_⟩
  rcases List.mem_append.1 hq with hold | hnew
  · exact h.looked q hold
  · rw [List.mem_singleton] at hnew
    subst hnew
    obtain ⟨hitems, hslot⟩ := h.output_outputReadSlot hne
    obtain ⟨base, hring⟩ := h.refines.output
    have hlt := List.length_pos_iff_ne_nil.2 hitems
    refine ⟨d.output.items[0], ?_, ?_⟩
    · rw [h.sent, List.getElem?_append_right (Nat.le_refl _), Nat.sub_self]
      exact List.getElem?_eq_getElem hlt
    · show Message.Shows _ x ((f.memory.output f.memory.outputReadSlot).get x)
      rw [hslot, hring.outputReadSlot_eq]
      exact (hring.window.head hlt).shows x

/-- CPU1 begins a call while it holds a packet. -/
theorem call (h : Follows f s d) {out : ReceiveOut} {n : UInt16} {call : Call}
    (hpc : f.pc = .handling out n) (hfits : call.Fits)
    (hready : f.memory = s.globals.commHandler → call.Ready s d out) :
    Follows (f.call out n call) s d := by
  obtain ⟨hcpu, hm⟩ := h.handling hpc
  have hcall : Calling call call.accesses f.memory s.globals.commHandler := by
    rw [hm]
    exact .begin hfits _
  exact ⟨h.refines, .calling out n call _ rfl hcpu (hready hm) hcall, h.dest, h.icdsgir, h.linux,
    h.handed, h.peeked, h.sent, h.looked⟩

/-- CPU1 begins to reply. -/
theorem transmit_call (h : Follows f s d) {out : ReceiveOut} {n : UInt16} {dst : DestinationStruct}
    {data : ℕ → UInt8} {size : UInt16} (hpc : f.pc = .handling out n)
    (hdst : destinationAt f.dest out.identifier = some dst)
    (hP : f.Permitted .object (.transmit data size)) :
    Follows (f.call out n (.transmit dst data size)) s d := by
  obtain ⟨hsize, hroom⟩ := hP
  rw [Shared.read_object] at hroom
  refine h.call hpc hsize fun hm => ⟨?_, hsize, ?_⟩
  · rw [h.dest] at hdst
    exact hdst
  · obtain ⟨base, hring⟩ := h.refines.output
    rw [hm] at hroom
    exact hring.room_iff.1 hroom

/-- An access of a call that is not the last one. -/
theorem call_access (h : Follows f s d) {out : ReceiveOut} {n : UInt16} {call : Call}
    {p q : Prog Cell.Value Unit} {m : CommunicationHandler} (hpc : f.pc = .calling out n call p)
    (hn : p.next handlerCells f.memory = some (q, m)) (hq : q.result? = none) :
    Follows { f with memory := m, pc := .calling out n call q } s d := by
  obtain ⟨hcpu, hready, hcall⟩ := h.calling hpc
  exact ⟨h.refines, .calling out n call q rfl hcpu hready (hcall.next hn hq), h.dest, h.icdsgir,
    h.linux, h.handed, h.peeked, h.sent, h.looked⟩

/-- The last access of a call: in `System` the call is made now. -/
theorem call_return (h : Follows f s d) {out : ReceiveOut} {n : UInt16} {call : Call}
    {p q : Prog Cell.Value Unit} {m : CommunicationHandler} (hpc : f.pc = .calling out n call p)
    (hn : p.next handlerCells f.memory = some (q, m)) (hq : q.result? = some ()) :
    ∃ t e, step .prebuilt s call.action = some t ∧
      Follows (Machine.continueCall { f with memory := m } out n call q) t e := by
  obtain ⟨hcpu, hready, hcall⟩ := h.calling hpc
  have hm := hcall.last hn hq
  cases call with
  | transmit dst data size =>
    obtain ⟨hdst, hsize, hroom⟩ := hready
    have hallowed : Allowed s (.transmit data size) := by
      obtain ⟨base, hring⟩ := h.refines.output
      exact ⟨hsize, hring.room_iff.2 hroom⟩
    have hs : step .prebuilt s (.transmit data size) = some { s with
        globals := { s.globals with
          commHandler := CommLibrary.prebuilt.addPacket s.globals.commHandler dst.address dst.port
            size data
          icdsgir := generateSwIrq0 :: s.globals.icdsgir } } := by
      simp only [step, hcpu, transmitWtcpPacket, hdst, Option.map_some]
    obtain ⟨e, hR, hout⟩ := h.refines.step hallowed hs
    have hlabel : s.label (.transmit data size)
        = some (.reply ⟨dst.address, dst.port, size, (List.range size.toNat).map data⟩) := by
      simp only [State.label, hcpu, hdst, Option.map_some]
    rw [hlabel] at hout
    refine ⟨_, e, hs, ?_⟩
    simp only [Machine.continueCall, hq]
    refine ⟨hR, .handling out n rfl hcpu hm, h.dest, ?_, h.linux, h.handed, h.peeked, ?_,
      fun q hq => ?_⟩
    · rw [h.icdsgir]
    · rw [h.sent, List.append_assoc]
      exact congrArg (f.taken ++ ·) hout
    · obtain ⟨x, hx, hshows⟩ := h.looked q hq
      exact ⟨x, getElem?_mono (List.prefix_append _ _) hx, hshows⟩
  | release =>
    have hs : step .prebuilt s .release = some { s with
        globals := releaseWtcpPacket .prebuilt s.globals out.identifier
        cpu1 := .idle
        released := s.released + 1
        services := s.services + 1 } := by
      simp only [step, hcpu]
    have hallowed : Allowed s .release := trivial
    obtain ⟨e, hR, hout⟩ := h.refines.step hallowed hs
    have hitems : d.output.items = e.output.items := by
      rw [← List.append_nil d.output.items]
      exact hout
    refine ⟨_, e, hs, ?_⟩
    simp only [Machine.continueCall, hq]
    exact ⟨hR, .idle rfl rfl hm, h.dest, h.icdsgir, h.linux, h.handed, h.peeked,
      hitems ▸ h.sent, h.looked⟩

/-- No callback faults. -/
theorem access_isSome (h : Follows f s d) (hpc : f.pc.running = true) :
    (f.step .object .access).isSome = true := by
  cases hf : f.pc with
  | receiving out p =>
    obtain ⟨-, hm, hcall⟩ := h.receiving hf
    have hrun := hcall.run
    rw [h.dest, run_receiveAccesses s.globals out] at hrun
    obtain ⟨q, m, hn⟩ := Prog.exists_next hrun hcall.unfinished
    rw [← hm] at hn
    simp only [Machine.step, hf]
    rw [show Shared.object.cpu1 = handlerCells from rfl, hn]
    rfl
  | calling out n call p =>
    obtain ⟨-, -, hcall⟩ := h.calling hf
    obtain ⟨q, m, hn⟩ := Prog.exists_next hcall.run hcall.unfinished
    simp only [Machine.step, hf]
    rw [show Shared.object.cpu1 = handlerCells from rfl, hn]
    rfl
  | _ => rw [hf] at hpc; cases hpc

end Follows

/-- **The machine follows `System`, where a callback is one step, taken with its last access.** -/
theorem machine_simulation :
    Steps.Simulation (Machine.step .object) (step .prebuilt) Machine.label
      (Machine.Permitted .object) (fun f s => ∃ d, Follows f s d) where
  stutter := by
    rintro f a g s ⟨d, h⟩ hP hs hlabel
    rcases Machine.step_cases hs with ⟨b, c, l, rfl, -⟩ | ⟨out, rfl, hpc, rfl⟩ |
      ⟨out, p, q, m, rfl, hpc, hn, rfl⟩ | ⟨out, n, call, p, q, m, rfl, hpc, hn, rfl⟩ |
      ⟨k, out, n, b, rfl, hpc, hk, hb, rfl⟩ | ⟨data, size, out, n, dst, rfl, hpc, hdst, rfl⟩ |
      ⟨out, n, rfl, hpc, rfl⟩ | ⟨x, rfl, hne, rfl⟩
    · cases hlabel
    · exact ⟨d, h.receive_call hpc out⟩
    · have hq : q.result? = none := by
        rw [Machine.label, hpc] at hlabel
        exact (Prog.last?_of_next hn).symm.trans (Option.map_eq_none_iff.1 hlabel)
      simp only [Machine.continueReceive, hq]
      exact ⟨d, h.receive_access hpc hn hq⟩
    · have hq : q.result? = none := by
        rw [Machine.label, hpc] at hlabel
        exact (Prog.last?_of_next hn).symm.trans (Option.map_eq_none_iff.1 hlabel)
      simp only [Machine.continueCall, hq]
      exact ⟨d, h.call_access hpc hn hq⟩
    · rw [Shared.read_object] at hb
      exact ⟨d, h.peek hpc hk hb⟩
    · exact ⟨d, h.transmit_call hpc hdst hP⟩
    · exact ⟨d, h.call hpc trivial fun _ => trivial⟩
    · rw [Shared.view_object] at hne ⊢
      exact ⟨d, h.look x hne⟩
  move := by
    rintro f a g s k ⟨d, h⟩ hP hs hlabel
    rcases Machine.step_cases hs with ⟨b, c, l, rfl, hb, rfl⟩ | ⟨out, rfl, -⟩ |
      ⟨out, p, q, m, rfl, hpc, hn, rfl⟩ | ⟨out, n, call, p, q, m, rfl, hpc, hn, rfl⟩ |
      ⟨k, out, n, b, rfl, -⟩ | ⟨data, size, out, n, dst, rfl, -⟩ | ⟨out, n, rfl, -⟩ | ⟨x, rfl, -⟩
    · cases hlabel
      rw [Shared.view_object] at hb ⊢
      rw [Shared.write_object]
      have hwf : ∀ x, b = .test x → x.WellFormed := by
        rintro x rfl
        exact hP
      obtain ⟨t, e, ht, hF⟩ := h.linux_step hwf hb
      exact ⟨t, ht, e, hF⟩
    · cases hlabel
    · rw [Machine.label, hpc] at hlabel
      obtain ⟨r, hlast, rfl⟩ := Option.map_eq_some_iff.1 hlabel
      obtain ⟨t, e, ht, hF⟩ := h.receive_return hpc hn ((Prog.last?_of_next hn).symm.trans hlast)
      exact ⟨t, ht, e, hF⟩
    · rw [Machine.label, hpc] at hlabel
      obtain ⟨r, hlast, rfl⟩ := Option.map_eq_some_iff.1 hlabel
      obtain ⟨t, e, ht, hF⟩ := h.call_return hpc hn ((Prog.last?_of_next hn).symm.trans hlast)
      exact ⟨t, ht, e, hF⟩
    · cases hlabel
    · cases hlabel
    · cases hlabel
    · cases hlabel

/-- The machine on the object as the constructors leave it. -/
def Machine.constructed (g : Globals) : Machine CommunicationHandler :=
  .start (Tet4120.start g).globals.commHandler g

theorem follows_constructed (g : Globals) : Follows (.constructed g) (start g) .empty where
  refines := refines_start g
  pc := .idle rfl rfl rfl
  dest := rfl
  icdsgir := rfl
  linux := rfl
  handed := rfl
  peeked _ hq := by cases hq
  sent := rfl
  looked _ hq := by cases hq

/-- **Every run of the callbacks interleaved with Linux access by access is a run in which each
callback is one step, and no callback faults.** -/
theorem callbacks_atomic (g : Globals) {as : List Machine.Action} {f : Machine CommunicationHandler}
    (hP : Steps.Along (Machine.step .object) (Machine.Permitted .object) (.constructed g) as)
    (hrun : Steps.run (Machine.step .object) (.constructed g) as = some f) :
    ∃ s d, Steps.run (step .prebuilt) (start g)
        (Steps.trace (Machine.step .object) Machine.label (.constructed g) as) = some s ∧
      Follows f s d ∧ (f.pc.running = true → (f.step .object .access).isSome = true) := by
  obtain ⟨s, hs, d, hF⟩ := machine_simulation.run ⟨_, follows_constructed g⟩ hP hrun
  exact ⟨s, d, hs, hF, hF.access_isSome⟩

/-- Linux publishes a packet between the two loads of `IsEmpty()`, and begins the next one in the
middle of `AddPacket`; it takes the reply before the packet is released. -/
def interleavedRun : List Machine.Action :=
  List.flatten [
    [.linux (.test onePacket), .linux (.fill .address), .receive ⟨0, 0⟩, .access,
      .linux (.fill .port), .linux (.fill .size), .linux (.fill .byte), .linux .publish],
    List.replicate 12 .access, [.peek 0, .transmit (fun _ => 0x2A) 1], List.replicate 4 .access,
    [.linux (.test onePacket), .linux (.fill .byte)], List.replicate 5 .access,
    [.release, .access, .look (.byte ⟨0, by decide⟩), .linux .dequeue, .access, .access]]

instance {μ : Type} (M : Shared μ) (f : Machine μ) : ∀ a, Decidable (f.Permitted M a)
  | .linux (.test m) => inferInstanceAs (Decidable m.WellFormed)
  | .linux (.fill _) => isTrue trivial
  | .linux .publish => isTrue trivial
  | .linux .dequeue => isTrue trivial
  | .receive _ => isTrue trivial
  | .access => isTrue trivial
  | .peek _ => isTrue trivial
  | .transmit _ _ => inferInstanceAs (Decidable (_ ∧ _))
  | .release => isTrue trivial
  | .look _ => isTrue trivial

theorem interleavedRun_permitted :
    Steps.Along (Machine.step .object) (Machine.Permitted .object) (.constructed zeroGlobals)
      interleavedRun := by
  decide +kernel

theorem interleavedRun_isSome :
    (Steps.run (Machine.step .object) (.constructed zeroGlobals) interleavedRun).isSome = true := by
  decide +kernel

theorem callbacks_atomic_interleavedRun :
    ∃ f s d, Steps.run (Machine.step .object) (.constructed zeroGlobals) interleavedRun = some f ∧
      Steps.run (step .prebuilt) (start zeroGlobals)
        (Steps.trace (Machine.step .object) Machine.label (.constructed zeroGlobals) interleavedRun)
          = some s ∧ Follows f s d := by
  obtain ⟨f, hf⟩ := Option.isSome_iff_exists.1 interleavedRun_isSome
  obtain ⟨s, d, hs, hF, -⟩ := callbacks_atomic zeroGlobals interleavedRun_permitted hf
  exact ⟨f, s, d, hf, hs, hF⟩

end Tet4120

import Tet4120Lab.Comm.CommInterface

/-!
# The Linux side of the packet rings

Linux enqueues a packet in steps of its own: it tests that `m_nInputWriteIndex + 1` modulo
`NUM_RECEIVE_BUFFERS` differs from `m_nInputReadIndex`, fills the slot at `m_nInputWriteIndex`
field by field and byte by byte, in any order of the fields, and publishes it by advancing
`m_nInputWriteIndex`.  It takes packets from the output ring by advancing `m_nOutputReadIndex`.

* `linuxStep`: one such step on the shared memory and the state of Linux;
* `RingInv`: the invariant that ties both input indices, the slots and a half-filled slot to the
  sequence `enqueued` of published packets and the number `released` of packets CPU1 gave back;
* `RingInv.linuxStep`: every step of Linux keeps it.
-/

namespace Tet4120

/-- A packet as Linux enqueues it and as Wtcp receives it. -/
structure Message where
  address : UInt32
  port : UInt16
  size : UInt16
  data : List UInt8
  deriving DecidableEq

/-- A size in `1..0x2000`, and as many bytes. -/
structure Message.WellFormed (m : Message) : Prop where
  size_pos : 0 < m.size.toNat
  size_le : m.size.toNat ≤ bufferSize
  length_eq : m.data.length = m.size.toNat

/-- A slot holds the message `m`; the bytes after its data are unconstrained. -/
structure Packet.Carries (p : Packet) (m : Message) : Prop where
  address : p.address = m.address
  port : p.port = m.port
  size : p.dataLen = m.size
  data : ∀ (i : ℕ) (hi : i < m.data.length) (hb : i < bufferSize), p.data ⟨i, hb⟩ = m.data[i]

/-! ### Filling a slot -/

/-- What Linux has written of the current packet. -/
structure Progress where
  address : Bool
  port : Bool
  size : Bool
  bytes : ℕ

/-- The part of a slot one store writes. -/
inductive Field
  | address
  | port
  | size
  | byte

/-- One store of the message `m` into the slot `p`. -/
def Packet.fill (p : Packet) (m : Message) (d : Progress) : Field → Option (Packet × Progress)
  | .address => some ({ p with address := m.address }, { d with address := true })
  | .port => some ({ p with port := m.port }, { d with port := true })
  | .size => some ({ p with dataLen := m.size }, { d with size := true })
  | .byte => (m.data[d.bytes]?).map fun b =>
      ({ p with data := fun k => if k.val = d.bytes then b else p.data k },
        { d with bytes := d.bytes + 1 })

/-- All of `m` is written. -/
def Progress.complete (d : Progress) (m : Message) : Bool :=
  d.address && d.port && d.size && d.bytes == m.data.length

/-- The slot agrees with `m` on what is written. -/
structure Packet.Written (p : Packet) (m : Message) (d : Progress) : Prop where
  address : d.address = true → p.address = m.address
  port : d.port = true → p.port = m.port
  size : d.size = true → p.dataLen = m.size
  data : ∀ (i : ℕ) (hi : i < m.data.length) (hb : i < bufferSize), i < d.bytes →
    p.data ⟨i, hb⟩ = m.data[i]

theorem Packet.written_none (p : Packet) (m : Message) : p.Written m ⟨false, false, false, 0⟩ where
  address h := by cases h
  port h := by cases h
  size h := by cases h
  data _ _ _ h := by cases h

theorem Packet.Written.fill {p p' : Packet} {m : Message} {d d' : Progress} {f : Field}
    (h : p.Written m d) (hf : p.fill m d f = some (p', d')) : p'.Written m d' := by
  cases f with
  | address => cases hf; exact ⟨fun _ => rfl, h.port, h.size, h.data⟩
  | port => cases hf; exact ⟨h.address, fun _ => rfl, h.size, h.data⟩
  | size => cases hf; exact ⟨h.address, h.port, fun _ => rfl, h.data⟩
  | byte =>
    obtain ⟨b, hb, heq⟩ := Option.map_eq_some_iff.1 hf
    cases heq
    obtain ⟨hlt, rfl⟩ := List.getElem?_eq_some_iff.1 hb
    refine ⟨h.address, h.port, h.size, fun i hi hbuf hdone => ?_⟩
    by_cases hi' : i = d.bytes
    · subst hi'; simp
    · simp only [hi', if_false]
      exact h.data i hi hbuf (by simp only at hdone; omega)

theorem Packet.Written.carries {p : Packet} {m : Message} {d : Progress} (h : p.Written m d)
    (hd : d.complete m = true) : p.Carries m := by
  simp only [Progress.complete, Bool.and_eq_true, beq_iff_eq] at hd
  obtain ⟨⟨⟨ha, hp⟩, hs⟩, hbytes⟩ := hd
  exact ⟨h.address ha, h.port hp, h.size hs, fun i hi hb => h.data i hi hb (by omega)⟩

/-! ### Steps -/

/-- Where Linux is: between two packets, or filling the slot of `m`. -/
inductive LinuxPc
  | idle
  | filling (m : Message) (done : Progress)

/-- The state of Linux, with the sequence of all packets it has published. -/
structure Linux where
  pc : LinuxPc
  enqueued : List Message

/-- A step of Linux. -/
inductive LinuxAction
  | test (m : Message)
  | fill (f : Field)
  | publish
  | dequeue

/-- The slot at `m_nInputWriteIndex`. -/
def CommunicationHandler.inputWriteSlot (c : CommunicationHandler) : Fin numReceiveBuffers :=
  Fin.ofNat numReceiveBuffers c.control.nInputWriteIndex.toNat

/-- Replace the slot at `m_nInputWriteIndex`. -/
def CommunicationHandler.setInput (c : CommunicationHandler) (p : Packet) : CommunicationHandler :=
  { c with input := Function.update c.input c.inputWriteSlot p }

/-- `(i + 1) % NUM_RECEIVE_BUFFERS` as Linux stores it. -/
def nextIndex (i : UInt32) : UInt32 := UInt32.ofNat ((i.toNat + 1) % numReceiveBuffers)

/-- One step of Linux on the shared memory. -/
def linuxStep (c : CommunicationHandler) (l : Linux) : LinuxAction →
    Option (CommunicationHandler × Linux)
  | .test m =>
      match l.pc with
      | .idle =>
          -- one slot stays free, else a full ring would look empty
          if m.data.length ≤ bufferSize ∧
              (c.control.nInputWriteIndex.toNat + 1) % numReceiveBuffers
                ≠ c.control.nInputReadIndex.toNat then
            some (c, { l with pc := .filling m ⟨false, false, false, 0⟩ })
          else none
      | .filling _ _ => none
  | .fill f =>
      match l.pc with
      | .idle => none
      | .filling m d =>
          ((c.input c.inputWriteSlot).fill m d f).map fun w =>
            (c.setInput w.1, { l with pc := .filling m w.2 })
  | .publish =>
      match l.pc with
      | .idle => none
      | .filling m d =>
          if d.complete m then
            some ({ c with
                control := { c.control with nInputWriteIndex := nextIndex c.control.nInputWriteIndex } },
              ⟨.idle, l.enqueued ++ [m]⟩)
          else none
  | .dequeue =>
      if c.control.nOutputReadIndex ≠ c.control.nOutputWriteIndex then
        some ({ c with
            control := { c.control with nOutputReadIndex := nextIndex c.control.nOutputReadIndex } }, l)
      else none

/-- The input slot a step of Linux stores to. -/
def LinuxAction.writtenSlot (c : CommunicationHandler) :
    LinuxAction → Option (Fin numReceiveBuffers)
  | .fill _ => some c.inputWriteSlot
  | _ => none

/-- Everything a step of Linux can do. -/
theorem linuxStep_cases {c c' : CommunicationHandler} {l l' : Linux} {a : LinuxAction}
    (h : linuxStep c l a = some (c', l')) :
    (∃ m, a = .test m ∧ l.pc = .idle ∧ m.data.length ≤ bufferSize ∧
      (c.control.nInputWriteIndex.toNat + 1) % numReceiveBuffers ≠ c.control.nInputReadIndex.toNat ∧
      c' = c ∧ l' = { l with pc := .filling m ⟨false, false, false, 0⟩ }) ∨
    (∃ f m d p d', a = .fill f ∧ l.pc = .filling m d ∧
      (c.input c.inputWriteSlot).fill m d f = some (p, d') ∧
      c' = c.setInput p ∧ l' = { l with pc := .filling m d' }) ∨
    (∃ m d, a = .publish ∧ l.pc = .filling m d ∧ d.complete m = true ∧
      c' = { c with
        control := { c.control with nInputWriteIndex := nextIndex c.control.nInputWriteIndex } } ∧
      l' = ⟨.idle, l.enqueued ++ [m]⟩) ∨
    (a = .dequeue ∧
      c' = { c with
        control := { c.control with nOutputReadIndex := nextIndex c.control.nOutputReadIndex } } ∧
      l' = l) := by
  cases a with
  | test m =>
    cases hpc : l.pc with
    | filling m' d => simp [linuxStep, hpc] at h
    | idle =>
      simp only [linuxStep, hpc] at h
      split_ifs at h with hc
      cases h
      exact Or.inl ⟨m, rfl, rfl, hc.1, hc.2, rfl, rfl⟩
  | fill f =>
    cases hpc : l.pc with
    | idle => simp [linuxStep, hpc] at h
    | filling m d =>
      simp only [linuxStep, hpc] at h
      obtain ⟨⟨p, d'⟩, hp, heq⟩ := Option.map_eq_some_iff.1 h
      cases heq
      exact Or.inr (Or.inl ⟨f, m, d, p, d', rfl, rfl, hp, rfl, rfl⟩)
  | publish =>
    cases hpc : l.pc with
    | idle => simp [linuxStep, hpc] at h
    | filling m d =>
      simp only [linuxStep, hpc] at h
      split_ifs at h with hd
      cases h
      exact Or.inr (Or.inr (Or.inl ⟨m, d, rfl, rfl, hd, rfl, rfl⟩))
  | dequeue =>
    simp only [linuxStep] at h
    split_ifs at h with hne
    cases h
    exact Or.inr (Or.inr (Or.inr ⟨rfl, rfl, rfl⟩))

theorem nextIndex_toNat (i : UInt32) : (nextIndex i).toNat = (i.toNat + 1) % numReceiveBuffers := by
  have hlt := Nat.mod_lt (i.toNat + 1) (show 0 < numReceiveBuffers by decide)
  rw [nextIndex, UInt32.toNat_ofNat', Nat.mod_eq_of_lt (lt_of_lt_of_le hlt (by decide))]

/-! ### The ring invariant -/

/-- Both input indices, the slots and a half-filled slot agree with `enqueued` and `released`;
packet number `i` has slot `(base + i) % NUM_RECEIVE_BUFFERS`. -/
structure RingInv (c : CommunicationHandler) (l : Linux) (base released : ℕ) : Prop where
  readIndex : c.control.nInputReadIndex.toNat = (base + released) % numReceiveBuffers
  writeIndex : c.control.nInputWriteIndex.toNat = (base + l.enqueued.length) % numReceiveBuffers
  window : RingWindow Packet.Carries c.input base l.enqueued released
  filling : ∀ m d, l.pc = .filling m d → m.data.length ≤ bufferSize ∧
    l.enqueued.length + 1 < released + numReceiveBuffers ∧ (c.input c.inputWriteSlot).Written m d

namespace RingInv

variable {c c' : CommunicationHandler} {l l' : Linux} {base released : ℕ} {a : LinuxAction}

/-- The invariant depends on the two input indices and the input slots only. -/
theorem congr (h : RingInv c l base released) (hin : c'.input = c.input)
    (hr : c'.control.nInputReadIndex = c.control.nInputReadIndex)
    (hw : c'.control.nInputWriteIndex = c.control.nInputWriteIndex) :
    RingInv c' l base released where
  readIndex := by rw [hr]; exact h.readIndex
  writeIndex := by rw [hw]; exact h.writeIndex
  window := by rw [hin]; exact h.window
  filling m d hpc := by
    rw [hin, CommunicationHandler.inputWriteSlot, hw]
    exact h.filling m d hpc

theorem inputWriteSlot_eq (h : RingInv c l base released) :
    c.inputWriteSlot = Fin.ofNat numReceiveBuffers (base + l.enqueued.length) := by
  apply Fin.ext
  show c.control.nInputWriteIndex.toNat % _ = _ % _
  rw [h.writeIndex, Nat.mod_mod]

theorem readSlot_eq (h : RingInv c l base released) :
    c.control.readSlot = Fin.ofNat numReceiveBuffers (base + released) := by
  apply Fin.ext
  show c.control.getReadIndex.toNat = _ % _
  rw [ControlHeader.getReadIndex_of_lt, h.readIndex]
  rw [h.readIndex]
  exact Nat.mod_lt _ (by decide)

theorem isEmpty_iff (h : RingInv c l base released) :
    c.control.isEmpty = true ↔ released = l.enqueued.length := by
  have := h.window.lo_le
  have := h.window.room
  rw [ControlHeader.isEmpty_iff, h.readIndex, h.writeIndex,
    RingWindow.mod_eq_iff (by omega) (by omega)]
  omega

theorem isEmpty_eq_false_iff (h : RingInv c l base released) :
    c.control.isEmpty = false ↔ released < l.enqueued.length := by
  have := h.window.lo_le
  rw [Bool.eq_false_iff, ne_eq, h.isEmpty_iff]
  omega

/-- The slot `Receive()` gives holds the oldest packet of a ring that is not empty. -/
theorem receive_carries (h : RingInv c l base released) (hne : released < l.enqueued.length) :
    c.receive.Carries l.enqueued[released] := by
  rw [CommunicationHandler.receive, h.readSlot_eq]
  exact h.window.head hne

/-- Giving the oldest packet back. -/
theorem release (h : RingInv c l base released) (hne : released < l.enqueued.length)
    {lib : CommLibrary} (hlib : lib.Documented) :
    RingInv { c with control := lib.incrementInputReadIndex c.control } l base (released + 1) where
  readIndex := by
    have hlt : c.control.nInputReadIndex.toNat < numReceiveBuffers := by
      rw [h.readIndex]; exact Nat.mod_lt _ (by decide)
    rw [hlib.increment_index _ hlt, h.readIndex, Nat.mod_add_mod, Nat.add_assoc]
  writeIndex := by rw [(hlib.increment_frame _).2.1]; exact h.writeIndex
  window := h.window.pop hne
  filling m d hpc := by
    obtain ⟨hlen, hroom, hwritten⟩ := h.filling m d hpc
    refine ⟨hlen, by omega, ?_⟩
    rw [CommunicationHandler.inputWriteSlot, (hlib.increment_frame _).2.1]
    exact hwritten

/-- The test of Linux passes only while one more slot than the new one stays free. -/
theorem room_of_test (h : RingInv c l base released)
    (htest : (c.control.nInputWriteIndex.toNat + 1) % numReceiveBuffers
      ≠ c.control.nInputReadIndex.toNat) :
    l.enqueued.length + 1 < released + numReceiveBuffers := by
  have := h.window.lo_le
  have := h.window.room
  rw [h.writeIndex, h.readIndex, Nat.mod_add_mod, RingWindow.succ_mod_ne_iff (by omega) (by omega)]
    at htest
  omega

/-- **Every step of Linux keeps the ring invariant.** -/
theorem linuxStep (h : RingInv c l base released) (hs : linuxStep c l a = some (c', l')) :
    RingInv c' l' base released := by
  rcases linuxStep_cases hs with ⟨m, -, -, hlen, htest, rfl, rfl⟩ |
    ⟨f, m, d, p, d', -, hpc, hfill, rfl, rfl⟩ | ⟨m, d, -, hpc, hd, rfl, rfl⟩ | ⟨-, rfl, rfl⟩
  · refine ⟨h.readIndex, h.writeIndex, h.window, fun m' d hpc => ?_⟩
    cases hpc
    exact ⟨hlen, h.room_of_test htest, Packet.written_none _ _⟩
  · -- the slot being filled lies outside the window
    obtain ⟨hlen, hroom, hwritten⟩ := h.filling m d hpc
    refine ⟨h.readIndex, h.writeIndex, ?_, fun m' d'' hpc' => ?_⟩
    · rw [CommunicationHandler.setInput, h.inputWriteSlot_eq]
      exact h.window.update_free p
    · cases hpc'
      refine ⟨hlen, hroom, ?_⟩
      show (Function.update c.input c.inputWriteSlot p c.inputWriteSlot).Written m d'
      rw [Function.update_self]
      exact hwritten.fill hfill
  · -- the filled slot becomes the last one of the window
    obtain ⟨hlen, hroom, hwritten⟩ := h.filling m d hpc
    rw [h.inputWriteSlot_eq] at hwritten
    refine ⟨h.readIndex, ?_, h.window.push (hwritten.carries hd) hroom, fun _ _ hpc' => by cases hpc'⟩
    rw [nextIndex_toNat, h.writeIndex, Nat.mod_add_mod, List.length_append, Nat.add_assoc]
    rfl
  · exact h.congr rfl rfl rfl

/-- Linux writes no slot of the window. -/
theorem writtenSlot_ne (h : RingInv c l base released) (b : LinuxAction) {i : ℕ}
    (hlo : released ≤ i) (hi : i < l.enqueued.length) :
    b.writtenSlot c ≠ some (Fin.ofNat numReceiveBuffers (base + i)) := by
  cases b with
  | fill f =>
    rw [LinuxAction.writtenSlot, h.inputWriteSlot_eq]
    intro heq
    exact h.window.ofNat_ne_of_lt hlo hi (Option.some.inj heq).symm
  | test m => exact nofun
  | publish => exact nofun
  | dequeue => exact nofun

end RingInv

/-- A step of Linux changes no other slot than the one it stores to. -/
theorem linuxStep_input {c c' : CommunicationHandler} {l l' : Linux} {a : LinuxAction}
    (hs : linuxStep c l a = some (c', l')) {i : Fin numReceiveBuffers}
    (hne : a.writtenSlot c ≠ some i) : c'.input i = c.input i := by
  rcases linuxStep_cases hs with ⟨m, -, -, -, -, rfl, -⟩ | ⟨f, m, d, p, d', rfl, -, -, rfl, -⟩ |
    ⟨m, d, -, -, -, rfl, -⟩ | ⟨-, rfl, -⟩
  · rfl
  · exact Function.update_of_ne (fun heq => hne (by rw [LinuxAction.writtenSlot, heq])) _ _
  · rfl
  · rfl

/-- Linux only appends to the sequence of published packets. -/
theorem linuxStep_enqueued {c c' : CommunicationHandler} {l l' : Linux} {a : LinuxAction}
    (hs : linuxStep c l a = some (c', l')) : l.enqueued <+: l'.enqueued := by
  rcases linuxStep_cases hs with ⟨m, -, -, -, -, -, rfl⟩ | ⟨f, m, d, p, d', -, -, -, -, rfl⟩ |
    ⟨m, d, -, -, -, -, rfl⟩ | ⟨-, -, rfl⟩
  · exact List.prefix_rfl
  · exact List.prefix_rfl
  · exact List.prefix_append _ _
  · exact List.prefix_rfl

/-- Every packet Linux has published or is filling in meets `ok`. -/
structure Linux.All (ok : Message → Prop) (l : Linux) : Prop where
  enqueued : ∀ m ∈ l.enqueued, ok m
  filling : ∀ m d, l.pc = .filling m d → ok m

theorem Linux.All.linuxStep {ok : Message → Prop} {c c' : CommunicationHandler} {l l' : Linux}
    {a : LinuxAction} (h : l.All ok) (ha : ∀ m, a = .test m → ok m)
    (hs : linuxStep c l a = some (c', l')) : l'.All ok := by
  rcases linuxStep_cases hs with ⟨m, rfl, -, -, -, -, rfl⟩ | ⟨f, m, d, p, d', -, hpc, -, -, rfl⟩ |
    ⟨m, d, -, hpc, -, -, rfl⟩ | ⟨-, -, rfl⟩
  · exact ⟨h.enqueued, fun m' d hpc => by cases hpc; exact ha m rfl⟩
  · exact ⟨h.enqueued, fun m' d'' hpc' => by cases hpc'; exact h.filling m d hpc⟩
  · refine ⟨fun m' hm' => ?_, fun m' d' hpc' => by cases hpc'⟩
    rcases List.mem_append.1 hm' with hold | hnew
    · exact h.enqueued m' hold
    · rw [List.mem_singleton] at hnew
      exact hnew ▸ h.filling m d hpc
  · exact h

end Tet4120

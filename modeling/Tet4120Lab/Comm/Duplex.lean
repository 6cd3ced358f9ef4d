import Tet4120Lab.Lib.BoundedQueue
import Tet4120Lab.Lib.Simulation
import Tet4120Lab.Comm.System

/-!
# The packet rings refine two bounded queues and a server

What the shared memory is for: requests go from Linux to CPU1 through one bounded queue, CPU1 handles
them one by one, and the replies go back to the senders through another.

* `Duplex`, `Duplex.step`: that abstract system; a queue that is too long cannot be built;
* `OutRing`: the output ring holds the replies that Linux has not taken;
* `State.label`: what a step of either processor does to the abstract system;
* `duplex_simulation`: the abstract system follows every step, as long as CPU1 replies only while the
  output ring has room; `duplex_run` for runs;
* `transmit_visible_iff`: a reply into a full output ring makes the ring look empty to Linux.
-/

namespace Tet4120

/-! ### The abstract system -/

/-- One slot of a ring stays free. -/
abbrev ringCapacity : ℕ := numReceiveBuffers - 1

/-- The requests that wait, the one being handled (it waits, too), and the replies that wait. -/
structure Duplex where
  input : BoundedQueue Message ringCapacity
  current : Option Message
  output : BoundedQueue Message ringCapacity

/-- A step of the abstract system. -/
inductive Duplex.Action
  | enqueue (m : Message)
  | deliver (m : Message)
  | reply (m : Message)
  | giveBack
  | take (m : Message)

/-- One step; a reply goes to the sender of the request being handled. -/
def Duplex.step (d : Duplex) : Duplex.Action → Option Duplex
  | .enqueue m => (d.input.push m).map fun q => { d with input := q }
  | .deliver m =>
      if d.current = none ∧ d.input.items.head? = some m then some { d with current := some m }
      else none
  | .reply m =>
      d.current.bind fun request =>
        if m.address = request.address ∧ m.port = request.port then
          (d.output.push m).map fun q => { d with output := q }
        else none
  | .giveBack =>
      d.current.bind fun request =>
        (d.input.pop request).map fun q => { d with input := q, current := none }
  | .take m => (d.output.pop m).map fun q => { d with output := q }

/-- Nothing waits. -/
def Duplex.empty : Duplex := ⟨.empty, none, .empty⟩

/-! ### The output ring -/

/-- As many bytes as the size says, and no more than a slot has. -/
structure Message.Fits (m : Message) : Prop where
  length_eq : m.data.length = m.size.toNat
  size_le : m.size.toNat ≤ bufferSize

/-- The slot at `m_nOutputReadIndex`. -/
def CommunicationHandler.outputReadSlot (c : CommunicationHandler) : Fin numReceiveBuffers :=
  ⟨c.control.nOutputReadIndex.toNat % numReceiveBuffers, Nat.mod_lt _ (by decide)⟩

/-- The packet a slot holds. -/
def Packet.toMessage (p : Packet) : Message :=
  ⟨p.address, p.port, p.dataLen,
    (List.range p.dataLen.toNat).filterMap fun k =>
      if h : k < bufferSize then some (p.data ⟨k, h⟩) else none⟩

/-- What `AddPacket` is relied on for: it stores the packet in the slot at the write index and
advances that index modulo `NUM_RECEIVE_BUFFERS`. -/
def CommLibrary.Sends (lib : CommLibrary) : Prop :=
  ∀ (c : CommunicationHandler) (address : UInt32) (port len : UInt16) (data : ℕ → UInt8),
    c.control.nOutputWriteIndex.toNat < numReceiveBuffers → len.toNat ≤ bufferSize →
    (∃ p : Packet, (lib.addPacket c address port len data).output
        = Function.update c.output c.control.writeSlot p ∧
      p.Carries ⟨address, port, len, (List.range len.toNat).map data⟩) ∧
    (lib.addPacket c address port len data).control.nOutputWriteIndex.toNat
      = (c.control.nOutputWriteIndex.toNat + 1) % numReceiveBuffers

theorem CommLibrary.prebuilt_sends : CommLibrary.prebuilt.Sends := by
  intro c address port len data hlt hlen
  refine ⟨⟨_, rfl, rfl, rfl, rfl, fun i hi hb => ?_⟩, advance_toNat hlt⟩
  rw [List.length_map, List.length_range] at hi
  simp [hi]

/-- The replies `items` lie in the output ring, from slot `base % NUM_RECEIVE_BUFFERS` on. -/
structure OutRing (c : CommunicationHandler) (base : ℕ) (items : List Message) : Prop where
  readIndex : c.control.nOutputReadIndex.toNat = base % numReceiveBuffers
  writeIndex : c.control.nOutputWriteIndex.toNat = (base + items.length) % numReceiveBuffers
  window : RingWindow Packet.Carries c.output base items 0
  fits : ∀ m ∈ items, m.Fits

theorem Packet.Carries.toMessage {p : Packet} {m : Message} (h : p.Carries m) (hm : m.Fits) :
    p.toMessage = m := by
  have hlen := hm.length_eq
  have hsize := hm.size_le
  have hbyte : ∀ k ∈ List.range m.size.toNat,
      (if h : k < bufferSize then some (p.data ⟨k, h⟩) else none) = some (m.data.getD k 0) := by
    intro k hk
    have hk' : k < m.data.length := by rw [hlen]; exact List.mem_range.1 hk
    rw [dif_pos (by omega), h.data k hk' (by omega)]
    simp [hk']
  have hdata : (List.range m.size.toNat).map (fun k => m.data.getD k 0) = m.data := by
    rw [← hlen]
    apply List.ext_getElem
    · simp
    · intro k h₁ h₂
      simp [h₂]
  rw [Packet.toMessage, h.address, h.port, h.size, List.filterMap_congr hbyte,
    List.filterMap_eq_map', hdata]

namespace OutRing

variable {c c' : CommunicationHandler} {base : ℕ} {items : List Message} {m : Message}

theorem congr (h : OutRing c base items) (hout : c'.output = c.output)
    (hr : c'.control.nOutputReadIndex = c.control.nOutputReadIndex)
    (hw : c'.control.nOutputWriteIndex = c.control.nOutputWriteIndex) : OutRing c' base items where
  readIndex := by rw [hr]; exact h.readIndex
  writeIndex := by rw [hw]; exact h.writeIndex
  window := by rw [hout]; exact h.window
  fits := h.fits

theorem outputReadSlot_eq (h : OutRing c base items) :
    c.outputReadSlot = Fin.ofNat numReceiveBuffers base := by
  apply Fin.ext
  show c.control.nOutputReadIndex.toNat % _ = _ % _
  rw [h.readIndex, Nat.mod_mod]

theorem writeSlot_eq (h : OutRing c base items) :
    c.control.writeSlot = Fin.ofNat numReceiveBuffers (base + items.length) := by
  apply Fin.ext
  have hlt : c.control.nOutputWriteIndex.toNat < numReceiveBuffers := by
    rw [h.writeIndex]; exact Nat.mod_lt _ (by decide)
  show c.control.getWriteIndex.toNat = _ % _
  rw [ControlHeader.getWriteIndex, if_pos hlt, h.writeIndex]

/-- Linux sees a packet exactly when a reply waits. -/
theorem index_ne_iff (h : OutRing c base items) :
    c.control.nOutputReadIndex ≠ c.control.nOutputWriteIndex ↔ items ≠ [] := by
  have hroom := h.window.room
  rw [Ne, ← UInt32.toNat_inj, h.readIndex, h.writeIndex,
    RingWindow.mod_eq_iff (Nat.le_add_right _ _) (by omega), ← List.length_pos_iff_ne_nil]
  omega

/-- The oldest reply is what Linux reads at its index. -/
theorem front (h : OutRing c base (m :: items)) : (c.output c.outputReadSlot).toMessage = m := by
  rw [h.outputReadSlot_eq]
  have hhead := h.window.head (by rw [List.length_cons]; exact Nat.succ_pos _)
  exact hhead.toMessage (h.fits m (List.mem_cons_self ..))

/-- Linux takes the oldest reply. -/
theorem take (h : OutRing c base (m :: items)) :
    OutRing { c with
      control := { c.control with nOutputReadIndex := nextIndex c.control.nOutputReadIndex } }
      (base + 1) items where
  readIndex := by rw [nextIndex_toNat, h.readIndex, Nat.mod_add_mod]
  writeIndex := by rw [h.writeIndex, List.length_cons]; congr 1; omega
  window :=
    { lo_le := Nat.zero_le _
      room := by have := h.window.room; rw [List.length_cons] at this; omega
      slot := fun i hi _ => by
        have hslot := h.window.slot (i + 1) (by rw [List.length_cons]; omega) (Nat.zero_le _)
        rwa [List.getElem_cons_succ, ← Nat.add_assoc, Nat.add_right_comm] at hslot }
  fits x hx := h.fits x (List.mem_cons_of_mem m hx)

/-- The ring has room exactly when the abstract queue has. -/
theorem room_iff (h : OutRing c base items) :
    (c.control.nOutputWriteIndex.toNat + 1) % numReceiveBuffers ≠ c.control.nOutputReadIndex.toNat ↔
      items.length < ringCapacity := by
  have hroom := h.window.room
  rw [h.writeIndex, h.readIndex, Nat.mod_add_mod,
    RingWindow.succ_mod_ne_iff (Nat.le_add_right _ _) (by omega)]
  unfold ringCapacity
  omega

/-- CPU1 adds a reply while the ring has room. -/
theorem send {lib : CommLibrary} (hlib : lib.Documented) (hsend : lib.Sends)
    (h : OutRing c base items) (hroom : items.length < ringCapacity) {address : UInt32}
    {port len : UInt16} (hlen : len.toNat ≤ bufferSize) (data : ℕ → UInt8) :
    OutRing (lib.addPacket c address port len data) base
      (items ++ [⟨address, port, len, (List.range len.toNat).map data⟩]) := by
  have hlt : c.control.nOutputWriteIndex.toNat < numReceiveBuffers := by
    rw [h.writeIndex]; exact Nat.mod_lt _ (by decide)
  obtain ⟨⟨p, hout, hp⟩, hindex⟩ := hsend c address port len data hlt hlen
  obtain ⟨-, -, -, hread⟩ := hlib.addPacket_frame c address port len data
  refine ⟨by rw [hread]; exact h.readIndex, ?_, ?_, fun m hm => ?_⟩
  · rw [hindex, h.writeIndex, Nat.mod_add_mod, List.length_append, Nat.add_assoc]
    rfl
  · rw [hout, h.writeSlot_eq]
    refine (h.window.update_free p).push ?_ (by unfold ringCapacity at hroom; omega)
    rw [Function.update_self]
    exact hp
  · rcases List.mem_append.1 hm with hm | hm
    · exact h.fits m hm
    · rw [List.mem_singleton] at hm
      subst hm
      exact ⟨by simp, hlen⟩

end OutRing

/-! ### The simulation -/

/-- What a step of a processor does to the abstract system. -/
def State.label (s : State) : Action → Option Duplex.Action
  | .linux .publish =>
      match s.linux.pc with
      | .filling m _ => some (.enqueue m)
      | .idle => none
  | .linux .dequeue =>
      let c := s.globals.commHandler
      some (.take (c.output c.outputReadSlot).toMessage)
  | .linux _ => none
  | .receive out =>
      let r := receiveWtcpPacket s.globals out
      if r.size = 0 then none else (r.globals.view r.out r.size).map .deliver
  | .transmit data size =>
      match s.cpu1 with
      | .handling out _ =>
          (s.globals.destination out.identifier).map fun dst =>
            .reply ⟨dst.address, dst.port, size, (List.range size.toNat).map data⟩
      | .idle => none
  | .release => some .giveBack

/-- Linux enqueues well-formed packets, and CPU1 replies with packets that fit a slot while the
output ring has room. -/
def Allowed (s : State) : Action → Prop
  | .linux (.test m) => m.WellFormed
  | .transmit _ size =>
      size.toNat ≤ bufferSize ∧
        (s.globals.commHandler.control.nOutputWriteIndex.toNat + 1) % numReceiveBuffers
          ≠ s.globals.commHandler.control.nOutputReadIndex.toNat
  | _ => True

instance (m : Message) : Decidable m.WellFormed :=
  decidable_of_iff (0 < m.size.toNat ∧ m.size.toNat ≤ bufferSize ∧ m.data.length = m.size.toNat)
    ⟨fun h => ⟨h.1, h.2.1, h.2.2⟩, fun h => ⟨h.size_pos, h.size_le, h.length_eq⟩⟩

instance (s : State) : ∀ a, Decidable (Allowed s a)
  | .linux (.test m) => inferInstanceAs (Decidable m.WellFormed)
  | .linux (.fill _) => isTrue trivial
  | .linux .publish => isTrue trivial
  | .linux .dequeue => isTrue trivial
  | .receive _ => isTrue trivial
  | .transmit _ _ => inferInstanceAs (Decidable (_ ∧ _))
  | .release => isTrue trivial

/-- The request CPU1 is handling. -/
def State.current (s : State) : Option Message :=
  match s.cpu1 with
  | .idle => none
  | .handling _ _ => s.linux.enqueued[s.released]?

/-- The abstract state of the system. -/
structure Refines (s : State) (d : Duplex) : Prop where
  inv : Inv 0 s
  wellFormed : s.linux.All Message.WellFormed
  input : d.input.items = s.linux.enqueued.drop s.released
  current : d.current = s.current
  output : ∃ base, OutRing s.globals.commHandler base d.output.items

theorem refines_start (g : Globals) : Refines (start g) .empty where
  inv := inv_start g
  wellFormed := all_start _ g
  input := rfl
  current := rfl
  output := ⟨0, rfl, rfl, ⟨Nat.zero_le _, by decide, fun i hi => absurd hi (Nat.not_lt_zero i)⟩,
    fun _ hm => by cases hm⟩

namespace Refines

variable {s : State} {d : Duplex}

/-- Neither the fields of the input ring nor the history matter for the output ring. -/
theorem output_congr (h : Refines s d) {c : CommunicationHandler}
    (hout : c.output = s.globals.commHandler.output)
    (hr : c.control.nOutputReadIndex = s.globals.commHandler.control.nOutputReadIndex)
    (hw : c.control.nOutputWriteIndex = s.globals.commHandler.control.nOutputWriteIndex) :
    ∃ base, OutRing c base d.output.items := by
  obtain ⟨base, hring⟩ := h.output
  exact ⟨base, hring.congr hout hr hw⟩

theorem head?_input (h : Refines s d) :
    d.input.items.head? = s.linux.enqueued[s.released]? := by
  rw [h.input, List.head?_drop]

/-- The request being handled is the oldest one that waits. -/
theorem current_handling (h : Refines s d) {out : ReceiveOut} {n : UInt16}
    (hpc : s.cpu1 = .handling out n) :
    ∃ m, d.current = some m ∧ d.input.items.head? = some m ∧
      s.globals.destination out.identifier = some ⟨m.address, m.port⟩ := by
  have hh := h.inv.cpu1.handling hpc
  have hlt := hh.lt
  have hget : s.linux.enqueued[s.released]? = some s.linux.enqueued[s.released] :=
    List.getElem?_eq_getElem hlt
  refine ⟨_, ?_, h.head?_input.trans hget, ?_⟩
  · rw [h.current, State.current, hpc]
    exact hget
  · rw [destination_of_toNat_eq hh.identifier, (hh.head _ hget).2]

/-- A step of Linux that publishes nothing and takes nothing. -/
theorem linux_quiet (h : Refines s d) {b : LinuxAction} {c : CommunicationHandler} {l : Linux}
    (hb : linuxStep s.globals.commHandler s.linux b = some (c, l))
    (hok : ∀ m, b = .test m → m.WellFormed) (hquiet : l.enqueued = s.linux.enqueued)
    (hout : c.output = s.globals.commHandler.output)
    (hr : c.control.nOutputReadIndex = s.globals.commHandler.control.nOutputReadIndex)
    (hw : c.control.nOutputWriteIndex = s.globals.commHandler.control.nOutputWriteIndex) :
    Refines { s with globals := { s.globals with commHandler := c }, linux := l } d where
  inv := h.inv.linux_step hb
  wellFormed := h.wellFormed.linuxStep hok hb
  input := by rw [h.input]; simp only [hquiet]
  current := by rw [h.current]; simp only [State.current, hquiet]
  output := h.output_congr hout hr hw

/-- Linux publishes the packet it has filled in. -/
theorem publish (h : Refines s d) {c : CommunicationHandler} {l : Linux} {m : Message}
    {done : Progress} (hpc : s.linux.pc = .filling m done)
    (hb : linuxStep s.globals.commHandler s.linux .publish = some (c, l)) :
    ∃ e, d.step (.enqueue m) = some e ∧
      Refines { s with globals := { s.globals with commHandler := c }, linux := l } e := by
  have hroom := (h.inv.ring.filling m done hpc).2.1
  have hinv := h.inv.linux_step hb
  have hall := h.wellFormed.linuxStep (fun m' hm' => by cases hm') hb
  have hle := h.inv.ring.window.lo_le
  rcases linuxStep_cases hb with ⟨m', ha, -⟩ | ⟨f, m', d', p, d'', ha, -⟩ |
    ⟨m', done', -, hpc', hcomplete, rfl, rfl⟩ | ⟨ha, -⟩
  · cases ha
  · cases ha
  · rw [hpc] at hpc'
    cases hpc'
    have hlt : d.input.items.length < ringCapacity := by
      rw [h.input, List.length_drop]
      unfold ringCapacity
      omega
    obtain ⟨q, hq, hitems⟩ := BoundedQueue.exists_push hlt m
    refine ⟨{ d with input := q }, by rw [Duplex.step, hq]; rfl, hinv, hall, ?_, ?_,
      h.output_congr rfl rfl rfl⟩
    · rw [hitems, List.drop_append_of_le_length hle, ← h.input]
    · rw [h.current]
      cases hcpu : s.cpu1 with
      | idle => simp only [State.current, hcpu]
      | handling out n =>
        simp only [State.current, hcpu]
        rw [List.getElem?_append_left (h.inv.cpu1.handling hcpu).lt]
  · cases ha

/-- Linux takes a packet from the output ring. -/
theorem dequeue (h : Refines s d) {c : CommunicationHandler} {l : Linux}
    (hb : linuxStep s.globals.commHandler s.linux .dequeue = some (c, l)) :
    ∃ e, d.step (.take (s.globals.commHandler.output
        s.globals.commHandler.outputReadSlot).toMessage) = some e ∧
      Refines { s with globals := { s.globals with commHandler := c }, linux := l } e := by
  have hinv := h.inv.linux_step hb
  obtain ⟨base, hring⟩ := h.output
  simp only [linuxStep] at hb
  split_ifs at hb with hne
  cases hb
  obtain ⟨m, items, hitems⟩ := List.exists_cons_of_ne_nil (hring.index_ne_iff.1 hne)
  rw [hitems] at hring
  obtain ⟨q, hq, hrest⟩ := BoundedQueue.exists_pop hitems
  rw [hring.front]
  exact ⟨{ d with output := q }, by rw [Duplex.step, hq]; rfl, hinv, h.wellFormed, h.input, h.current,
    base + 1, hrest ▸ hring.take⟩

/-- A poll that finds nothing. -/
theorem receive_zero (h : Refines s d) (hpc : s.cpu1 = .idle) (out : ReceiveOut) :
    Refines { s with
      globals := (receiveWtcpPacket s.globals out).globals, services := s.services + 1 } d where
  inv := h.inv.receive_zero hpc out
  wellFormed := h.wellFormed
  input := h.input
  current := h.current
  output := h.output_congr (by simp) (by simp) (by simp)

/-- A poll that finds a packet hands over the oldest request. -/
theorem receive (h : Refines s d) (hpc : s.cpu1 = .idle) {out : ReceiveOut}
    (hsize : (receiveWtcpPacket s.globals out).size ≠ 0) :
    ∃ m e, (receiveWtcpPacket s.globals out).globals.view (receiveWtcpPacket s.globals out).out
        (receiveWtcpPacket s.globals out).size = some m ∧
      d.step (.deliver m) = some e ∧
      Refines { s with
        globals := (receiveWtcpPacket s.globals out).globals
        cpu1 := .handling (receiveWtcpPacket s.globals out).out (receiveWtcpPacket s.globals out).size
        delivered := s.delivered ++ ((receiveWtcpPacket s.globals out).globals.view
          (receiveWtcpPacket s.globals out).out (receiveWtcpPacket s.globals out).size).toList } e := by
  have hne := h.inv.lt_of_size_ne_zero hsize
  have hget : s.linux.enqueued[s.released]? = some s.linux.enqueued[s.released] :=
    List.getElem?_eq_getElem hne
  obtain ⟨hsz, hid, hptr, hdest⟩ := h.inv.ring.receiveWtcpPacket hne out
  have hcarry := h.inv.ring.window.head hne
  have hview := view_of_carries hid hptr hdest (by simpa using hcarry)
    (h.wellFormed.enqueued _ (List.getElem_mem hne))
  rw [← hsz] at hview
  have hidle : d.current = none := by rw [h.current, State.current, hpc]
  refine ⟨_, { d with current := some s.linux.enqueued[s.released] }, hview, ?_,
    h.inv.receive_step hpc hsize, h.wellFormed, h.input, ?_, h.output_congr (by simp) (by simp)
      (by simp)⟩
  · rw [Duplex.step, if_pos ⟨hidle, h.head?_input.trans hget⟩]
  · simp only [State.current]
    exact hget.symm

/-- A reply goes to the sender of the request being handled. -/
theorem transmit {lib : CommLibrary} (hlib : lib.Documented) (hsend : lib.Sends) (h : Refines s d)
    {data : ℕ → UInt8} {size : UInt16} {out : ReceiveOut} {n : UInt16} {dst : DestinationStruct}
    {g : Globals} (hpc : s.cpu1 = .handling out n)
    (hdst : s.globals.destination out.identifier = some dst)
    (hg : transmitWtcpPacket lib s.globals data size out.identifier = some g)
    (hok : Allowed s (.transmit data size)) :
    ∃ e, d.step (.reply ⟨dst.address, dst.port, size, (List.range size.toNat).map data⟩) = some e ∧
      Refines { s with globals := g } e := by
  have hinv := h.inv.transmit_step hlib hpc hg
  obtain ⟨m, hcurrent, -, hsender⟩ := h.current_handling hpc
  obtain ⟨base, hring⟩ := h.output
  obtain ⟨dst', hdst', rfl⟩ := Option.map_eq_some_iff.1 hg
  rw [hdst] at hdst' hsender
  cases hdst'
  cases hsender
  have hroom := hring.room_iff.1 hok.2
  obtain ⟨q, hq, hitems⟩ := BoundedQueue.exists_push hroom
    (⟨m.address, m.port, size, (List.range size.toNat).map data⟩ : Message)
  refine ⟨{ d with output := q }, ?_, hinv, h.wellFormed, h.input, h.current, base, ?_⟩
  · rw [Duplex.step, hcurrent, Option.bind_some, if_pos ⟨rfl, rfl⟩, hq]
    rfl
  · rw [hitems]
    exact hring.send hlib hsend hroom hok.1 data

/-- The request being handled is given back. -/
theorem release {lib : CommLibrary} (hlib : lib.Documented) (h : Refines s d) {out : ReceiveOut}
    {n : UInt16} (hpc : s.cpu1 = .handling out n) :
    ∃ e, d.step .giveBack = some e ∧
      Refines { s with
        globals := releaseWtcpPacket lib s.globals out.identifier
        cpu1 := .idle
        released := s.released + 1
        services := s.services + 1 } e := by
  obtain ⟨m, hcurrent, hhead, -⟩ := h.current_handling hpc
  have hitems : d.input.items = m :: d.input.items.tail := (List.cons_head?_tail hhead).symm
  obtain ⟨q, hq, hrest⟩ := BoundedQueue.exists_pop hitems
  obtain ⟨hw, -, hr⟩ := hlib.increment_frame s.globals.commHandler.control
  refine ⟨{ d with input := q, current := none }, ?_, h.inv.release_step hlib hpc, h.wellFormed, ?_,
    rfl, h.output_congr rfl hr hw⟩
  · rw [Duplex.step, hcurrent, Option.bind_some, hq]
    rfl
  · rw [hrest, h.input, List.tail_drop]

end Refines

/-- **The two rings and the callbacks refine two bounded queues and a server.** -/
theorem duplex_simulation {lib : CommLibrary} (hlib : lib.Documented) (hsend : lib.Sends) :
    Steps.Simulation (step lib) Duplex.step State.label Allowed Refines where
  stutter := by
    intro s a t d hR hP hs hlabel
    rcases step_cases hs with ⟨b, c, l, rfl, hb, rfl⟩ | ⟨out, rfl, hpc, hsize, rfl⟩ |
      ⟨out, rfl, hpc, hsize, rfl⟩ | ⟨data, size, out, n, g, rfl, hpc, hg, rfl⟩ |
      ⟨out, n, rfl, hpc, rfl⟩
    · rcases linuxStep_cases hb with ⟨m, rfl, -, -, -, rfl, rfl⟩ | ⟨f, m, d', p, d'', rfl, -, -, rfl, rfl⟩ |
        ⟨m, d', rfl, hpc, -, -, -⟩ | ⟨rfl, -, -⟩
      · exact hR.linux_quiet hb (fun m' hm' => by cases hm'; exact hP) rfl rfl rfl rfl
      · exact hR.linux_quiet hb (fun m' hm' => by cases hm') rfl rfl rfl rfl
      · simp [State.label, hpc] at hlabel
      · cases hlabel
    · exact hR.receive_zero hpc out
    · obtain ⟨m, e, hview, -⟩ := hR.receive hpc hsize
      simp [State.label, hsize, hview] at hlabel
    · obtain ⟨dst, hdst, -⟩ := Option.map_eq_some_iff.1 hg
      simp [State.label, hpc, hdst] at hlabel
    · cases hlabel
  move := by
    intro s a t d k hR hP hs hlabel
    rcases step_cases hs with ⟨b, c, l, rfl, hb, rfl⟩ | ⟨out, rfl, hpc, hsize, rfl⟩ |
      ⟨out, rfl, hpc, hsize, rfl⟩ | ⟨data, size, out, n, g, rfl, hpc, hg, rfl⟩ |
      ⟨out, n, rfl, hpc, rfl⟩
    · cases b with
      | test m => cases hlabel
      | fill f => cases hlabel
      | publish =>
        cases hpc : s.linux.pc with
        | idle => simp [State.label, hpc] at hlabel
        | filling m done =>
          simp only [State.label, hpc, Option.some.injEq] at hlabel
          subst hlabel
          exact hR.publish hpc hb
      | dequeue =>
        cases hlabel
        exact hR.dequeue hb
    · simp [State.label, hsize] at hlabel
    · obtain ⟨m, e, hview, he, hRe⟩ := hR.receive hpc hsize
      simp only [State.label, if_neg hsize, hview, Option.map_some, Option.some.injEq] at hlabel
      subst hlabel
      exact ⟨e, he, hRe⟩
    · obtain ⟨dst, hdst, -⟩ := Option.map_eq_some_iff.1 hg
      simp only [State.label, hpc, hdst, Option.map_some, Option.some.injEq] at hlabel
      subst hlabel
      exact hR.transmit hlib hsend hpc hdst hg hP
    · cases hlabel
      exact hR.release hlib hpc

/-- **Every run of Linux and CPU1 in which CPU1 replies while the output ring has room is a run of
the two bounded queues with the server.** -/
theorem duplex_run {lib : CommLibrary} (hlib : lib.Documented) (hsend : lib.Sends) (g : Globals)
    {as : List Action} {s : State} (hP : Steps.Along (step lib) Allowed (start g) as)
    (hrun : Steps.run (step lib) (start g) as = some s) :
    ∃ d, Steps.run Duplex.step .empty (Steps.trace (step lib) State.label (start g) as) = some d ∧
      Refines s d :=
  (duplex_simulation hlib hsend).run (refines_start g) hP hrun

/-- Linux enqueues `onePacket`; CPU1 receives it, answers it with one byte and releases it; Linux
takes the reply. -/
def replyRun : List Action :=
  enqueueSteps onePacket ++ [.receive ⟨0, 0⟩, .transmit (fun _ => 0x2A) 1, .release, .linux .dequeue]

theorem duplex_run_replyRun :
    ∃ s d, Steps.run (step .prebuilt) (start zeroGlobals) replyRun = some s ∧
      Steps.run Duplex.step .empty
        (Steps.trace (step .prebuilt) State.label (start zeroGlobals) replyRun) = some d ∧
      Refines s d := by
  have hP : Steps.Along (step .prebuilt) Allowed (start zeroGlobals) replyRun := by decide +kernel
  have hsome : (Steps.run (step .prebuilt) (start zeroGlobals) replyRun).isSome = true := by
    decide +kernel
  obtain ⟨s, hs⟩ := Option.isSome_iff_exists.1 hsome
  obtain ⟨d, hd, hR⟩ := duplex_run CommLibrary.prebuilt_documented CommLibrary.prebuilt_sends
    zeroGlobals hP hs
  exact ⟨s, d, hs, hd, hR⟩

/-! ### Runs of the abstract system -/

namespace Duplex

/-- The request a step hands over, the reply it sends, the reply it takes. -/
def Action.delivered : Action → Option Message
  | .deliver m => some m
  | _ => none

def Action.replied : Action → Option Message
  | .reply m => some m
  | _ => none

def Action.taken : Action → Option Message
  | .take m => some m
  | _ => none

/-- What a step does to the output queue. -/
def Action.outputOp : Action → Option (BoundedQueue.Op Message)
  | .reply m => some (.push m)
  | .take m => some (.pop m)
  | _ => none

/-- Everything a step can do. -/
theorem step_cases {d e : Duplex} {a : Action} (h : d.step a = some e) :
    (∃ m, a = .enqueue m ∧ e.current = d.current ∧ e.output = d.output) ∨
    (∃ m, a = .deliver m ∧ e.current = some m ∧ e.output = d.output) ∨
    (∃ m request, a = .reply m ∧ d.current = some request ∧ m.address = request.address ∧
      m.port = request.port ∧ e.current = d.current ∧ d.output.push m = some e.output) ∨
    (a = .giveBack ∧ e.current = none ∧ e.output = d.output) ∨
    (∃ m, a = .take m ∧ e.current = d.current ∧ d.output.pop m = some e.output) := by
  cases a with
  | enqueue m =>
    obtain ⟨q, -, rfl⟩ := Option.map_eq_some_iff.1 h
    exact Or.inl ⟨m, rfl, rfl, rfl⟩
  | deliver m =>
    simp only [step] at h
    split_ifs at h with hguard
    cases h
    exact Or.inr (Or.inl ⟨m, rfl, rfl, rfl⟩)
  | reply m =>
    obtain ⟨request, hcurrent, h⟩ := Option.bind_eq_some_iff.1 h
    split_ifs at h with hsender
    obtain ⟨q, hq, rfl⟩ := Option.map_eq_some_iff.1 h
    exact Or.inr (Or.inr (Or.inl ⟨m, request, rfl, hcurrent, hsender.1, hsender.2, rfl, hq⟩))
  | giveBack =>
    obtain ⟨request, -, h⟩ := Option.bind_eq_some_iff.1 h
    obtain ⟨q, -, rfl⟩ := Option.map_eq_some_iff.1 h
    exact Or.inr (Or.inr (Or.inr (Or.inl ⟨rfl, rfl, rfl⟩)))
  | take m =>
    obtain ⟨q, hq, rfl⟩ := Option.map_eq_some_iff.1 h
    exact Or.inr (Or.inr (Or.inr (Or.inr ⟨m, rfl, rfl, hq⟩)))

/-- The output queue is a queue of its own. -/
theorem output_simulation :
    Steps.Simulation Duplex.step BoundedQueue.step (fun _ a => a.outputOp) (fun _ _ => True)
      (fun d q => d.output = q) where
  stutter := by
    rintro d a e q rfl - hs hlabel
    rcases step_cases hs with ⟨m, rfl, -, hout⟩ | ⟨m, rfl, -, hout⟩ | ⟨m, r, rfl, -⟩ |
      ⟨rfl, -, hout⟩ | ⟨m, rfl, -⟩
    · exact hout
    · exact hout
    · cases hlabel
    · exact hout
    · cases hlabel
  move := by
    rintro d a e q k rfl - hs hlabel
    rcases step_cases hs with ⟨m, rfl, -⟩ | ⟨m, rfl, -⟩ | ⟨m, r, rfl, -, -, -, -, hq⟩ | ⟨rfl, -⟩ |
      ⟨m, rfl, -, hq⟩
    · cases hlabel
    · cases hlabel
    · cases hlabel
      exact ⟨e.output, hq, rfl⟩
    · cases hlabel
    · cases hlabel
      exact ⟨e.output, hq, rfl⟩

/-- The replies that were sent are those that were taken and, behind them, those that wait. -/
theorem replied_eq {d e : Duplex} {tr : List Action} (hrun : Steps.run Duplex.step d tr = some e) :
    d.output.items ++ tr.filterMap Action.replied
      = tr.filterMap Action.taken ++ e.output.items := by
  obtain ⟨q, hq, rfl⟩ := output_simulation.run (q := d.output) rfl
    (Steps.along_of_forall (fun _ _ => trivial) d tr) hrun
  rw [Steps.trace_eq_filterMap hrun] at hq
  have h := BoundedQueue.items_append_pushes hq
  rw [List.filterMap_filterMap, List.filterMap_filterMap] at h
  have hreplied : (fun a => (Action.outputOp a).bind BoundedQueue.Op.pushed) = Action.replied := by
    funext a; cases a <;> rfl
  have htaken : (fun a => (Action.outputOp a).bind BoundedQueue.Op.popped) = Action.taken := by
    funext a; cases a <;> rfl
  rwa [hreplied, htaken] at h

/-- The request being handled is the last one that was handed over. -/
theorem current_eq {tr : List Action} {d e : Duplex} (hd : d.current = none)
    (hrun : Steps.run Duplex.step d tr = some e) {m : Message} (hm : e.current = some m) :
    (tr.filterMap Action.delivered).getLast? = some m := by
  induction tr using List.reverseRecOn generalizing e m with
  | nil =>
    cases hrun
    rw [hd] at hm
    cases hm
  | append_singleton tr a ih =>
    rw [Steps.run_append] at hrun
    obtain ⟨d', hd', hlast⟩ := Option.bind_eq_some_iff.1 hrun
    obtain ⟨e', he', hnil⟩ := Steps.run_cons_eq_some.1 hlast
    cases hnil
    rw [List.filterMap_append]
    rcases step_cases he' with ⟨x, rfl, hcur, -⟩ | ⟨x, rfl, hcur, -⟩ |
      ⟨x, r, rfl, -, -, -, hcur, -⟩ | ⟨rfl, hcur, -⟩ | ⟨x, rfl, hcur, -⟩
    · exact (List.append_nil _).symm ▸ ih hd' (hcur.symm.trans hm)
    · rw [hcur] at hm
      cases hm
      exact List.getLast?_concat
    · exact (List.append_nil _).symm ▸ ih hd' (hcur.symm.trans hm)
    · rw [hcur] at hm
      cases hm
    · exact (List.append_nil _).symm ▸ ih hd' (hcur.symm.trans hm)

/-- A reply goes to the sender of the request handed over last. -/
theorem reply_sender {tr xs ys : List Action} {d e : Duplex} {m : Message} (hd : d.current = none)
    (hrun : Steps.run Duplex.step d tr = some e) (htr : tr = xs ++ .reply m :: ys) :
    ∃ request, (xs.filterMap Action.delivered).getLast? = some request ∧
      m.address = request.address ∧ m.port = request.port := by
  subst htr
  rw [Steps.run_append] at hrun
  obtain ⟨d', hd', hrest⟩ := Option.bind_eq_some_iff.1 hrun
  obtain ⟨e', he', -⟩ := Steps.run_cons_eq_some.1 hrest
  rcases step_cases he' with ⟨x, hx, -⟩ | ⟨x, hx, -⟩ | ⟨x, request, hx, hcur, ha, hp, -, -⟩ |
    ⟨hx, -⟩ | ⟨x, hx, -⟩ <;> cases hx
  exact ⟨request, current_eq hd hd' hcur, ha, hp⟩

end Duplex

/-! ### Replies -/

section

variable {lib : CommLibrary} {g : Globals} {as : List Action} {s t : State}

/-- What a run did to the abstract system. -/
def effects (lib : CommLibrary) (g : Globals) (as : List Action) : List Duplex.Action :=
  Steps.trace (step lib) State.label (start g) as

/-- **Linux gets the replies once each, in the order CPU1 sent them, at most two wait at any time,
and each is addressed to the sender of the request that Wtcp was handed last.** -/
theorem replies_in_order (hlib : lib.Documented) (hsend : lib.Sends)
    (hP : Steps.Along (step lib) Allowed (start g) as)
    (hrun : Steps.run (step lib) (start g) as = some s) :
    (∃ waiting, waiting.length ≤ ringCapacity ∧
      (effects lib g as).filterMap Duplex.Action.replied
        = (effects lib g as).filterMap Duplex.Action.taken ++ waiting ∧
      (s.globals.commHandler.control.nOutputReadIndex
        = s.globals.commHandler.control.nOutputWriteIndex ↔ waiting = [])) ∧
    ∀ xs m ys, effects lib g as = xs ++ .reply m :: ys →
      ∃ request, (xs.filterMap Duplex.Action.delivered).getLast? = some request ∧
        m.address = request.address ∧ m.port = request.port := by
  obtain ⟨d, hd, hR⟩ := (duplex_simulation hlib hsend).run (refines_start g) hP hrun
  obtain ⟨base, hring⟩ := hR.output
  refine ⟨⟨d.output.items, d.output.bound, Duplex.replied_eq hd, ?_⟩,
    fun xs m ys htr => Duplex.reply_sender rfl hd htr⟩
  rw [← not_iff_not]
  exact hring.index_ne_iff

theorem replies_in_order_replyRun :
    ∃ waiting : List Message, waiting.length ≤ ringCapacity ∧
      (effects .prebuilt zeroGlobals replyRun).filterMap Duplex.Action.replied
        = (effects .prebuilt zeroGlobals replyRun).filterMap Duplex.Action.taken ++ waiting := by
  have hP : Steps.Along (step .prebuilt) Allowed (start zeroGlobals) replyRun := by decide +kernel
  have hsome : (Steps.run (step .prebuilt) (start zeroGlobals) replyRun).isSome = true := by
    decide +kernel
  obtain ⟨s, hs⟩ := Option.isSome_iff_exists.1 hsome
  obtain ⟨⟨waiting, hlen, heq, -⟩, -⟩ := replies_in_order CommLibrary.prebuilt_documented
    CommLibrary.prebuilt_sends hP hs
  exact ⟨waiting, hlen, heq⟩

/-- **A reply is visible to Linux exactly when it was sent into a ring with room.** A reply into a
full ring makes it look empty, and all three replies are lost; Linux is interrupted all the same. -/
theorem transmit_visible_iff (hlib : lib.Documented) (hsend : lib.Sends)
    (hP : Steps.Along (step lib) Allowed (start g) as)
    (hrun : Steps.run (step lib) (start g) as = some s) {data : ℕ → UInt8} {size : UInt16}
    (hsize : size.toNat ≤ bufferSize) (hs : step lib s (.transmit data size) = some t) :
    (t.globals.commHandler.control.nOutputReadIndex
        ≠ t.globals.commHandler.control.nOutputWriteIndex ↔
      (s.globals.commHandler.control.nOutputWriteIndex.toNat + 1) % numReceiveBuffers
        ≠ s.globals.commHandler.control.nOutputReadIndex.toNat) ∧
    (linuxStep t.globals.commHandler t.linux .dequeue = none →
      ((effects lib g as).filterMap Duplex.Action.replied).length
        = ((effects lib g as).filterMap Duplex.Action.taken).length + ringCapacity) ∧
    t.globals.icdsgir = generateSwIrq0 :: s.globals.icdsgir := by
  obtain ⟨d, hd, hR⟩ := (duplex_simulation hlib hsend).run (refines_start g) hP hrun
  obtain ⟨base, hring⟩ := hR.output
  have hcount := congrArg List.length (Duplex.replied_eq hd)
  rw [List.length_append, List.length_append] at hcount
  rcases step_cases hs with ⟨b, c, l, ha, -⟩ | ⟨out, ha, -⟩ | ⟨out, ha, -⟩ |
    ⟨data', size', out, n, g', ha, hpc, hg, rfl⟩ | ⟨out, n, ha, -⟩
  case inr.inr.inr.inl =>
    cases ha
    obtain ⟨dst', -, rfl⟩ := Option.map_eq_some_iff.1 hg
    have hlt : s.globals.commHandler.control.nOutputWriteIndex.toNat < numReceiveBuffers := by
      rw [hring.writeIndex]; exact Nat.mod_lt _ (by decide)
    obtain ⟨-, hindex⟩ := hsend s.globals.commHandler dst'.address dst'.port size data hlt hsize
    obtain ⟨-, -, -, hread⟩ :=
      hlib.addPacket_frame s.globals.commHandler dst'.address dst'.port size data
    have hvisible : (lib.addPacket s.globals.commHandler dst'.address dst'.port size
        data).control.nOutputReadIndex ≠ (lib.addPacket s.globals.commHandler dst'.address dst'.port
        size data).control.nOutputWriteIndex ↔
        (s.globals.commHandler.control.nOutputWriteIndex.toNat + 1) % numReceiveBuffers
          ≠ s.globals.commHandler.control.nOutputReadIndex.toNat := by
      rw [Ne, ← UInt32.toNat_inj, hread, hindex, eq_comm]
    refine ⟨hvisible, fun hnone => ?_, rfl⟩
    have hfull : ¬ d.output.items.length < ringCapacity := by
      rw [← hring.room_iff, ← hvisible]
      intro hne
      simp [linuxStep, hne] at hnone
    have hbound := d.output.bound
    have hstart : Duplex.empty.output.items.length = 0 := rfl
    show _ = _ + ringCapacity
    unfold effects
    omega
  all_goals cases ha

/-- CPU1 answers one request twice while Linux takes nothing. -/
def twoReplies : List Action :=
  enqueueSteps onePacket ++ [.receive ⟨0, 0⟩, .transmit (fun _ => 0x2A) 1, .transmit (fun _ => 0x2B) 1]

theorem transmit_visible_twoReplies :
    ∃ s t, Steps.run (step .prebuilt) (start zeroGlobals) twoReplies = some s ∧
      step .prebuilt s (.transmit (fun _ => 0x2C) 1) = some t ∧
      t.globals.commHandler.control.nOutputReadIndex
        = t.globals.commHandler.control.nOutputWriteIndex := by
  have hP : Steps.Along (step .prebuilt) Allowed (start zeroGlobals) twoReplies := by decide +kernel
  have hfull : (Steps.run (step .prebuilt) (start zeroGlobals) twoReplies).map (fun s =>
      ((step .prebuilt s (.transmit (fun _ => 0x2C) 1)).isSome,
        s.globals.commHandler.control.nOutputWriteIndex,
        s.globals.commHandler.control.nOutputReadIndex)) = some (true, 2, 0) := by decide +kernel
  obtain ⟨s, hs, hvalues⟩ := Option.map_eq_some_iff.1 hfull
  simp only [Prod.mk.injEq] at hvalues
  obtain ⟨hsome, hw, hr⟩ := hvalues
  obtain ⟨t, ht⟩ := Option.isSome_iff_exists.1 hsome
  refine ⟨s, t, hs, ht, not_ne_iff.1 fun hne => ?_⟩
  have hroom := (transmit_visible_iff CommLibrary.prebuilt_documented CommLibrary.prebuilt_sends hP hs
    (by decide) ht).1.1 hne
  rw [hw, hr] at hroom
  exact hroom (by decide)

end

end Tet4120

import Tet4120Lab.Comm.System

/-!
# First in, first out

From the state the constructors leave, and for every order of the steps of Linux and CPU1 in which
Linux enqueues well-formed packets only:

* `fifo_delivery`: the packets handed to Wtcp are a prefix of the packets Linux enqueued; from its
  receive to its release the packet CPU1 holds satisfies `State.HoldsPacket`, and every reply goes
  to its sender (`State.RepliesToSender`).
-/

namespace Tet4120

/-- CPU1 holds the last packet handed over: the identifier is in range, `g_dest`, the size and the
bytes at the pointer are still that packet, and no step of Linux stores to its slot or changes it. -/
structure State.HoldsPacket (s : State) (out : ReceiveOut) (n : UInt16) : Prop where
  identifier_lt : out.identifier.toNat < numReceiveBuffers
  ppPacket : out.ppPacket = dataAddress ⟨out.identifier.toNat, identifier_lt⟩
  last : s.delivered ≠ []
  view : s.globals.view out n = s.delivered.getLast?
  writtenSlot : ∀ b : LinuxAction,
    b.writtenSlot s.globals.commHandler ≠ some ⟨out.identifier.toNat, identifier_lt⟩
  input : ∀ (b : LinuxAction) (c : CommunicationHandler) (l : Linux),
    linuxStep s.globals.commHandler s.linux b = some (c, l) →
    c.input ⟨out.identifier.toNat, identifier_lt⟩
      = s.globals.commHandler.input ⟨out.identifier.toNat, identifier_lt⟩

/-- A call of `TransmitWtcpPacket` with the identifier CPU1 holds finds an element of `g_dest`, and
is a call of `AddPacket` with the address and the port of the last packet handed over, and an
interrupt of Linux. -/
def State.RepliesToSender (lib : CommLibrary) (s : State) : Prop :=
  ∃ m, s.delivered.getLast? = some m ∧ ∀ (data : ℕ → UInt8) (size : UInt16),
    step lib s (.transmit data size) = some { s with
      globals := { s.globals with
        commHandler := lib.addPacket s.globals.commHandler m.address m.port size data
        icdsgir := generateSwIrq0 :: s.globals.icdsgir } }

section Reachable

variable {base : ℕ} {s : State}

/-- Packet by packet, what was handed over is what was enqueued. -/
theorem Inv.delivered_getElem? (h : Inv base s) (hall : s.linux.All Message.WellFormed) {i : ℕ}
    (hi : i < s.delivered.length) : s.delivered[i]? = s.linux.enqueued[i]? := by
  have hget : s.delivered[i]? = some s.delivered[i] := List.getElem?_eq_getElem hi
  obtain ⟨m, hm, hdel⟩ := h.content i _ hget
  rw [hget, hm, hdel.eq (hall.enqueued m (List.mem_of_getElem? hm))]

theorem Inv.delivered_isPrefix (h : Inv base s) (hall : s.linux.All Message.WellFormed) :
    s.delivered <+: s.linux.enqueued := by
  rw [List.prefix_iff_eq_take]
  apply List.ext_getElem?
  intro i
  by_cases hi : i < s.delivered.length
  · rw [List.getElem?_take_of_lt hi, h.delivered_getElem? hall hi]
  · rw [List.getElem?_eq_none (by omega), List.getElem?_eq_none]
    rw [List.length_take]
    omega

/-- The packet CPU1 holds is the last one that was handed over. -/
theorem Inv.getLast?_delivered (h : Inv base s) (hall : s.linux.All Message.WellFormed)
    {out : ReceiveOut} {n : UInt16} (hh : s.Holds base out n) :
    s.delivered.getLast? = s.linux.enqueued[s.released]? := by
  have hdel := hh.delivered
  rw [List.getLast?_eq_getElem?, hdel, Nat.add_sub_cancel, h.delivered_getElem? hall (by omega)]

theorem Inv.holdsPacket (h : Inv base s) (hall : s.linux.All Message.WellFormed)
    {out : ReceiveOut} {n : UInt16} (hpc : s.cpu1 = .handling out n) : s.HoldsPacket out n := by
  have hh := h.cpu1.handling hpc
  have hlt := hh.lt
  have hdel := hh.delivered
  have hget : s.linux.enqueued[s.released]? = some s.linux.enqueued[s.released] :=
    List.getElem?_eq_getElem hlt
  obtain ⟨hsize, hdest⟩ := hh.head _ hget
  have hidlt : out.identifier.toNat < numReceiveBuffers := by
    rw [hh.identifier]; exact Fin.isLt _
  have hslot : (⟨out.identifier.toNat, hidlt⟩ : Fin numReceiveBuffers)
      = Fin.ofNat numReceiveBuffers (base + s.released) := Fin.ext hh.identifier
  have hwritten : ∀ b : LinuxAction, b.writtenSlot s.globals.commHandler
      ≠ some ⟨out.identifier.toNat, hidlt⟩ := fun b => by
    rw [hslot]
    exact h.ring.writtenSlot_ne b le_rfl hlt
  refine ⟨hidlt, by rw [hslot, hh.ppPacket], ?_, ?_, hwritten,
    fun b c l hb => linuxStep_input hb (hwritten b)⟩
  · rintro hnil
    rw [hnil] at hdel
    cases hdel
  · rw [h.getLast?_delivered hall hh, hget, hsize]
    exact view_of_carries hh.identifier hh.ppPacket hdest (h.ring.window.head hlt)
      (hall.enqueued _ (List.getElem_mem hlt))

theorem Inv.repliesToSender (h : Inv base s) (hall : s.linux.All Message.WellFormed)
    (lib : CommLibrary) {out : ReceiveOut} {n : UInt16} (hpc : s.cpu1 = .handling out n) :
    s.RepliesToSender lib := by
  have hh := h.cpu1.handling hpc
  have hlt := hh.lt
  have hget : s.linux.enqueued[s.released]? = some s.linux.enqueued[s.released] :=
    List.getElem?_eq_getElem hlt
  refine ⟨_, (h.getLast?_delivered hall hh).trans hget, fun data size => ?_⟩
  have hdst := destination_of_toNat_eq (g := s.globals) hh.identifier
  rw [(hh.head _ hget).2] at hdst
  simp only [Tet4120.step, hpc, transmitWtcpPacket, hdst, Option.map_some]

end Reachable

/-- **First in, first out, and every reply to its sender.** -/
theorem fifo_delivery {lib : CommLibrary} (hlib : lib.Documented) (g : Globals) (as : List Action)
    (s : State) (hok : ∀ a ∈ as, a.Enqueues Message.WellFormed)
    (hrun : Steps.run (step lib) (start g) as = some s) :
    s.delivered <+: s.linux.enqueued ∧
    ∀ out n, s.cpu1 = .handling out n → s.HoldsPacket out n ∧ s.RepliesToSender lib := by
  have hinv : Inv 0 s := inv_run hlib (inv_start g) hrun
  have hall : s.linux.All Message.WellFormed :=
    all_run (all_start _ g) hok hrun
  exact ⟨hinv.delivered_isPrefix hall,
    fun out n hpc => ⟨hinv.holdsPacket hall hpc, hinv.repliesToSender hall lib hpc⟩⟩

/-- Linux enqueues `onePacket` while CPU1 polls, CPU1 receives it and answers it with one byte. -/
def onePacketRun : List Action :=
  [.linux (.test onePacket), .linux (.fill .byte), .receive ⟨0, 0⟩, .linux (.fill .address),
    .linux (.fill .port), .linux (.fill .size), .linux .publish, .receive ⟨0, 0⟩,
    .transmit (fun _ => 0x2A) 1]

theorem fifo_delivery_onePacketRun :
    ∃ s, Steps.run (step .prebuilt) (start zeroGlobals) onePacketRun = some s ∧
      s.delivered = [onePacket] ∧
      (s.globals.commHandler.output 0).address = onePacket.address ∧
      (s.globals.commHandler.output 0).port = onePacket.port ∧
      s.delivered <+: s.linux.enqueued ∧
      ∀ out n, s.cpu1 = .handling out n → s.HoldsPacket out n ∧ s.RepliesToSender .prebuilt := by
  have hwf : onePacket.WellFormed := ⟨by decide, by decide, by decide⟩
  refine ⟨_, rfl, by decide +kernel, by decide +kernel, by decide +kernel, ?_⟩
  refine fifo_delivery CommLibrary.prebuilt_documented zeroGlobals onePacketRun _ ?_ rfl
  intro a ha
  simp only [onePacketRun, List.mem_cons, List.not_mem_nil, or_false] at ha
  rcases ha with rfl | rfl | rfl | rfl | rfl | rfl | rfl | rfl | rfl
  all_goals first | exact hwf | trivial

end Tet4120

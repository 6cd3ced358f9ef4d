import Tet4120Lab.Lib.Steps
import Tet4120Lab.Comm.Callbacks
import Tet4120Lab.Comm.Linux

/-!
# Linux and CPU1 on the packet ring, step by step

The two processors take their steps in any order.  Linux takes the steps of `linuxStep`.  CPU1
calls `ReceiveWtcpPacket`; when that returns a size it calls `TransmitWtcpPacket` any number of
times with the identifier it got and then `ReleaseWtcpPacket` once, and when it returns `0` the
call of `Wtcp::Service` is over.

* `State`: the globals, both processors, and the history of the run: the packets published and
  handed over, the number of releases and of completed calls of `Wtcp::Service`;
* `step`: one step of one processor; `start g` is the state the constructors leave;
* `Inv` and `Inv.step`: what every step of either processor keeps.
-/

namespace Tet4120

/-- CPU1 between two packets, or between the receive and the release of one. -/
inductive Cpu1
  | idle
  | handling (out : ReceiveOut) (size : UInt16)

/-- The globals, the two processors, and the history of the run. -/
structure State where
  globals : Globals
  linux : Linux
  cpu1 : Cpu1
  delivered : List Message
  released : ℕ
  services : ℕ

/-- A step of one of the processors. -/
inductive Action
  | linux (a : LinuxAction)
  | receive (out : ReceiveOut)
  | transmit (data : ℕ → UInt8) (size : UInt16)
  | release

/-- The packet Wtcp is handed: its sender in `g_dest`, the returned size, the bytes at the
returned pointer. -/
def Globals.view (g : Globals) (out : ReceiveOut) (size : UInt16) : Option Message :=
  (g.destination out.identifier).map fun dst =>
    ⟨dst.address, dst.port, size,
      (List.range size.toNat).filterMap fun k => g.commHandler.inputByte (out.ppPacket + k)⟩

/-- One step of one processor. -/
def step (lib : CommLibrary) (s : State) : Action → Option State
  | .linux a =>
      (linuxStep s.globals.commHandler s.linux a).map fun w =>
        { s with globals := { s.globals with commHandler := w.1 }, linux := w.2 }
  | .receive out =>
      match s.cpu1 with
      | .handling _ _ => none
      | .idle =>
          let r := receiveWtcpPacket s.globals out
          -- Wtcp takes the size 0 for "no packet", whatever the outputs are
          if r.size = 0 then some { s with globals := r.globals, services := s.services + 1 }
          else
            some { s with
              globals := r.globals
              cpu1 := .handling r.out r.size
              delivered := s.delivered ++ (r.globals.view r.out r.size).toList }
  | .transmit data size =>
      match s.cpu1 with
      | .idle => none
      | .handling out _ =>
          (transmitWtcpPacket lib s.globals data size out.identifier).map fun g =>
            { s with globals := g }
  | .release =>
      match s.cpu1 with
      | .idle => none
      | .handling out _ =>
          some { s with
            globals := releaseWtcpPacket lib s.globals out.identifier
            cpu1 := .idle
            released := s.released + 1
            services := s.services + 1 }

/-- The state the constructors leave: an empty ring, whatever else the memory holds. -/
def start (g : Globals) : State where
  globals := { g with commHandler := { g.commHandler with control := g.commHandler.control.construct } }
  linux := ⟨.idle, []⟩
  cpu1 := .idle
  delivered := []
  released := 0
  services := 0

/-- The messages Linux enqueues meet `ok`. -/
def Action.Enqueues (ok : Message → Prop) : Action → Prop
  | .linux (.test m) => ok m
  | _ => True

/-- Globals with zeros everywhere, as `.bss` has them. -/
def zeroGlobals : Globals where
  commHandler :=
    { control := ⟨0, 0, 0, 0⟩
      input := fun _ => ⟨0, 0, 0, fun _ => 0⟩
      output := fun _ => ⟨0, 0, 0, fun _ => 0⟩ }
  dest := fun _ => ⟨0, 0⟩
  icdsgir := []

/-- The steps by which Linux enqueues `m`, header first. -/
def enqueueSteps (m : Message) : List Action :=
  [.linux (.test m), .linux (.fill .address), .linux (.fill .port), .linux (.fill .size)] ++
    List.replicate m.data.length (.linux (.fill .byte)) ++ [.linux .publish]

theorem enqueueSteps_enqueues {ok : Message → Prop} {m : Message} (hm : ok m) :
    ∀ a ∈ enqueueSteps m, a.Enqueues ok := by
  intro a ha
  simp only [enqueueSteps, List.mem_append, List.mem_cons, List.not_mem_nil, or_false,
    List.mem_replicate] at ha
  rcases ha with ((rfl | rfl | rfl | rfl) | ⟨-, rfl⟩) | rfl
  all_goals first | exact hm | trivial

/-- One byte from `10.0.0.1`, port `5000`. -/
def onePacket : Message := ⟨0x0A000001, 5000, 1, [0x55]⟩

/-! ### The packet Wtcp is handed -/

theorem filterMap_inputByte {c : CommunicationHandler} {i : Fin numReceiveBuffers} {m : Message}
    (hc : (c.input i).Carries m) (hm : m.WellFormed) :
    ((List.range m.size.toNat).filterMap fun k => c.inputByte (dataAddress i + k)) = m.data := by
  have hlen := hm.length_eq
  have hsize := hm.size_le
  have hbyte : ∀ k ∈ List.range m.size.toNat,
      c.inputByte (dataAddress i + k) = some (m.data.getD k 0) := by
    intro k hk
    have hk' : k < m.data.length := by rw [hlen]; exact List.mem_range.1 hk
    have hb : k < bufferSize := by omega
    rw [inputByte_dataAddress c i ⟨k, hb⟩, hc.data k hk' hb]
    simp [hk']
  rw [List.filterMap_congr hbyte, List.filterMap_eq_map', ← hlen]
  apply List.ext_getElem
  · simp
  · intro k h₁ h₂
    simp [h₂]

/-- A well-formed message is handed over as it was enqueued. -/
theorem view_of_carries {g : Globals} {out : ReceiveOut} {i : Fin numReceiveBuffers} {m : Message}
    (hid : out.identifier.toNat = i) (hptr : out.ppPacket = dataAddress i)
    (hdest : g.dest i = ⟨m.address, m.port⟩) (hc : (g.commHandler.input i).Carries m)
    (hm : m.WellFormed) : g.view out m.size = some m := by
  unfold Globals.view
  rw [destination_of_toNat_eq hid, Option.map_some, hptr, filterMap_inputByte hc hm, hdest]

/-- Wtcp gets the header of the packet `m`, and all of `m` if it is well formed. -/
structure Message.DeliveredAs (m v : Message) : Prop where
  address : v.address = m.address
  port : v.port = m.port
  size : v.size = m.size
  eq : m.WellFormed → v = m

/-- Whatever the packet is, its header is handed over as it was enqueued. -/
theorem deliveredAs_of_carries {g : Globals} {out : ReceiveOut} {i : Fin numReceiveBuffers}
    {m v : Message} (hid : out.identifier.toNat = i) (hptr : out.ppPacket = dataAddress i)
    (hdest : g.dest i = ⟨m.address, m.port⟩) (hc : (g.commHandler.input i).Carries m)
    (hv : g.view out m.size = some v) : m.DeliveredAs v := by
  have heq : m.WellFormed → v = m := fun hm =>
    Option.some.inj (hv.symm.trans (view_of_carries hid hptr hdest hc hm))
  unfold Globals.view at hv
  rw [destination_of_toNat_eq hid, Option.map_some, hdest] at hv
  cases hv
  exact ⟨rfl, rfl, rfl, heq⟩

/-! ### The invariant -/

/-- What `ReceiveWtcpPacket` hands over from a ring that is not empty: the oldest packet. -/
theorem RingInv.receiveWtcpPacket {g : Globals} {l : Linux} {base released : ℕ}
    (h : RingInv g.commHandler l base released) (hne : released < l.enqueued.length)
    (out : ReceiveOut) :
    (receiveWtcpPacket g out).size = l.enqueued[released].size ∧
    (receiveWtcpPacket g out).out.identifier.toNat
      = Fin.ofNat numReceiveBuffers (base + released) ∧
    (receiveWtcpPacket g out).out.ppPacket
      = dataAddress (Fin.ofNat numReceiveBuffers (base + released)) ∧
    (receiveWtcpPacket g out).globals.dest (Fin.ofNat numReceiveBuffers (base + released))
      = ⟨l.enqueued[released].address, l.enqueued[released].port⟩ := by
  have hempty := h.isEmpty_eq_false_iff.2 hne
  have hc := h.receive_carries hne
  have hslot := h.readSlot_eq
  refine ⟨?_, ?_, ?_, ?_⟩
  · rw [receiveWtcpPacket_size hempty, hc.size]
  · rw [receiveWtcpPacket_identifier hempty, hslot]
  · rw [receiveWtcpPacket_ppPacket hempty, hslot]
  · rw [← hslot, receiveWtcpPacket_dest hempty, hc.address, hc.port]

/-- The next call of `ReceiveWtcpPacket` hands over the packet `m`. -/
def Globals.HandsOver (g : Globals) (m : Message) : Prop :=
  ∀ out, (receiveWtcpPacket g out).size = m.size ∧
    ∃ v, (receiveWtcpPacket g out).globals.view (receiveWtcpPacket g out).out m.size = some v ∧
      m.DeliveredAs v

theorem RingInv.handsOver {g : Globals} {l : Linux} {base released : ℕ}
    (h : RingInv g.commHandler l base released) {m : Message}
    (hm : l.enqueued[released]? = some m) : g.HandsOver m := by
  obtain ⟨hne, rfl⟩ := List.getElem?_eq_some_iff.1 hm
  intro out
  obtain ⟨hsize, hid, hptr, hdest⟩ := h.receiveWtcpPacket hne out
  refine ⟨hsize, _, by rw [Globals.view, destination_of_toNat_eq hid, Option.map_some], ?_⟩
  refine deliveredAs_of_carries hid hptr hdest (by simpa using h.window.head hne) ?_
  rw [Globals.view, destination_of_toNat_eq hid, Option.map_some]

/-- CPU1 holds the oldest packet: its number, its slot, its size and its sender. -/
structure State.Holds (s : State) (base : ℕ) (out : ReceiveOut) (n : UInt16) : Prop where
  lt : s.released < s.linux.enqueued.length
  delivered : s.delivered.length = s.released + 1
  identifier : out.identifier.toNat = Fin.ofNat numReceiveBuffers (base + s.released)
  ppPacket : out.ppPacket = dataAddress (Fin.ofNat numReceiveBuffers (base + s.released))
  head : ∀ m, s.linux.enqueued[s.released]? = some m →
    n = m.size ∧
    s.globals.dest (Fin.ofNat numReceiveBuffers (base + s.released)) = ⟨m.address, m.port⟩

/-- The history agrees with where CPU1 is. -/
def State.Cpu1Inv (s : State) (base : ℕ) : Prop :=
  match s.cpu1 with
  | .idle => s.delivered.length = s.released
  | .handling out n => s.Holds base out n

/-- What every step of either processor keeps. -/
structure Inv (base : ℕ) (s : State) : Prop where
  ring : RingInv s.globals.commHandler s.linux base s.released
  cpu1 : s.Cpu1Inv base
  content : ∀ (i : ℕ) (v : Message), s.delivered[i]? = some v →
    ∃ m : Message, s.linux.enqueued[i]? = some m ∧ m.DeliveredAs v

theorem State.Cpu1Inv.idle {s : State} {base : ℕ} (h : s.Cpu1Inv base) (hpc : s.cpu1 = .idle) :
    s.delivered.length = s.released := by
  unfold State.Cpu1Inv at h; rw [hpc] at h; exact h

theorem State.Cpu1Inv.handling {s : State} {base : ℕ} {out : ReceiveOut} {n : UInt16}
    (h : s.Cpu1Inv base) (hpc : s.cpu1 = .handling out n) : s.Holds base out n := by
  unfold State.Cpu1Inv at h; rw [hpc] at h; exact h

/-- Everything a step can do, one case for each action. -/
theorem step_cases {lib : CommLibrary} {s t : State} {a : Action} (h : step lib s a = some t) :
    (∃ b c l, a = .linux b ∧ linuxStep s.globals.commHandler s.linux b = some (c, l) ∧
      t = { s with globals := { s.globals with commHandler := c }, linux := l }) ∨
    (∃ out, a = .receive out ∧ s.cpu1 = .idle ∧ (receiveWtcpPacket s.globals out).size = 0 ∧
      t = { s with
        globals := (receiveWtcpPacket s.globals out).globals
        services := s.services + 1 }) ∨
    (∃ out, a = .receive out ∧ s.cpu1 = .idle ∧ (receiveWtcpPacket s.globals out).size ≠ 0 ∧
      t = { s with
        globals := (receiveWtcpPacket s.globals out).globals
        cpu1 := .handling (receiveWtcpPacket s.globals out).out (receiveWtcpPacket s.globals out).size
        delivered := s.delivered ++ ((receiveWtcpPacket s.globals out).globals.view
          (receiveWtcpPacket s.globals out).out (receiveWtcpPacket s.globals out).size).toList }) ∨
    (∃ data size out n g, a = .transmit data size ∧ s.cpu1 = .handling out n ∧
      transmitWtcpPacket lib s.globals data size out.identifier = some g ∧
      t = { s with globals := g }) ∨
    (∃ out n, a = .release ∧ s.cpu1 = .handling out n ∧
      t = { s with
        globals := releaseWtcpPacket lib s.globals out.identifier
        cpu1 := .idle
        released := s.released + 1
        services := s.services + 1 }) := by
  cases a with
  | linux b =>
    obtain ⟨⟨c, l⟩, hw, rfl⟩ := Option.map_eq_some_iff.1 h
    exact Or.inl ⟨b, c, l, rfl, hw, rfl⟩
  | receive out =>
    cases hpc : s.cpu1 with
    | handling o n => simp [step, hpc] at h
    | idle =>
      simp only [step, hpc] at h
      split_ifs at h with hsize
      · cases h
        exact Or.inr (Or.inl ⟨out, rfl, rfl, hsize, rfl⟩)
      · cases h
        exact Or.inr (Or.inr (Or.inl ⟨out, rfl, rfl, hsize, rfl⟩))
  | transmit data size =>
    cases hpc : s.cpu1 with
    | idle => simp [step, hpc] at h
    | handling out n =>
      simp only [step, hpc] at h
      obtain ⟨g, hg, rfl⟩ := Option.map_eq_some_iff.1 h
      exact Or.inr (Or.inr (Or.inr (Or.inl ⟨data, size, out, n, g, rfl, rfl, hg, rfl⟩)))
  | release =>
    cases hpc : s.cpu1 with
    | idle => simp [step, hpc] at h
    | handling out n =>
      simp only [step, hpc, Option.some.injEq] at h
      exact Or.inr (Or.inr (Or.inr (Or.inr ⟨out, n, rfl, rfl, h.symm⟩)))

/-- A published packet keeps its number when Linux publishes more. -/
theorem getElem?_restrict {xs ys : List Message} {i : ℕ} {m : Message} (h : xs <+: ys)
    (hi : i < xs.length) (hm : ys[i]? = some m) : xs[i]? = some m := by
  obtain ⟨zs, rfl⟩ := h
  rwa [List.getElem?_append_left hi] at hm

theorem getElem?_mono {xs ys : List Message} {i : ℕ} {m : Message} (h : xs <+: ys)
    (hm : xs[i]? = some m) : ys[i]? = some m := by
  obtain ⟨zs, rfl⟩ := h
  rw [List.getElem?_append_left (List.getElem?_eq_some_iff.1 hm).1, hm]

namespace Inv

variable {lib : CommLibrary} {base : ℕ} {s t : State}

theorem linux_step (h : Inv base s) {b : LinuxAction} {c : CommunicationHandler} {l : Linux}
    (hs : linuxStep s.globals.commHandler s.linux b = some (c, l)) :
    Inv base { s with globals := { s.globals with commHandler := c }, linux := l } := by
  have hpre := linuxStep_enqueued hs
  have hlen := hpre.length_le
  refine ⟨h.ring.linuxStep hs, ?_, ?_⟩
  · cases hpc : s.cpu1 with
    | idle =>
      simp only [State.Cpu1Inv]
      exact h.cpu1.idle hpc
    | handling out n =>
      simp only [State.Cpu1Inv]
      have hh := h.cpu1.handling hpc
      have hlt := hh.lt
      exact ⟨by simp only; omega, hh.delivered, hh.identifier, hh.ppPacket,
        fun m hm => hh.head m (getElem?_restrict hpre hlt hm)⟩
  · intro i v hv
    obtain ⟨m, hm, hdel⟩ := h.content i v hv
    exact ⟨m, getElem?_mono hpre hm, hdel⟩

theorem receive_zero (h : Inv base s) (hpc : s.cpu1 = .idle) (out : ReceiveOut) :
    Inv base { s with
      globals := (receiveWtcpPacket s.globals out).globals, services := s.services + 1 } where
  ring := h.ring.congr (by simp) (by simp) (by simp)
  cpu1 := by
    simp only [State.Cpu1Inv, hpc]
    exact h.cpu1.idle hpc
  content := h.content

/-- A returned size means that there is a packet. -/
theorem lt_of_size_ne_zero (h : Inv base s) {out : ReceiveOut}
    (hsize : (receiveWtcpPacket s.globals out).size ≠ 0) : s.released < s.linux.enqueued.length := by
  rw [← h.ring.isEmpty_eq_false_iff, Bool.eq_false_iff]
  intro hempty
  rw [receiveWtcpPacket_of_isEmpty hempty] at hsize
  exact hsize rfl

theorem receive_step (h : Inv base s) (hpc : s.cpu1 = .idle) {out : ReceiveOut}
    (hsize : (receiveWtcpPacket s.globals out).size ≠ 0) :
    Inv base { s with
      globals := (receiveWtcpPacket s.globals out).globals
      cpu1 := .handling (receiveWtcpPacket s.globals out).out (receiveWtcpPacket s.globals out).size
      delivered := s.delivered ++ ((receiveWtcpPacket s.globals out).globals.view
        (receiveWtcpPacket s.globals out).out (receiveWtcpPacket s.globals out).size).toList } := by
  have hne := h.lt_of_size_ne_zero hsize
  have hlen := h.cpu1.idle hpc
  have hget : s.linux.enqueued[s.released]? = some s.linux.enqueued[s.released] :=
    List.getElem?_eq_getElem hne
  obtain ⟨-, hid, hptr, hdest⟩ := h.ring.receiveWtcpPacket hne out
  obtain ⟨hsz, v, hv, hdel⟩ := h.ring.handsOver hget out
  rw [← hsz] at hv
  refine ⟨h.ring.congr (by simp) (by simp) (by simp), ?_, ?_⟩
  · refine ⟨hne, by simp [hv, hlen], hid, hptr, fun m hm => ?_⟩
    simp only at hm ⊢
    rw [hget] at hm
    cases hm
    exact ⟨hsz, hdest⟩
  · intro i w hw
    simp only [hv, Option.toList_some] at hw ⊢
    by_cases hold : i < s.delivered.length
    · rw [List.getElem?_append_left hold] at hw
      exact h.content i w hw
    · have hi : i < (s.delivered ++ [v]).length := (List.getElem?_eq_some_iff.1 hw).1
      have hi' : i = s.delivered.length := by simp at hi; omega
      subst hi'
      -- the packet just handed over is number `released` of the queue
      rw [List.getElem?_append_right le_rfl, Nat.sub_self] at hw
      cases hw
      exact ⟨_, by rw [hlen]; exact hget, hdel⟩

theorem transmit_step (h : Inv base s) (hlib : lib.Documented) {data : ℕ → UInt8} {size : UInt16}
    {out : ReceiveOut} {n : UInt16} {g : Globals} (hpc : s.cpu1 = .handling out n)
    (hg : transmitWtcpPacket lib s.globals data size out.identifier = some g) :
    Inv base { s with globals := g } := by
  have hh := h.cpu1.handling hpc
  obtain ⟨d, hd, rfl⟩ := Option.map_eq_some_iff.1 hg
  obtain ⟨hin, hr, hw, -⟩ := hlib.addPacket_frame s.globals.commHandler d.address d.port size data
  refine ⟨h.ring.congr hin hr hw, ?_, h.content⟩
  simp only [State.Cpu1Inv, hpc]
  exact ⟨hh.lt, hh.delivered, hh.identifier, hh.ppPacket, hh.head⟩

theorem release_step (h : Inv base s) (hlib : lib.Documented) {out : ReceiveOut} {n : UInt16}
    (hpc : s.cpu1 = .handling out n) :
    Inv base { s with
      globals := releaseWtcpPacket lib s.globals out.identifier
      cpu1 := .idle
      released := s.released + 1
      services := s.services + 1 } := by
  have hh := h.cpu1.handling hpc
  exact ⟨h.ring.release hh.lt hlib, hh.delivered, h.content⟩

/-- **Every step of either processor keeps the invariant.** -/
theorem step (h : Inv base s) (hlib : lib.Documented) {a : Action} (hs : step lib s a = some t) :
    Inv base t := by
  rcases step_cases hs with ⟨b, c, l, -, hb, rfl⟩ | ⟨out, -, hpc, -, rfl⟩ |
    ⟨out, -, hpc, hsize, rfl⟩ | ⟨data, size, out, n, g, -, hpc, hg, rfl⟩ | ⟨out, n, -, hpc, rfl⟩
  · exact h.linux_step hb
  · exact h.receive_zero hpc out
  · exact h.receive_step hpc hsize
  · exact h.transmit_step hlib hpc hg
  · exact h.release_step hlib hpc

end Inv

/-- The constructors leave an empty ring. -/
theorem inv_start (g : Globals) : Inv 0 (start g) where
  ring :=
    { readIndex := rfl
      writeIndex := rfl
      window := ⟨le_rfl, show 0 < 0 + numReceiveBuffers by decide, fun i hi => absurd hi (Nat.not_lt_zero i)⟩
      filling := fun _ _ h => by cases h }
  cpu1 := rfl
  content _ _ hv := by cases hv

/-- Linux enqueues what its tests name. -/
theorem all_step {lib : CommLibrary} {ok : Message → Prop} {s t : State} {a : Action}
    (h : s.linux.All ok) (ha : a.Enqueues ok) (hs : step lib s a = some t) : t.linux.All ok := by
  rcases step_cases hs with ⟨b, c, l, rfl, hb, rfl⟩ | ⟨out, -, -, -, rfl⟩ |
    ⟨out, -, -, -, rfl⟩ | ⟨data, size, out, n, g, -, -, -, rfl⟩ | ⟨out, n, -, -, rfl⟩
  · exact h.linuxStep (fun m hm => by subst hm; exact ha) hb
  · exact h
  · exact h
  · exact h
  · exact h

theorem all_start (ok : Message → Prop) (g : Globals) : (start g).linux.All ok where
  enqueued _ hm := by cases hm
  filling _ _ hpc := by cases hpc

theorem all_run {lib : CommLibrary} {ok : Message → Prop} {s t : State} {as : List Action}
    (h : s.linux.All ok) (hok : ∀ a ∈ as, a.Enqueues ok)
    (hrun : Steps.run (step lib) s as = some t) : t.linux.All ok :=
  Steps.run_invariant (fun _ _ _ hs ha hst => all_step hs ha hst) h
    (Steps.along_of_forall_mem hok s) hrun

/-- **Every run keeps the invariant.** -/
theorem inv_run {lib : CommLibrary} (hlib : lib.Documented) {base : ℕ} {s t : State}
    {as : List Action} (h : Inv base s) (hrun : Steps.run (step lib) s as = some t) : Inv base t :=
  Steps.run_invariant_of_forall (fun _ _ _ hs ha => hs.step hlib ha) h hrun

end Tet4120

import Tet4120Lab.Comm.System

/-!
# Progress of the background loop

The callback `ReceiveWtcpPacket` answers `0` for an empty ring and for a queued packet whose
`m_data_len` is `0`, and `Wtcp::Service` takes both for an empty ring.

* `service_progress`: in every run in which no packet of length `0` is enqueued, the callback
  answers `0` on an empty ring only, and `Wtcp::Service` delivers the packet at position `k` of the
  queue within `k + 1` calls;
* `wedged_run`: once a packet of length `0` is the oldest one, no run delivers anything more;
* `zeroLength_wedges`: such a state is reached by enqueueing one packet.
-/

namespace Tet4120

/-! ### The answer of the callback -/

/-- The callback answers `0` when no packet waits and when the oldest one has length `0`. -/
theorem RingInv.size_eq_zero_iff {g : Globals} {l : Linux} {base released : ℕ}
    (h : RingInv g.commHandler l base released) (out : ReceiveOut) :
    (Tet4120.receiveWtcpPacket g out).size = 0 ↔
      ∀ m : Message, l.enqueued[released]? = some m → m.size = 0 := by
  rw [receiveWtcpPacket_size_eq_zero_iff, h.isEmpty_iff]
  constructor
  · rintro (rfl | hzero) m hm
    · rw [List.getElem?_eq_none le_rfl] at hm
      cases hm
    · obtain ⟨hlt, rfl⟩ := List.getElem?_eq_some_iff.1 hm
      rw [← (h.receive_carries hlt).size]
      exact hzero
  · intro hzero
    rcases h.window.lo_le.eq_or_lt with heq | hlt
    · exact Or.inl heq
    · refine Or.inr ?_
      rw [(h.receive_carries hlt).size]
      exact hzero _ (List.getElem?_eq_getElem hlt)

/-- With packets of non-zero length only, the callback answers `0` on an empty ring only. -/
theorem Inv.size_eq_zero_iff_isEmpty {base : ℕ} {s : State} (h : Inv base s)
    (hall : s.linux.All fun m => m.size ≠ 0) (out : ReceiveOut) :
    (receiveWtcpPacket s.globals out).size = 0 ↔
      s.globals.commHandler.control.isEmpty = true := by
  have hle := h.ring.window.lo_le
  rw [h.ring.size_eq_zero_iff, h.ring.isEmpty_iff]
  constructor
  · intro hzero
    by_contra hne
    have hget : s.linux.enqueued[s.released]? = some s.linux.enqueued[s.released] :=
      List.getElem?_eq_getElem (by omega)
    exact hall.enqueued _ (List.getElem_mem _) (hzero _ hget)
  · intro heq m hm
    rw [heq, List.getElem?_eq_none le_rfl] at hm
    cases hm

/-! ### Counting the calls of Service -/

/-- From `s` to `t` every call of `Wtcp::Service` gave one packet back, except those that came
when everything queued in `s` was already given back. -/
structure Progressed (s t : State) : Prop where
  enqueued : s.linux.enqueued <+: t.linux.enqueued
  released_le : t.released + s.services ≤ s.released + t.services
  le_released : s.linux.enqueued.length ≤ t.released ∨
    s.released + t.services ≤ t.released + s.services

theorem Progressed.refl (s : State) : Progressed s s := ⟨List.prefix_rfl, le_rfl, Or.inr le_rfl⟩

section Step

variable {lib : CommLibrary} {base : ℕ} {s t u : State} {a : Action}

theorem Progressed.step (h : Progressed s t) (hinv : Inv base t)
    (hall : t.linux.All fun m => m.size ≠ 0) (hs : step lib t a = some u) : Progressed s u := by
  obtain ⟨hpre, hle, hge⟩ := h
  rcases step_cases hs with ⟨b, c, l, -, hb, rfl⟩ | ⟨out, -, -, hsize, rfl⟩ |
    ⟨out, -, -, -, rfl⟩ | ⟨data, size, out, n, g, -, -, -, rfl⟩ | ⟨out, n, -, -, rfl⟩
  · exact ⟨hpre.trans (linuxStep_enqueued hb), hle, hge⟩
  · -- the ring is empty, so everything queued is given back
    have hempty := (hinv.size_eq_zero_iff_isEmpty hall out).1 hsize
    have heq := hinv.ring.isEmpty_iff.1 hempty
    have hlen := hpre.length_le
    exact ⟨hpre, by simp only; omega, Or.inl (by simp only; omega)⟩
  · exact ⟨hpre, hle, hge⟩
  · exact ⟨hpre, hle, hge⟩
  · exact ⟨hpre, by simp only; omega, by simp only; omega⟩

/-- What holds along a run without packets of length `0`. -/
theorem progressed_run (hlib : lib.Documented) (hinv : Inv base s)
    (hall : s.linux.All fun m => m.size ≠ 0) {as : List Action}
    (hok : ∀ a ∈ as, a.Enqueues fun m => m.size ≠ 0)
    (hrun : Steps.run (Tet4120.step lib) s as = some t) : Inv base t ∧ Progressed s t := by
  have hI := Steps.run_invariant (P := fun _ a => Action.Enqueues (fun m => m.size ≠ 0) a)
    (I := fun u => Inv base u ∧ (u.linux.All fun m => m.size ≠ 0) ∧ Progressed s u)
    (fun u b v hu hb hv =>
      ⟨hu.1.step hlib hv, all_step hu.2.1 hb hv, hu.2.2.step hu.1 hu.2.1 hv⟩)
    ⟨hinv, hall, Progressed.refl s⟩ (Steps.along_of_forall_mem hok s) hrun
  exact ⟨hI.1, hI.2.2⟩

theorem Inv.released_le (h : Inv base s) : s.released ≤ s.delivered.length := by
  cases hpc : s.cpu1 with
  | idle => rw [h.cpu1.idle hpc]
  | handling out n => have := (h.cpu1.handling hpc).delivered; omega

/-- A call of `Wtcp::Service` on a ring that is not empty moves the read index on by one slot. -/
theorem Progressed.readIndex (h : Progressed s t) (hs : Inv base s) (ht : Inv base t)
    (hne : s.globals.commHandler.control.isEmpty = false) (hone : t.services = s.services + 1) :
    t.globals.commHandler.control.nInputReadIndex.toNat
      = (s.globals.commHandler.control.nInputReadIndex.toNat + 1) % numReceiveBuffers := by
  have hlt := hs.ring.isEmpty_eq_false_iff.1 hne
  have hle := h.released_le
  have hge := h.le_released
  have heq : t.released = s.released + 1 := by omega
  rw [ht.ring.readIndex, hs.ring.readIndex, heq, Nat.mod_add_mod, Nat.add_assoc]

/-- The packet at position `k` of the queue of `s` is handed over within `k + 1` calls. -/
theorem Progressed.delivered (h : Progressed s t) (ht : Inv base t) {k : ℕ} {m : Message}
    (hm : s.linux.enqueued[s.released + k]? = some m) (hk : s.services + (k + 1) ≤ t.services) :
    ∃ v, t.delivered[s.released + k]? = some v ∧ m.DeliveredAs v := by
  have hlt : s.released + k < s.linux.enqueued.length := (List.getElem?_eq_some_iff.1 hm).1
  have hge := h.le_released
  have hdel := ht.released_le
  have hget : t.delivered[s.released + k]? = some t.delivered[s.released + k] :=
    List.getElem?_eq_getElem (by omega)
  obtain ⟨m', hm', has⟩ := ht.content _ _ hget
  rw [getElem?_mono h.enqueued hm] at hm'
  cases hm'
  exact ⟨_, hget, has⟩

end Step

/-- **Without packets of length `0` no queued packet wedges the ring.** -/
theorem service_progress {lib : CommLibrary} (hlib : lib.Documented) (g : Globals)
    (as : List Action) (s : State) (hok : ∀ a ∈ as, a.Enqueues fun m => m.size ≠ 0)
    (hrun : Steps.run (step lib) (start g) as = some s) :
    (∀ out, (receiveWtcpPacket s.globals out).size = 0 ↔
      s.globals.commHandler.control.isEmpty = true) ∧
    ∀ (bs : List Action) (t : State), (∀ a ∈ bs, a.Enqueues fun m => m.size ≠ 0) →
      Steps.run (step lib) s bs = some t →
      (s.globals.commHandler.control.isEmpty = false → t.services = s.services + 1 →
        t.globals.commHandler.control.nInputReadIndex.toNat
          = (s.globals.commHandler.control.nInputReadIndex.toNat + 1) % numReceiveBuffers) ∧
      ∀ (k : ℕ) (m : Message), s.linux.enqueued[s.released + k]? = some m →
        s.services + (k + 1) ≤ t.services →
        ∃ v, t.delivered[s.released + k]? = some v ∧ m.DeliveredAs v := by
  have hinv : Inv 0 s := inv_run hlib (inv_start g) hrun
  have hall : s.linux.All fun m => m.size ≠ 0 := all_run (all_start _ g) hok hrun
  refine ⟨fun out => hinv.size_eq_zero_iff_isEmpty hall out, fun bs t hbs ht => ?_⟩
  obtain ⟨hinv', hprog⟩ := progressed_run hlib hinv hall hbs ht
  exact ⟨fun hne hone => hprog.readIndex hinv hinv' hne hone,
    fun k m hm hk => hprog.delivered hinv' hm hk⟩

theorem service_progress_onePacket :
    ∃ s t, Steps.run (step .prebuilt) (start zeroGlobals) (enqueueSteps onePacket) = some s ∧
      Steps.run (step .prebuilt) s [.receive ⟨0, 0⟩, .release] = some t ∧
      t.globals.commHandler.control.nInputReadIndex.toNat
        = (s.globals.commHandler.control.nInputReadIndex.toNat + 1) % numReceiveBuffers ∧
      ∃ v, t.delivered[0]? = some v ∧ onePacket.DeliveredAs v := by
  have hs : (Steps.run (step .prebuilt) (start zeroGlobals) (enqueueSteps onePacket)).map
      (fun s => (s.globals.commHandler.control.isEmpty, s.services, s.released, s.linux.enqueued))
      = some (false, 0, 0, [onePacket]) := by decide +kernel
  have ht : (Steps.run (step .prebuilt) (start zeroGlobals)
      (enqueueSteps onePacket ++ [.receive ⟨0, 0⟩, .release])).map (fun t => t.services)
      = some 1 := by decide +kernel
  obtain ⟨s, hrun, hs⟩ := Option.map_eq_some_iff.1 hs
  obtain ⟨t, hrun', ht⟩ := Option.map_eq_some_iff.1 ht
  rw [Steps.run_append_of_eq hrun] at hrun'
  simp only [Prod.mk.injEq] at hs
  obtain ⟨hne, hservices, hreleased, henqueued⟩ := hs
  have hok : ∀ a ∈ enqueueSteps onePacket, a.Enqueues fun m => m.size ≠ 0 :=
    enqueueSteps_enqueues (by decide)
  have hok' : ∀ a ∈ [Action.receive ⟨0, 0⟩, Action.release], a.Enqueues fun m => m.size ≠ 0 := by
    simp [Action.Enqueues]
  obtain ⟨hindex, hdelivered⟩ :=
    (service_progress CommLibrary.prebuilt_documented zeroGlobals _ s hok hrun).2 _ t hok' hrun'
  refine ⟨s, t, hrun, hrun', hindex hne (by omega), ?_⟩
  have := hdelivered 0 onePacket (by rw [hreleased, henqueued]; rfl) (by omega)
  rwa [hreleased] at this

/-! ### A packet of length 0 -/

/-- The oldest packet has length `0` and CPU1 is between two calls. -/
structure Wedged (base : ℕ) (s : State) : Prop where
  inv : Inv base s
  idle : s.cpu1 = .idle
  head : ∃ m : Message, s.linux.enqueued[s.released]? = some m ∧ m.size = 0

theorem Wedged.step {lib : CommLibrary} {base : ℕ} {s t : State} {a : Action} (h : Wedged base s)
    (hlib : lib.Documented) (hs : step lib s a = some t) :
    Wedged base t ∧ t.released = s.released ∧ t.delivered = s.delivered := by
  have hinv := h.inv.step hlib hs
  obtain ⟨m, hm, hzero⟩ := h.head
  have hpc := h.idle
  rcases step_cases hs with ⟨b, c, l, -, hb, rfl⟩ | ⟨out, -, -, -, rfl⟩ |
    ⟨out, -, -, hsize, rfl⟩ | ⟨data, size, out, n, g, -, hpc', -, rfl⟩ |
    ⟨out, n, -, hpc', rfl⟩
  · exact ⟨⟨hinv, hpc, m, getElem?_mono (linuxStep_enqueued hb) hm, hzero⟩, rfl, rfl⟩
  · exact ⟨⟨hinv, hpc, m, hm, hzero⟩, rfl, rfl⟩
  · -- the callback answers 0, so nothing is handed over
    refine absurd ((h.inv.ring.size_eq_zero_iff out).2 fun m' hm' => ?_) hsize
    rw [hm] at hm'
    cases hm'
    exact hzero
  · rw [hpc] at hpc'; cases hpc'
  · rw [hpc] at hpc'; cases hpc'

/-- **Behind a packet of length `0` nothing is delivered any more.** -/
theorem wedged_run {lib : CommLibrary} (hlib : lib.Documented) {base : ℕ} {s t : State}
    {as : List Action} (h : Wedged base s) (hrun : Steps.run (step lib) s as = some t) :
    Wedged base t ∧ t.released = s.released ∧ t.delivered = s.delivered :=
  Steps.run_invariant_of_forall
    (I := fun u => Wedged base u ∧ u.released = s.released ∧ u.delivered = s.delivered)
    (fun u b v hu hv => by
      obtain ⟨hw, hr, hd⟩ := hu.1.step hlib hv
      exact ⟨hw, hr.trans hu.2.1, hd.trans hu.2.2⟩)
    ⟨h, rfl, rfl⟩ hrun

/-- No data, from the same sender. -/
def zeroLengthPacket : Message := ⟨0x0A000001, 5000, 0, []⟩

theorem zeroLength_wedges :
    ∃ s, Steps.run (step .prebuilt) (start zeroGlobals) (enqueueSteps zeroLengthPacket) = some s ∧
      s.linux.enqueued = [zeroLengthPacket] ∧
      (¬ ∀ out, (receiveWtcpPacket s.globals out).size = 0 ↔
        s.globals.commHandler.control.isEmpty = true) ∧
      ∀ bs t, Steps.run (step .prebuilt) s bs = some t → t.delivered = [] := by
  have hs : (Steps.run (step .prebuilt) (start zeroGlobals) (enqueueSteps zeroLengthPacket)).map
      (fun s => ((receiveWtcpPacket s.globals ⟨0, 0⟩).size, s.globals.commHandler.control.isEmpty,
        s.released, s.delivered, s.linux.enqueued))
      = some (0, false, 0, [], [zeroLengthPacket]) := by decide +kernel
  have hidle : (Steps.run (step .prebuilt) (start zeroGlobals) (enqueueSteps zeroLengthPacket)).map
      (fun s => s.cpu1) = some .idle := rfl
  obtain ⟨s, hrun, hs⟩ := Option.map_eq_some_iff.1 hs
  simp only [Prod.mk.injEq] at hs
  obtain ⟨hsize, hne, hreleased, hdelivered, henqueued⟩ := hs
  rw [hrun, Option.map_some, Option.some.injEq] at hidle
  refine ⟨s, hrun, henqueued, fun hiff => ?_, fun bs t ht => ?_⟩
  · rw [(hiff ⟨0, 0⟩).1 hsize] at hne
    cases hne
  · have hlib := CommLibrary.prebuilt_documented
    have hinv : Inv 0 s := inv_run hlib (inv_start zeroGlobals) hrun
    have hwedged : Wedged 0 s :=
      ⟨hinv, hidle, zeroLengthPacket, by rw [hreleased, henqueued]; rfl, rfl⟩
    rw [(wedged_run hlib hwedged ht).2.2, hdelivered]

end Tet4120

import Tet4120Lab.Comm.System

/-!
# The start of CPU1 on a live ring

Linux may use the rings before CPU1 starts.  CPU1 then constructs `g_commHandler`, which stores `0`
in the four index words one after the other, remaps the section of the rings in `main`, and calls
the callbacks.  Up to the remapping the section is cacheable without allocation on a write: a store
goes to memory unless the cache holds the line of the header, a line that was written to goes back
to memory as a whole, and `SetTlbAttributes` cleans the cache.

* `bootStep`: one step of Linux, of the cache or of CPU1, from `boot g queued` on;
* `Boot.undisturbed`: the constructor stores to words that are `0`, and not to a line that Linux has
  outdated; Linux publishes and takes nothing while the line is dirty; a release finds a packet;
* `Boot.LineInv`: then a line that is written back changes no word of Linux;
* `startup_keeps_queue`: in every run of such steps CPU1 changes no word of Linux, the queue is what
  Linux enqueued less what CPU1 released, and every packet in it is handed over in its turn;
* `startup_loses_packet`: the run in which Linux enqueues one packet before the constructor.
-/

namespace Tet4120

/-- Before the remapping, with the words the constructor has still to set, or after it. -/
inductive Phase
  | constructing (todo : List HeaderWord)
  | running

/-- The line of the level 1 cache that holds the header. -/
structure CacheLine where
  header : ControlHeader
  dirty : Bool

/-- The shared memory and the other globals, Linux, and CPU1 with its cache. -/
structure Boot where
  globals : Globals
  linux : Linux
  phase : Phase
  line : Option CacheLine
  released : ℕ

/-- A step of Linux, of the cache (`fill`, `evict`) or of CPU1. -/
inductive BootAction
  | linux (a : LinuxAction)
  | fill
  | evict
  | construct
  | remap
  | receive (out : ReceiveOut)
  | transmit (data : ℕ → UInt8) (size : UInt16) (identifier : UInt32)
  | release (identifier : UInt32)

/-- Replace the header in memory. -/
def Globals.setControl (g : Globals) (h : ControlHeader) : Globals :=
  { g with commHandler := { g.commHandler with control := h } }

/-- The memory after the line has left the cache. -/
def Boot.writtenBack (s : Boot) : Globals :=
  match s.line with
  | some ⟨h, true⟩ => s.globals.setControl h
  | _ => s.globals

/-- One step. -/
def bootStep (lib : CommLibrary) (s : Boot) : BootAction → Option Boot
  | .linux a =>
      (linuxStep s.globals.commHandler s.linux a).map fun w =>
        { s with globals := { s.globals with commHandler := w.1 }, linux := w.2 }
  | .fill =>
      match s.phase, s.line with
      | .constructing _, none =>
          some { s with line := some ⟨s.globals.commHandler.control, false⟩ }
      | _, _ => none
  | .evict => some { s with globals := s.writtenBack, line := none }
  | .construct =>
      match s.phase, s.line with
      -- a miss does not allocate: the store goes to memory
      | .constructing (w :: ws), none =>
          some { s with
            globals := s.globals.setControl (s.globals.commHandler.control.set w 0)
            phase := .constructing ws }
      | .constructing (w :: ws), some l =>
          some { s with line := some ⟨l.header.set w 0, true⟩, phase := .constructing ws }
      | _, _ => none
  | .remap =>
      match s.phase with
      | .constructing [] => some { s with globals := s.writtenBack, line := none, phase := .running }
      | _ => none
  | .receive out =>
      match s.phase with
      | .running => some { s with globals := (receiveWtcpPacket s.globals out).globals }
      | _ => none
  | .transmit data size identifier =>
      match s.phase with
      | .running =>
          (transmitWtcpPacket lib s.globals data size identifier).map fun g =>
            { s with globals := g }
      | _ => none
  | .release identifier =>
      match s.phase with
      | .running =>
          some { s with
            globals := releaseWtcpPacket lib s.globals identifier, released := s.released + 1 }
      | _ => none

/-- CPU1 about to run its constructors, with `queued` in the ring. -/
def boot (g : Globals) (queued : List Message) : Boot where
  globals := g
  linux := ⟨.idle, queued⟩
  phase := .constructing ControlHeader.constructorWords
  line := none
  released := 0

/-- Two headers agree on the word of the input ring CPU1 owns and on the words of Linux. -/
def ControlHeader.agrees (h h' : ControlHeader) : Bool :=
  h.nInputReadIndex == h'.nInputReadIndex && h.nInputWriteIndex == h'.nInputWriteIndex &&
    h.nOutputReadIndex == h'.nOutputReadIndex

/-- The word is `0`, or the write index of the output ring. -/
def ControlHeader.isZeroAt (h : ControlHeader) (w : HeaderWord) : Bool :=
  w == .outputWriteIndex || h.get w == 0

/-- The cache does not hold the header, or it holds those words as memory does: Linux has changed
none since the line was filled. -/
def Boot.lineCurrent (s : Boot) : Bool :=
  match s.line with
  | none => true
  | some l => l.header.agrees s.globals.commHandler.control

/-- The cache holds a header that CPU1 has stored to. -/
def Boot.lineDirty (s : Boot) : Bool :=
  match s.line with
  | none => false
  | some l => l.dirty

/-- The constructor stores to a word that is `0` in memory, and not to a line that is out of date;
Linux publishes nothing and takes nothing while the line is dirty; a release finds a packet. -/
def Boot.undisturbed (s : Boot) : BootAction → Bool
  | .construct =>
      match s.phase with
      | .constructing (w :: _) => s.globals.commHandler.control.isZeroAt w && s.lineCurrent
      | _ => true
  | .linux .publish => !s.lineDirty
  | .linux .dequeue => !s.lineDirty
  | .release _ => !s.globals.commHandler.control.isEmpty
  | _ => true

/-- The number of packets between the two input indices. -/
def ControlHeader.queued (h : ControlHeader) : ℕ :=
  (h.nInputWriteIndex.toNat + numReceiveBuffers - h.nInputReadIndex.toNat) % numReceiveBuffers

theorem ControlHeader.agrees_iff {h h' : ControlHeader} : h.agrees h' = true ↔
    h.nInputReadIndex = h'.nInputReadIndex ∧ h.nInputWriteIndex = h'.nInputWriteIndex ∧
      h.nOutputReadIndex = h'.nOutputReadIndex := by
  simp [ControlHeader.agrees, and_assoc]

theorem ControlHeader.agrees_refl (h : ControlHeader) : h.agrees h = true :=
  ControlHeader.agrees_iff.2 ⟨rfl, rfl, rfl⟩

/-- A store of `0` to a word that is `0` in memory. -/
theorem ControlHeader.agrees_set_zero {h h' : ControlHeader} {w : HeaderWord}
    (h₁ : h.agrees h' = true) (hw : h'.isZeroAt w = true) : (h.set w 0).agrees h' = true := by
  obtain ⟨hr, hi, ho⟩ := ControlHeader.agrees_iff.1 h₁
  cases w with
  | outputWriteIndex => exact h₁
  | inputReadIndex => exact ControlHeader.agrees_iff.2 ⟨(beq_iff_eq.1 hw).symm, hi, ho⟩
  | inputWriteIndex => exact ControlHeader.agrees_iff.2 ⟨hr, (beq_iff_eq.1 hw).symm, ho⟩
  | outputReadIndex => exact ControlHeader.agrees_iff.2 ⟨hr, hi, (beq_iff_eq.1 hw).symm⟩

theorem writtenBack_input (s : Boot) :
    s.writtenBack.commHandler.input = s.globals.commHandler.input := by
  unfold Boot.writtenBack
  split <;> rfl

/-- Everything a step can do, one case for each action and two for the constructor. -/
theorem bootStep_cases {lib : CommLibrary} {s t : Boot} {a : BootAction}
    (h : bootStep lib s a = some t) :
    (∃ b c l, a = .linux b ∧ linuxStep s.globals.commHandler s.linux b = some (c, l) ∧
      t = { s with globals := { s.globals with commHandler := c }, linux := l }) ∨
    (∃ todo, a = .fill ∧ s.phase = .constructing todo ∧
      t = { s with line := some ⟨s.globals.commHandler.control, false⟩ }) ∨
    (a = .evict ∧ t = { s with globals := s.writtenBack, line := none }) ∨
    (∃ w ws, a = .construct ∧ s.phase = .constructing (w :: ws) ∧ s.line = none ∧
      t = { s with
        globals := s.globals.setControl (s.globals.commHandler.control.set w 0)
        phase := .constructing ws }) ∨
    (∃ w ws l, a = .construct ∧ s.phase = .constructing (w :: ws) ∧ s.line = some l ∧
      t = { s with line := some ⟨l.header.set w 0, true⟩, phase := .constructing ws }) ∨
    (a = .remap ∧ t = { s with globals := s.writtenBack, line := none, phase := .running }) ∨
    (∃ out, a = .receive out ∧ s.phase = .running ∧
      t = { s with globals := (receiveWtcpPacket s.globals out).globals }) ∨
    (∃ data size identifier g, a = .transmit data size identifier ∧ s.phase = .running ∧
      transmitWtcpPacket lib s.globals data size identifier = some g ∧
      t = { s with globals := g }) ∨
    (∃ identifier, a = .release identifier ∧ s.phase = .running ∧
      t = { s with
        globals := releaseWtcpPacket lib s.globals identifier, released := s.released + 1 }) := by
  cases a with
  | linux b =>
    obtain ⟨⟨c, l⟩, hw, rfl⟩ := Option.map_eq_some_iff.1 h
    exact Or.inl ⟨b, c, l, rfl, hw, rfl⟩
  | fill =>
    simp only [bootStep] at h
    split at h
    · rename_i todo hphase hline
      cases h
      exact Or.inr (Or.inl ⟨todo, rfl, hphase, rfl⟩)
    · cases h
  | evict =>
    cases h
    exact Or.inr (Or.inr (Or.inl ⟨rfl, rfl⟩))
  | construct =>
    simp only [bootStep] at h
    split at h
    · rename_i w ws hphase hline
      cases h
      exact Or.inr (Or.inr (Or.inr (Or.inl ⟨w, ws, rfl, hphase, hline, rfl⟩)))
    · rename_i w ws l hphase hline
      cases h
      exact Or.inr (Or.inr (Or.inr (Or.inr (Or.inl ⟨w, ws, l, rfl, hphase, hline, rfl⟩))))
    · cases h
  | remap =>
    simp only [bootStep] at h
    split at h
    · cases h
      exact Or.inr (Or.inr (Or.inr (Or.inr (Or.inr (Or.inl ⟨rfl, rfl⟩)))))
    · cases h
  | receive out =>
    simp only [bootStep] at h
    split at h
    · rename_i hphase
      cases h
      exact Or.inr (Or.inr (Or.inr (Or.inr (Or.inr (Or.inr (Or.inl ⟨out, rfl, hphase, rfl⟩))))))
    · cases h
  | transmit data size identifier =>
    simp only [bootStep] at h
    split at h
    · rename_i hphase
      obtain ⟨g, hg, rfl⟩ := Option.map_eq_some_iff.1 h
      exact Or.inr (Or.inr (Or.inr (Or.inr (Or.inr (Or.inr (Or.inr (Or.inl
        ⟨data, size, identifier, g, rfl, hphase, hg, rfl⟩)))))))
    · cases h
  | release identifier =>
    simp only [bootStep] at h
    split at h
    · rename_i hphase
      cases h
      exact Or.inr (Or.inr (Or.inr (Or.inr (Or.inr (Or.inr (Or.inr (Or.inr
        ⟨identifier, rfl, hphase, rfl⟩)))))))
    · cases h

/-! ### The line of the header -/

/-- What is written back is what memory holds; after the remapping nothing is. -/
structure Boot.LineInv (s : Boot) : Prop where
  dirty : s.lineDirty = true → s.lineCurrent = true
  running : s.phase = .running → s.line = none

/-- **The write-back of a line that Linux has not outdated changes none of the words.** -/
theorem Boot.LineInv.writtenBack {s : Boot} (h : s.LineInv) :
    s.writtenBack.commHandler.control.agrees s.globals.commHandler.control = true := by
  unfold Boot.writtenBack
  split
  · rename_i header hline
    have hcurrent : s.lineCurrent = true := h.dirty (by rw [Boot.lineDirty, hline])
    rw [Boot.lineCurrent, hline] at hcurrent
    exact hcurrent
  · exact ControlHeader.agrees_refl _

theorem Boot.lineInv_of_none {s : Boot} (h : s.line = none) : s.LineInv where
  dirty hd := by rw [Boot.lineDirty, h] at hd; cases hd
  running _ := h

section Step

variable {lib : CommLibrary} {base : ℕ} {s t : Boot} {a : BootAction}

/-- Of the steps of Linux those that leave the header alone, and the others only while the line is
not dirty. -/
theorem Boot.LineInv.linux (h : s.LineInv) {b : LinuxAction} {c : CommunicationHandler} {l : Linux}
    (hP : s.undisturbed (.linux b) = true)
    (hb : linuxStep s.globals.commHandler s.linux b = some (c, l)) :
    Boot.LineInv { s with globals := { s.globals with commHandler := c }, linux := l } where
  dirty hd := by
    have hclean : s.lineDirty ≠ false := by rw [show s.lineDirty = true from hd]; decide
    rcases linuxStep_cases hb with ⟨m, rfl, -, -, -, rfl, -⟩ | ⟨f, m, d, p, d', rfl, -, -, rfl, -⟩ |
      ⟨m, d, rfl, -, -, rfl, -⟩ | ⟨rfl, rfl, -⟩
    · exact h.dirty hd
    · exact h.dirty hd
    · exact absurd ((Bool.not_eq_true' _).mp hP) hclean
    · exact absurd ((Bool.not_eq_true' _).mp hP) hclean
  running hphase := h.running hphase

/-- **An undisturbed step keeps the line in step with memory.** -/
theorem Boot.LineInv.step (h : s.LineInv) (hP : s.undisturbed a = true)
    (hs : bootStep lib s a = some t) : t.LineInv := by
  rcases bootStep_cases hs with ⟨b, c, l, rfl, hb, rfl⟩ | ⟨todo, rfl, hphase, rfl⟩ | ⟨-, rfl⟩ |
    ⟨w, ws, rfl, hphase, hline, rfl⟩ | ⟨w, ws, l, rfl, hphase, hline, rfl⟩ | ⟨-, rfl⟩ |
    ⟨out, -, hphase, rfl⟩ | ⟨data, size, identifier, g, -, hphase, -, rfl⟩ |
    ⟨identifier, -, hphase, rfl⟩
  · exact h.linux hP hb
  · refine ⟨fun hd => ?_, fun hrunning => ?_⟩
    · cases hd
    · rw [show s.phase = .running from hrunning] at hphase
      cases hphase
  · exact Boot.lineInv_of_none rfl
  · exact Boot.lineInv_of_none hline
  · refine ⟨fun _ => ?_, fun hrunning => by cases hrunning⟩
    simp only [Boot.undisturbed, hphase, Bool.and_eq_true, Boot.lineCurrent, hline] at hP
    exact ControlHeader.agrees_set_zero hP.2 hP.1
  · exact Boot.lineInv_of_none rfl
  · exact Boot.lineInv_of_none (h.running hphase)
  · exact Boot.lineInv_of_none (h.running hphase)
  · exact Boot.lineInv_of_none (h.running hphase)

/-! ### The queue -/

/-- What a step of CPU1 other than a release leaves as it was. -/
structure Boot.Keeps (s t : Boot) : Prop where
  linux : t.linux = s.linux
  released : t.released = s.released
  input : t.globals.commHandler.input = s.globals.commHandler.input
  readIndex : t.globals.commHandler.control.nInputReadIndex
    = s.globals.commHandler.control.nInputReadIndex
  writeIndex : t.globals.commHandler.control.nInputWriteIndex
    = s.globals.commHandler.control.nInputWriteIndex
  outputReadIndex : t.globals.commHandler.control.nOutputReadIndex
    = s.globals.commHandler.control.nOutputReadIndex

theorem Boot.Keeps.of_agrees (hlinux : t.linux = s.linux) (hreleased : t.released = s.released)
    (hin : t.globals.commHandler.input = s.globals.commHandler.input)
    (h : t.globals.commHandler.control.agrees s.globals.commHandler.control = true) :
    s.Keeps t := by
  obtain ⟨hr, hw, ho⟩ := ControlHeader.agrees_iff.1 h
  exact ⟨hlinux, hreleased, hin, hr, hw, ho⟩

/-- A step inside the cache, or one that only reads the rings. -/
theorem Boot.Keeps.of_commHandler (hlinux : t.linux = s.linux) (hreleased : t.released = s.released)
    (h : t.globals.commHandler = s.globals.commHandler) : s.Keeps t := by
  refine ⟨hlinux, hreleased, ?_, ?_, ?_, ?_⟩ <;> rw [h]

/-- An undisturbed step is a step of Linux, a release, or changes no word of either. -/
theorem undisturbed_cases (hlib : lib.Documented) (hline : s.LineInv) (hP : s.undisturbed a = true)
    (hs : bootStep lib s a = some t) :
    (∃ b c l, a = .linux b ∧ linuxStep s.globals.commHandler s.linux b = some (c, l) ∧
      t = { s with globals := { s.globals with commHandler := c }, linux := l }) ∨
    (∃ identifier, a = .release identifier ∧
      s.globals.commHandler.control.isEmpty = false ∧
      t = { s with
        globals := releaseWtcpPacket lib s.globals identifier, released := s.released + 1 }) ∨
    s.Keeps t := by
  rcases bootStep_cases hs with hlinux | ⟨todo, -, -, rfl⟩ | ⟨-, rfl⟩ |
    ⟨w, ws, rfl, hphase, -, rfl⟩ | ⟨w, ws, l, -, -, -, rfl⟩ | ⟨-, rfl⟩ | ⟨out, -, -, rfl⟩ |
    ⟨data, size, identifier, g, -, -, hg, rfl⟩ | ⟨identifier, rfl, -, rfl⟩
  · exact Or.inl hlinux
  · exact Or.inr (Or.inr (Boot.Keeps.of_commHandler rfl rfl rfl))
  · exact Or.inr (Or.inr (Boot.Keeps.of_agrees rfl rfl (writtenBack_input s) hline.writtenBack))
  · -- the constructor stores past the cache
    simp only [Boot.undisturbed, hphase, Bool.and_eq_true] at hP
    exact Or.inr (Or.inr (Boot.Keeps.of_agrees rfl rfl rfl
      (ControlHeader.agrees_set_zero (ControlHeader.agrees_refl _) hP.1)))
  · exact Or.inr (Or.inr (Boot.Keeps.of_commHandler rfl rfl rfl))
  · exact Or.inr (Or.inr (Boot.Keeps.of_agrees rfl rfl (writtenBack_input s) hline.writtenBack))
  · exact Or.inr (Or.inr (Boot.Keeps.of_commHandler rfl rfl receiveWtcpPacket_commHandler))
  · obtain ⟨d, -, rfl⟩ := Option.map_eq_some_iff.1 hg
    obtain ⟨hin, hr, hw, ho⟩ :=
      hlib.addPacket_frame s.globals.commHandler d.address d.port size data
    exact Or.inr (Or.inr ⟨rfl, rfl, hin, hr, hw, ho⟩)
  · exact Or.inr (Or.inl ⟨identifier, rfl, (Bool.not_eq_true' _).mp hP, rfl⟩)

/-- The ring and the line of its header in an undisturbed start. -/
structure BootInv (base : ℕ) (s : Boot) : Prop where
  ring : RingInv s.globals.commHandler s.linux base s.released
  line : s.LineInv

/-- An undisturbed step keeps the invariant and appends to the packets of Linux. -/
theorem BootInv.step (hlib : lib.Documented) (h : BootInv base s) (hP : s.undisturbed a = true)
    (hs : bootStep lib s a = some t) : BootInv base t ∧ s.linux.enqueued <+: t.linux.enqueued := by
  have hline := h.line.step hP hs
  rcases undisturbed_cases hlib h.line hP hs with ⟨b, c, l, -, hb, rfl⟩ |
    ⟨identifier, -, hne, rfl⟩ | hk
  · exact ⟨⟨h.ring.linuxStep hb, hline⟩, linuxStep_enqueued hb⟩
  · exact ⟨⟨h.ring.release (h.ring.isEmpty_eq_false_iff.1 hne) hlib, hline⟩, List.prefix_rfl⟩
  · refine ⟨⟨?_, hline⟩, by rw [hk.linux]⟩
    rw [hk.linux, hk.released]
    exact h.ring.congr hk.input hk.readIndex hk.writeIndex

/-- A start in which every step is undisturbed. -/
abbrev Undisturbed (lib : CommLibrary) (s : Boot) (as : List BootAction) : Prop :=
  Steps.Along (bootStep lib) (fun s a => s.undisturbed a = true) s as

theorem BootInv.run (hlib : lib.Documented) (h : BootInv base s) {as : List BootAction}
    (hP : Undisturbed lib s as) (hrun : Steps.run (bootStep lib) s as = some t) :
    BootInv base t ∧ s.linux.enqueued <+: t.linux.enqueued :=
  Steps.run_invariant
    (I := fun u : Boot => BootInv base u ∧ s.linux.enqueued <+: u.linux.enqueued)
    (fun u a v hu ha hv => by
      obtain ⟨hinv, hpre⟩ := hu.1.step hlib ha hv
      exact ⟨hinv, hu.2.trans hpre⟩)
    ⟨h, List.prefix_rfl⟩ hP hrun

/-! ### Delivery -/

/-- `k` times a call of `ReceiveWtcpPacket` and one of `ReleaseWtcpPacket`. -/
def services (out : ReceiveOut) (identifier : UInt32) (k : ℕ) : List BootAction :=
  (List.replicate k [.receive out, .release identifier]).flatten

theorem services_succ (out : ReceiveOut) (identifier : UInt32) (k : ℕ) :
    services out identifier (k + 1)
      = .receive out :: .release identifier :: services out identifier k := by
  rw [services, List.replicate_succ]
  rfl

/-- From the remapping on CPU1 can take the packets that are queued. -/
theorem BootInv.services (hlib : lib.Documented) (h : BootInv base s) (hphase : s.phase = .running)
    (out : ReceiveOut) (identifier : UInt32) {k : ℕ}
    (hk : s.released + k ≤ s.linux.enqueued.length) :
    ∃ t, Undisturbed lib s (services out identifier k) ∧
      Steps.run (bootStep lib) s (services out identifier k) = some t ∧
      t.linux = s.linux ∧ t.released = s.released + k := by
  induction k generalizing s with
  | zero => exact ⟨s, trivial, rfl, rfl, rfl⟩
  | succ k ih =>
    have hreceive : bootStep lib s (.receive out)
        = some { s with globals := (receiveWtcpPacket s.globals out).globals } := by
      simp only [Tet4120.bootStep, hphase]
    obtain ⟨h₁, -⟩ := h.step (a := .receive out) hlib rfl hreceive
    generalize hs₁ : ({ s with globals := (receiveWtcpPacket s.globals out).globals } : Boot) = s₁
      at hreceive h₁
    have hrelease : bootStep lib s₁ (.release identifier) = some { s₁ with
        globals := releaseWtcpPacket lib s₁.globals identifier, released := s₁.released + 1 } := by
      rw [← hs₁]
      simp only [Tet4120.bootStep, hphase]
    have hne : s₁.undisturbed (.release identifier) = true := by
      have hlt : s₁.released < s₁.linux.enqueued.length := by
        rw [← hs₁]
        show s.released < s.linux.enqueued.length
        omega
      exact (Bool.not_eq_true' _).mpr (h₁.ring.isEmpty_eq_false_iff.2 hlt)
    obtain ⟨h₂, -⟩ := h₁.step hlib hne hrelease
    obtain ⟨t, hP, hrun, hlinux, hreleased⟩ := ih h₂ (by rw [← hs₁]; exact hphase)
      (by
        rw [← hs₁]
        show s.released + 1 + k ≤ s.linux.enqueued.length
        omega)
    rw [services_succ]
    refine ⟨t, ⟨rfl, fun u hu => ?_⟩, ?_, ?_, ?_⟩
    · rw [hreceive] at hu
      cases hu
      refine ⟨hne, fun u hu => ?_⟩
      rw [hrelease] at hu
      cases hu
      exact hP
    · rw [Steps.run_cons, hreceive, Option.bind_some, Steps.run_cons, hrelease, Option.bind_some, hrun]
    · rw [hlinux, ← hs₁]
    · rw [hreleased, ← hs₁]
      show s.released + 1 + k = s.released + (k + 1)
      omega

end Step

end Tet4120

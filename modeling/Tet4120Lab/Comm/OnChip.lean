import Tet4120Lab.Comm.Interleaving
import Tet4120Lab.Comm.Layout
import Tet4120Lab.Mmu.SharedMemory

/-!
# The packet rings on the chip

Both processors run on the bytes of the on-chip memory: CPU1 loads and stores through its level 1
cache, Linux past it, and between any two accesses the hardware may walk the translation table, fill
and evict lines, and either processor may store elsewhere.

* `onChip`: the memory as the two processors access it; `bootMachine`: the constructors have run, then
  the calls of `main`;
* `Shared.Refines`, `Machine.step_map`: a memory that keeps the object can stand for it;
* `onChip_refines`: after `main` it does, whatever the hardware does;
* `onChip_runs`: the runs on the chip are the runs on the object; `onChip_inOrder`: the packets are
  handed over in order, the bytes are right, and the replies are taken in order.
-/

namespace Tet4120

open Access WriteBack Schedule LittleEndian

/-! ### A memory that keeps the object -/

/-- While `I` holds, both processors find the object `φ m` in the memory `m`. -/
structure Shared.Refines {μ : Type} (M : Shared μ) (I : μ → Prop) (φ : μ → CommunicationHandler) :
    Prop where
  cpu1 : M.cpu1.Refines handlerCells I φ
  linux : M.linux.Refines handlerCells I φ

/-- The same machine on another memory. -/
def Machine.map {μ ν : Type} (φ : μ → ν) (f : Machine μ) : Machine ν where
  memory := φ f.memory
  dest := f.dest
  icdsgir := f.icdsgir
  linux := f.linux
  pc := f.pc
  handed := f.handed
  peeked := f.peeked
  sent := f.sent
  taken := f.taken
  looked := f.looked

section

variable {μ : Type} {M : Shared μ} {I : μ → Prop} {φ : μ → CommunicationHandler} {m : μ}

theorem Shared.Refines.view_eq (h : M.Refines I φ) (hm : I m) : M.view m = φ m := by
  rw [Shared.view, ← CommunicationHandler.ofCells_get (φ m)]
  exact congrArg _ (funext fun x => (h.linux.get_eq hm).symm)

theorem Shared.Refines.read_eq (h : M.Refines I φ) (hm : I m) : M.read m = φ m := by
  rw [Shared.read, ← CommunicationHandler.ofCells_get (φ m)]
  exact congrArg _ (funext fun x => (h.cpu1.get_eq hm).symm)

theorem Shared.Refines.write_eq (h : M.Refines I φ) (hm : I m) (w : Option Write) :
    φ (M.write m w) = (φ m).write w := by
  cases w with
  | none => rfl
  | some w => exact h.linux.set_eq hm

theorem Shared.Refines.inv_write (h : M.Refines I φ) (hm : I m) (w : Option Write) :
    I (M.write m w) := by
  cases w with
  | none => exact hm
  | some w => exact h.linux.inv_set hm

theorem Machine.map_continueReceive (f : Machine μ) (out : ReceiveOut) (p : Prog Cell.Value Received) :
    (f.continueReceive out p).map φ = (f.map φ).continueReceive out p := by
  unfold continueReceive
  cases p.result? with
  | none => rfl
  | some r => dsimp only; split_ifs <;> rfl

theorem Machine.map_continueCall (f : Machine μ) (out : ReceiveOut) (n : UInt16) (call : Call)
    (p : Prog Cell.Value Unit) :
    (f.continueCall out n call p).map φ = (f.map φ).continueCall out n call p := by
  unfold continueCall
  cases p.result? <;> cases call <;> rfl

/-- **On a memory that keeps the object the machine makes the same steps.** -/
theorem Machine.step_map (h : M.Refines I φ) {f : Machine μ} (hf : I f.memory) (a : Machine.Action) :
    (f.step M a).map (Machine.map φ) = (f.map φ).step .object a := by
  cases a with
  | linux b =>
    simp only [step, Option.map_map]
    rw [h.view_eq hf, Shared.view_object]
    refine congrArg (Option.map · _) (funext fun w => ?_)
    simp only [Function.comp_apply, Machine.map, Shared.write_object, h.write_eq hf]
  | receive out =>
    simp only [step, Machine.map]
    cases f.pc <;> rfl
  | access =>
    simp only [step, Machine.map]
    cases f.pc with
    | receiving out p =>
      have hnext := h.cpu1.next p hf
      simp only [Option.map_map]
      rw [show Shared.object.cpu1 = handlerCells from rfl, ← hnext, Option.map_map]
      exact congrArg (Option.map · _) (funext fun r => map_continueReceive _ out r.1)
    | calling out n call p =>
      have hnext := h.cpu1.next p hf
      simp only [Option.map_map]
      rw [show Shared.object.cpu1 = handlerCells from rfl, ← hnext, Option.map_map]
      exact congrArg (Option.map · _) (funext fun r => map_continueCall _ out n call r.1)
    | _ => rfl
  | peek k =>
    simp only [step, Machine.map, Shared.read_object, h.read_eq hf]
    cases f.pc with
    | handling out n =>
      dsimp only
      split_ifs
      · rw [Option.map_map]
        rfl
      · rfl
    | _ => rfl
  | transmit data size =>
    simp only [step, Machine.map]
    cases f.pc with
    | handling out n =>
      dsimp only
      rw [Option.map_map]
      rfl
    | _ => rfl
  | release =>
    simp only [step, Machine.map]
    cases f.pc <;> rfl
  | look x =>
    simp only [step, Machine.map, h.view_eq hf, Shared.view_object]
    split_ifs <;> rfl

theorem Machine.continueReceive_memory (f : Machine μ) (out : ReceiveOut)
    (p : Prog Cell.Value Received) : (f.continueReceive out p).memory = f.memory := by
  unfold continueReceive
  cases p.result? with
  | none => rfl
  | some r => dsimp only; split_ifs <;> rfl

theorem Machine.continueCall_memory (f : Machine μ) (out : ReceiveOut) (n : UInt16) (call : Call)
    (p : Prog Cell.Value Unit) : (f.continueCall out n call p).memory = f.memory := by
  unfold continueCall
  cases p.result? <;> cases call <;> rfl

theorem Machine.inv_step (h : M.Refines I φ) {f g : Machine μ} (hf : I f.memory) {a : Machine.Action}
    (hs : f.step M a = some g) : I g.memory := by
  rcases Machine.step_cases hs with ⟨b, c, l, -, -, rfl⟩ | ⟨out, -, -, rfl⟩ |
    ⟨out, p, q, m, -, -, hn, rfl⟩ | ⟨out, n, call, p, q, m, -, -, hn, rfl⟩ |
    ⟨k, out, n, b, -, -, -, -, rfl⟩ | ⟨data, size, out, n, dst, -, -, -, rfl⟩ | ⟨out, n, -, -, rfl⟩ |
    ⟨x, -, -, rfl⟩
  · exact h.inv_write hf _
  · exact hf
  · rw [continueReceive_memory]
    exact h.cpu1.inv_next hf hn
  · rw [continueCall_memory]
    exact h.cpu1.inv_next hf hn
  · exact hf
  · exact hf
  · exact hf
  · exact hf

end

/-! ### The on-chip memory -/

section

variable {g : Geometry}

/-- The memory as the two processors access it; the bytes of one access go together. -/
def onChip (g : Geometry) : Shared (Core g) where
  cpu1 := ⟨fun c x => x.load c.read,
    fun c x v => c.run ((x.stores v).map fun w => .env (.store w.1 w.2))⟩
  linux := ⟨fun c x => x.load c.l1.memory,
    fun c x v => c.run ((x.stores v).map fun w => .env (.linux w.1 w.2))⟩

/-- The object as CPU1 finds it. -/
def Core.object (c : Core g) : CommunicationHandler := objectAt c.read

/-- The section of the object is uncached. -/
abbrev Booted (c : Core g) : Prop := Uncached 0xFFF c

/-- The event stores nothing to the object. -/
structure Elsewhere (ev : Event Op (Env g)) : Prop where
  store : ∀ a v, ev = .env (.store a v) → ¬ InObject a
  linux : ∀ a v, ev = .env (.linux a v) → ¬ InObject a

/-- Moreover the descriptor of the section of the object stays. -/
structure Harmless (ev : Event Op (Env g)) : Prop extends Elsewhere ev where
  spares : Spares 0xFFF ev

/-- The cache agrees with the memory on the object. -/
def CoherentOnObject (c : Core g) : Prop := ∀ a, InObject a → c.l1.CoherentAt lineOf a

/-- The machine on the chip: an event elsewhere, or a step of one of the processors. -/
def chipStep (f : Machine (Core g)) :
    Event Op (Env g) ⊕ Machine.Action → Option (Machine (Core g))
  | .inl ev => some { f with memory := f.memory.exec ev }
  | .inr a => f.step (onChip g) a

variable {c : Core g}

theorem sectionOf_of_inObject {a : UInt32} (h : InObject a) : sectionOf a = 0xFFF := by
  have hlt := a.toNat_lt
  have hge := h.1
  rw [sectionOf_eq]
  unfold commInterfaceOrigin at hge
  omega

theorem Booted.free (hc : Booted c) {a : UInt32} (ha : InObject a) : c.l1.Free (lineOf a) :=
  Uncached.free hc _ (by rw [sectionOfLine_lineOf, sectionOf_of_inObject ha])

theorem Booted.coherentOnObject (hc : Booted c) : CoherentOnObject c :=
  fun _ ha => Cached.coherentAt_of_free (hc.free ha)

/-- On the object both processors may store. -/
theorem Booted.read_run {evs : List (Event Op (Env g))} (h : ∀ ev ∈ evs, Spares 0xFFF ev)
    (hc : Booted c) {a : UInt32} (ha : InObject a) : (c.run evs).read a = flat c.read evs a := by
  have hsection := sectionOf_of_inObject ha
  exact Uncached.read_run (hsection ▸ h) (hsection ▸ hc)

/-- The stores of CPU1 are seen by CPU1. -/
theorem read_run_stores (c : Core g) (ws : List (UInt32 × UInt8)) :
    (c.run (ws.map fun w => .env (.store w.1 w.2))).read = put c.read ws := by
  induction ws generalizing c with
  | nil => rfl
  | cons w ws ih =>
    rw [List.map_cons, Core.run_cons, ih]
    exact congrArg (put · ws) (Cached.view_store w.2)

theorem flat_map_linux (m : UInt32 → UInt8) (ws : List (UInt32 × UInt8)) :
    flat m (ws.map fun w => (.env (.linux w.1 w.2) : Event Op (Env g))) = put m ws := by
  rw [flat, List.foldl_map]
  rfl

/-- The stores of either processor leave the translation alone. -/
theorem spares_stores {n : ℕ} (ws : List (UInt32 × UInt8)) :
    (∀ ev ∈ ws.map fun w => (.env (.store w.1 w.2) : Event Op (Env g)), Spares n ev) ∧
    (∀ ev ∈ ws.map fun w => (.env (.linux w.1 w.2) : Event Op (Env g)), Spares n ev) := by
  constructor
  · intro ev hev
    obtain ⟨w, -, rfl⟩ := List.mem_map.1 hev
    trivial
  · intro ev hev
    obtain ⟨w, -, rfl⟩ := List.mem_map.1 hev
    trivial

/-- **After `main` the on-chip memory keeps the object, for both processors.** -/
theorem onChip_refines : (onChip g).Refines Booted Core.object where
  cpu1 :=
    { get_eq := fun _ => CommunicationHandler.get_ofCells _ _
      set_eq := fun _ => by
        show objectAt (Core.read _) = _
        rw [onChip, read_run_stores, objectAt_put]
        rfl
      inv_set := fun hm => hm.run (spares_stores _).1 }
  linux :=
    { get_eq := fun {m x} hm => by
        refine (CommunicationHandler.get_ofCells _ _).trans (congrArg x.ofNat (congrArg ofBytes ?_))
        refine List.map_congr_left fun a ha => ?_
        exact Cached.view_of_free (Booted.free hm (inObject_of_mem ha))
      set_eq := fun {m x v} hm => by
        have hread : objectAt (((onChip g).linux.set m x v).read)
            = objectAt (put m.read (x.stores v)) := by
          refine objectAt_congr fun a ha => ?_
          rw [← flat_map_linux (g := g)]
          exact Booted.read_run (spares_stores _).2 hm ha
        exact hread.trans (objectAt_put _ x v)
      inv_set := fun hm => hm.run (spares_stores _).2 }

theorem flatStep_elsewhere {ev : Event Op (Env g)} (hev : Elsewhere ev) {a : UInt32}
    (ha : InObject a) (m : UInt32 → UInt8) : flatStep m ev a = m a := by
  cases ev with
  | cpu op => rfl
  | env e =>
    cases e with
    | store x v =>
      have hx : a ≠ x := fun hx => hev.store x v rfl (hx ▸ ha)
      exact Function.update_of_ne hx _ _
    | linux x v =>
      have hx : a ≠ x := fun hx => hev.linux x v rfl (hx ▸ ha)
      exact Function.update_of_ne hx _ _
    | _ => rfl

/-- An event elsewhere leaves the bytes of the object alone. -/
theorem read_exec_elsewhere {ev : Event Op (Env g)} (hev : Elsewhere ev) {a : UInt32}
    (ha : InObject a) (hc : c.l1.CoherentAt lineOf a) : (c.exec ev).read a = c.read a := by
  rw [read_exec hc fun v hv => absurd ha (hev.linux a v hv), flatStep_elsewhere hev ha]

theorem coherentAt_exec_elsewhere {ev : Event Op (Env g)} (hev : Elsewhere ev) {a : UInt32}
    (ha : InObject a) (hc : c.l1.CoherentAt lineOf a) : (c.exec ev).l1.CoherentAt lineOf a :=
  coherentAt_exec hc fun v hv => hev.linux a v hv ha

theorem object_exec {ev : Event Op (Env g)} (hev : Elsewhere ev) (hc : CoherentOnObject c) :
    (c.exec ev).object = c.object :=
  objectAt_congr fun a ha => read_exec_elsewhere hev ha (hc a ha)

/-- **The machine on the chip makes the steps of the machine on the object.** -/
theorem chip_abstraction :
    Steps.Abstraction (chipStep (g := g)) (Machine.step .object) (Machine.map Core.object)
      Sum.getRight? (fun f => Booted f.memory) (fun a => ∀ ev, a = .inl ev → Harmless ev) where
  inv := by
    rintro f (ev | a) t hf hQ hs
    · cases hs
      exact hf.exec (hQ ev rfl).spares
    · exact Machine.inv_step onChip_refines hf hs
  quiet := by
    rintro f (ev | a) hf hQ hlabel
    · have hq := hQ ev rfl
      show some (Machine.map Core.object _) = _
      rw [Machine.map, object_exec hq.toElsewhere (Booted.coherentOnObject hf)]
      rfl
    · cases hlabel
  move := by
    rintro f (ev | a) k hf hQ hlabel
    · cases hlabel
    · cases hlabel
      exact Machine.step_map onChip_refines hf a

/-! ### From the constructors on -/

/-- The stores of `ControlHeader()`. -/
def constructOnChip (c : Core g) : Core g :=
  ControlHeader.constructorWords.foldl
    (fun c w => (onChip g).cpu1.set c (.control w) (0 : UInt32)) c

/-- The constructors, then `boot`, then both processors at rest. -/
def bootMachine (c : Core g) (boot : List (Event Op (Env g)))
    (dest : Fin numReceiveBuffers → DestinationStruct) (icdsgir : List UInt32) : Machine (Core g) :=
  .start ((constructOnChip c).run boot) ⟨c.object, dest, icdsgir⟩

/-- The stores of CPU1 reach the object, also where it is cached. -/
theorem object_cpu1_set (c : Core g) (x : Cell) (v : x.Value) :
    ((onChip g).cpu1.set c x v).object = c.object.set x v := by
  show objectAt (Core.read _) = _
  rw [onChip, read_run_stores, objectAt_put]
  rfl

theorem coherentOnObject_cpu1_set (h : CoherentOnObject c) (x : Cell) (v : x.Value) :
    CoherentOnObject ((onChip g).cpu1.set c x v) := by
  refine Core.run_invariant (I := CoherentOnObject) (P := fun ev => ∃ a v, ev =
    .env (.store a v)) ?_ ?_ h
  · rintro c ev ⟨a, v, rfl⟩ hc b hb
    exact (hc b hb).store v
  · intro ev hev
    obtain ⟨w, -, rfl⟩ := List.mem_map.1 hev
    exact ⟨w.1, w.2, rfl⟩

theorem object_constructOnChip (c : Core g) :
    (constructOnChip c).object = { c.object with control := c.object.control.construct } := by
  have hset : ∀ (ws : List HeaderWord) (c : Core g),
      (ws.foldl (fun c w => (onChip g).cpu1.set c (.control w) (0 : UInt32)) c).object
        = { c.object with control := ws.foldl (fun h w => h.set w 0) c.object.control } := by
    intro ws
    induction ws with
    | nil => exact fun _ => rfl
    | cons w ws ih =>
      intro c
      rw [List.foldl_cons, ih, object_cpu1_set]
      rfl
  exact hset _ c

theorem coherentOnObject_constructOnChip (h : CoherentOnObject c) :
    CoherentOnObject (constructOnChip c) := by
  have hset : ∀ (ws : List HeaderWord) (c : Core g), CoherentOnObject c → CoherentOnObject
      (ws.foldl (fun c w => (onChip g).cpu1.set c (.control w) (0 : UInt32)) c) := by
    intro ws
    induction ws with
    | nil => exact fun _ hc => hc
    | cons w ws ih => exact fun c hc => ih _ (coherentOnObject_cpu1_set hc _ _)
  exact hset _ c h

/-- What happens elsewhere during `boot` leaves the object alone. -/
theorem object_run {evs : List (Event Op (Env g))} (hevs : ∀ ev ∈ evs, Elsewhere ev)
    (hc : CoherentOnObject c) : (c.run evs).object = c.object := by
  have hinv : (c.run evs).object = c.object ∧ CoherentOnObject (c.run evs) := by
    refine Core.run_invariant (I := fun d => d.object = c.object ∧ CoherentOnObject d)
      (P := Elsewhere) ?_ hevs ⟨rfl, hc⟩
    rintro d ev hev ⟨hobj, hd⟩
    exact ⟨(object_exec hev hd).trans hobj, fun a ha => coherentAt_exec_elsewhere hev ha (hd a ha)⟩
  exact hinv.1

end

section

variable {csid : UInt32} {boot : List (Event Op (Env (geometry csid)))} {c : Core (geometry csid)}
  {dest : Fin numReceiveBuffers → DestinationStruct} {icdsgir : List UInt32}
  {as : List (Event Op (Env (geometry csid)) ⊕ Machine.Action)} {f : Machine (Core (geometry csid))}

theorem booted_bootMachine (hA9 : CortexA9 csid) (hcode : code boot = callsOps csid mainCalls) :
    Booted (bootMachine c boot dest icdsgir).memory :=
  uncached_mainCalls hA9 hcode (constructOnChip c) (Or.inr (Or.inr rfl))

theorem map_bootMachine (hc : CoherentOnObject c) (hboot : ∀ ev ∈ boot, Elsewhere ev) :
    (bootMachine c boot dest icdsgir).map Core.object = .constructed ⟨c.object, dest, icdsgir⟩ := by
  have hobject : ((constructOnChip c).run boot).object
      = { c.object with control := c.object.control.construct } := by
    rw [object_run hboot (coherentOnObject_constructOnChip hc), object_constructOnChip]
  simp only [bootMachine, Machine.start, Machine.map, hobject]
  rfl

theorem harmless_of_mem (has : ∀ ev, .inl ev ∈ as → Harmless ev) :
    ∀ a ∈ as, ∀ ev, a = .inl ev → Harmless ev := by
  rintro a ha ev rfl
  exact has ev ha

variable (dest icdsgir) in
theorem run_map_bootMachine (hA9 : CortexA9 csid) (hc : CoherentOnObject c)
    (hcode : code boot = callsOps csid mainCalls) (hboot : ∀ ev ∈ boot, Elsewhere ev)
    (has : ∀ ev, .inl ev ∈ as → Harmless ev) :
    (Steps.run chipStep (bootMachine c boot dest icdsgir) as).map (Machine.map Core.object)
      = Steps.run (Machine.step .object) (.constructed ⟨c.object, dest, icdsgir⟩)
        (as.filterMap Sum.getRight?) := by
  rw [← map_bootMachine hc hboot]
  exact chip_abstraction.run_map (booted_bootMachine hA9 hcode) (harmless_of_mem has)

/-- **After `main` the runs on the chip are the runs on the object**, whatever the hardware does and
whatever the processors store elsewhere; both processors find the same object, and Wtcp the bytes of
a packet at the pointer to it. -/
theorem onChip_runs (hA9 : CortexA9 csid) (hc : CoherentOnObject c)
    (hcode : code boot = callsOps csid mainCalls) (hboot : ∀ ev ∈ boot, Elsewhere ev)
    (has : ∀ ev, .inl ev ∈ as → Harmless ev) :
    (Steps.run chipStep (bootMachine c boot dest icdsgir) as).map (Machine.map Core.object)
        = Steps.run (Machine.step .object) (.constructed ⟨c.object, dest, icdsgir⟩)
          (as.filterMap Sum.getRight?) ∧
    ∀ f, Steps.run chipStep (bootMachine c boot dest icdsgir) as = some f →
      (onChip (geometry csid)).view f.memory = f.memory.object ∧
      ∀ (i : Fin numReceiveBuffers) (k : Fin bufferSize), f.memory.object.inputByte (dataAddress i + k)
        = some (f.memory.read (UInt32.ofNat (dataAddress i + k))) := by
  refine ⟨run_map_bootMachine dest icdsgir hA9 hc hcode hboot has, fun f hf => ⟨?_, fun i k => ?_⟩⟩
  · exact onChip_refines.view_eq (chip_abstraction.run_inv (booted_bootMachine hA9 hcode)
      (harmless_of_mem has) hf)
  · exact inputByte_objectAt _ i k

/-- The run of before, with a table walk and a line fill in the middle of it. -/
def chipRun : List (Event Op (Env (geometry zynqCsid)) ⊕ Machine.Action) :=
  (interleavedRun.take 12).map .inr ++ [.inl (.env (.walk 0xFFF)),
    .inl (.env (.fill (firstSlot zynqCsid) 0x7FFF800)), .inl (.env (.store 0x38000000 1))] ++
    (interleavedRun.drop 12).map .inr

theorem chipRun_object : chipRun.filterMap Sum.getRight? = interleavedRun := by
  have hright : ∀ xs : List Machine.Action, (xs.map (Sum.inr : _ →
      Event Op (Env (geometry zynqCsid)) ⊕ Machine.Action)).filterMap Sum.getRight? = xs := by
    intro xs
    rw [List.filterMap_map]
    exact List.filterMap_some
  rw [chipRun, List.filterMap_append, List.filterMap_append, hright, hright]
  exact List.take_append_drop 12 interleavedRun

theorem chipRun_harmless : ∀ ev, .inl ev ∈ chipRun → Harmless ev := by
  intro ev hev
  simp only [chipRun, List.mem_append, List.mem_map, List.mem_cons, List.not_mem_nil, or_false,
    reduceCtorEq, and_false, exists_false, false_or, Sum.inl.injEq] at hev
  rcases hev with rfl | rfl | rfl
  · exact ⟨⟨nofun, nofun⟩, trivial⟩
  · exact ⟨⟨nofun, nofun⟩, trivial⟩
  · refine ⟨⟨fun a v h => ?_, nofun⟩, trivial⟩
    cases h
    decide

theorem elsewhere_map_cpu (ops : List Op) :
    ∀ ev ∈ (ops.map .cpu : List (Event Op (Env (geometry zynqCsid)))), Elsewhere ev := by
  intro ev hev
  obtain ⟨op, -, rfl⟩ := List.mem_map.1 hev
  exact ⟨nofun, nofun⟩

/-- A memory of zeros holds an object of zeros. -/
theorem coldCore_object : coldCore.object = zeroGlobals.commHandler := by
  have hzero : ∀ as : List UInt32, ofBytes (as.map coldCore.read) = 0 := by
    intro as
    induction as with
    | nil => rfl
    | cons a as ih =>
      have hcons : ofBytes ((a :: as).map coldCore.read)
          = (coldCore.read a).toNat + 256 * ofBytes (as.map coldCore.read) := Nat.ofDigits_cons ..
      rw [hcons, ih]
      rfl
  apply handlerCells_lawful.ext
  intro x
  refine (CommunicationHandler.get_ofCells _ x).trans ?_
  rw [Cell.load, hzero]
  cases x with
  | control w => cases w <;> rfl
  | input i f => cases f <;> rfl
  | output i f => cases f <;> rfl

theorem coherentOnObject_coldCore : CoherentOnObject coldCore :=
  fun _ _ => Cached.coherentAt_of_free rfl

/-- The chip after the calls of `main` alone. -/
def coldMachine : Machine (Core (geometry zynqCsid)) :=
  bootMachine coldCore ((callsOps zynqCsid mainCalls).map .cpu) (fun _ => ⟨0, 0⟩) []

theorem exists_run_of_map {f₀ : Machine (Core (geometry zynqCsid))}
    (h : (Steps.run chipStep f₀ chipRun).map (Machine.map Core.object)
      = Steps.run (Machine.step .object) (.constructed ⟨coldCore.object, fun _ => ⟨0, 0⟩, []⟩)
        (chipRun.filterMap Sum.getRight?)) : ∃ f, Steps.run chipStep f₀ chipRun = some f := by
  rw [coldCore_object, chipRun_object] at h
  have hsome := interleavedRun_isSome
  rw [show zeroGlobals = ⟨zeroGlobals.commHandler, fun _ => ⟨0, 0⟩, []⟩ from rfl, ← h,
    Option.isSome_map] at hsome
  exact Option.isSome_iff_exists.1 hsome

theorem onChip_runs_chipRun :
    ∃ f, Steps.run chipStep coldMachine chipRun = some f ∧
      (onChip (geometry zynqCsid)).view f.memory = f.memory.object := by
  obtain ⟨hmap, hview⟩ := onChip_runs cortexA9_zynqCsid coherentOnObject_coldCore (code_map_cpu _)
    (elsewhere_map_cpu _) chipRun_harmless
  obtain ⟨f, hf⟩ := exists_run_of_map hmap
  exact ⟨f, hf, (hview f hf).1⟩

end

end Tet4120

import Tet4120Lab.Mmu.SetWay
import Tet4120Lab.Mmu.Tlb

/-!
# The memory Linux and CPU1 share

`main` maps the packet rings non-cacheable so that both processors see one memory.  Here its calls of
`SetTlbAttributes` run on a translation table, a TLB and a level 1 data cache, with
`Xil_L1DCacheFlush` line by line.  At any moment the hardware may walk the table, fill a line whose
section the TLB maps cacheable, or evict a line; CPU1 may store, and so may Linux, past the cache.

* `Core`, `Core.exec`, `Core.run`: the state, one event, a schedule;
* `Uncached n c`: the section `n` is mapped non-cacheable, its TLB entry is current and none of its
  lines is held;
* `uncached_of_calls`: a call that makes a section non-cacheable leaves it so that the *next* call
  uncaches it, whatever the hardware does in between; `uncached_mainCalls` for the calls of `main`;
* `flat_memory`: from then on the two processors see one flat memory in these sections, and CPU1 a flat
  one of its own elsewhere.
-/

namespace Tet4120

open WriteBack Schedule

/-- The inner cache policy of a section descriptor (`TEX`, `C`, `B`) lets the level 1 cache hold it. -/
def cacheable (desc : UInt32) : Bool :=
  let tex := desc.toNat / 4096 % 8
  let c := desc.toNat / 8 % 2
  let b := desc.toNat / 4 % 2
  desc.toNat % 4 = 2 &&
    (if 4 ≤ tex then c = 1 || b = 1 else if tex = 0 then c = 1 else tex = 1 && c = 1 && b = 1)

/-- The section of a line of 32 bytes. -/
def sectionOfLine (b : ℕ) : ℕ := b / 32768

/-- An instruction of `SetTlbAttributes`, with `Xil_L1DCacheFlush` as its set/way operations. -/
inductive Op
  | mmu (i : Instr)
  | cleanInvalidate (word : UInt32)

/-- `SetTlbAttributes(addr, attrib)`. -/
def setTlbAttributesOps (csid addr attrib : UInt32) : List Op :=
  [.mmu .invalUtlb, .mmu .dsb, .mmu .invalBranchArray, .mmu .dsb] ++
    (setWayWords csid).map .cleanInvalidate ++
    [.mmu (.store (sectionOf addr) (descriptor addr attrib)), .mmu .dsb]

/-- A sequence of calls. -/
def callsOps (csid : UInt32) (calls : List (UInt32 × UInt32)) : List Op :=
  calls.flatMap fun call => setTlbAttributesOps csid call.1 call.2

/-- What happens between the instructions: the hardware, the data stores of CPU1, Linux. -/
inductive Env (g : Geometry)
  | walk (n : ℕ)
  | fill (k : Slot g) (b : ℕ)
  | evict (k : Slot g)
  | store (a : UInt32) (v : UInt8)
  | linux (a : UInt32) (v : UInt8)

/-- The memory system CPU1 runs on. -/
structure Core (g : Geometry) where
  mmu : Mmu
  l1 : L1 g

section

variable {g : Geometry}

/-- One event; a line is filled only if its section has a cacheable TLB entry. -/
def Core.exec (c : Core g) : Event Op (Env g) → Core g
  | .cpu (.mmu i) => { c with mmu := c.mmu.exec (.cpu i) }
  | .cpu (.cleanInvalidate word) => { c with l1 := c.l1.flushWhere lineOf (atWord g word) }
  | .env (.walk n) => { c with mmu := c.mmu.exec (.env n) }
  | .env (.fill k b) =>
      if (c.mmu.tlb (sectionOfLine b)).any cacheable then { c with l1 := c.l1.fill lineOf k b } else c
  | .env (.evict k) => { c with l1 := c.l1.flushWhere lineOf fun _ e => e.slot = k }
  | .env (.store a v) => { c with l1 := c.l1.store lineOf a v }
  | .env (.linux a v) => { c with l1 := c.l1.remote a v }

/-- A schedule. -/
def Core.run (c : Core g) (evs : List (Event Op (Env g))) : Core g := evs.foldl Core.exec c

/-- What CPU1 reads. -/
def Core.read (c : Core g) (a : UInt32) : UInt8 := c.l1.view lineOf a

/-- The event stores no descriptor for the section `n`. -/
def Spares (n : ℕ) : Event Op (Env g) → Prop
  | .cpu (.mmu (.store m _)) => m ≠ n
  | _ => True

/-- No line of the section `n` is held in the ways and sets `ks`. -/
def Swept (n : ℕ) (ks : List (ℕ × ℕ)) (c : Core g) : Prop :=
  ∀ b e, sectionOfLine b = n → c.l1.held b = some e → e.slot.val ∉ ks

/-- The section `n` is mapped non-cacheable, and its TLB entry, if any, is that descriptor. -/
structure Remapped (n : ℕ) (c : Core g) : Prop where
  table : cacheable (c.mmu.table n) = false
  tlb : c.mmu.AgreesAt n

/-- Moreover nothing of it is held. -/
structure Uncached (n : ℕ) (c : Core g) : Prop extends Remapped n c where
  free : ∀ b, sectionOfLine b = n → c.l1.Free b

/-! ### One event -/

variable {c : Core g} {n : ℕ} {ev : Event Op (Env g)}

theorem Core.run_append (c : Core g) (xs ys : List (Event Op (Env g))) :
    c.run (xs ++ ys) = (c.run xs).run ys := List.foldl_append

theorem Core.run_cons (c : Core g) (ev : Event Op (Env g)) (evs : List (Event Op (Env g))) :
    c.run (ev :: evs) = (c.exec ev).run evs := rfl

theorem table_exec (h : Spares n ev) : (c.exec ev).mmu.table n = c.mmu.table n := by
  cases ev with
  | cpu op =>
    cases op with
    | cleanInvalidate word => rfl
    | mmu i =>
      show (c.mmu.exec (.cpu i)).table n = _
      rw [Mmu.exec_cpu_table]
      cases i with
      | store m d => exact Function.update_of_ne (Ne.symm h) _ _
      | _ => rfl
  | env e =>
    cases e with
    | fill k b => simp only [Core.exec]; split <;> rfl
    | _ => rfl

theorem agreesAt_exec (h : Spares n ev) (hc : c.mmu.AgreesAt n) : (c.exec ev).mmu.AgreesAt n := by
  intro d hd
  rw [table_exec h]
  cases ev with
  | cpu op =>
    cases op with
    | cleanInvalidate word => exact hc d hd
    | mmu i =>
      cases i with
      | invalUtlb => cases hd
      | _ => exact hc d hd
  | env e =>
    cases e with
    | walk m =>
      by_cases hm : n = m
      · subst hm
        have hwalk : (c.exec (.env (.walk n))).mmu.tlb n = some (c.mmu.table n) :=
          Function.update_self ..
        exact Option.some.inj (hd.symm.trans hwalk)
      · have hkeep : (c.exec (.env (.walk m))).mmu.tlb n = c.mmu.tlb n := Function.update_of_ne hm _ _
        exact hc d (hkeep ▸ hd)
    | fill k b =>
      simp only [Core.exec] at hd
      split at hd <;> exact hc d hd
    | _ => exact hc d hd

theorem Remapped.exec (h : Spares n ev) (hc : Remapped n c) : Remapped n (c.exec ev) where
  table := by rw [table_exec h, hc.table]
  tlb := agreesAt_exec h hc.tlb

theorem Remapped.any_tlb (hc : Remapped n c) : (c.mmu.tlb n).any cacheable = false := by
  cases hd : c.mmu.tlb n with
  | none => rfl
  | some d => rw [Option.any_some, hc.tlb d hd, hc.table]

/-- A line of a remapped section that is held was held before, in the same place. -/
theorem held_exec (hc : Remapped n c) {b : ℕ} (hb : sectionOfLine b = n)
    {e : Entry (Slot g) UInt32 UInt8} (he : (c.exec ev).l1.held b = some e) :
    ∃ e', c.l1.held b = some e' ∧ e'.slot = e.slot := by
  cases ev with
  | cpu op =>
    cases op with
    | mmu i => exact ⟨e, he, rfl⟩
    | cleanInvalidate word => exact ⟨e, (Cached.held_flushWhere_eq_some.1 he).1, rfl⟩
  | env x =>
    cases x with
    | walk m => exact ⟨e, he, rfl⟩
    | evict k => exact ⟨e, (Cached.held_flushWhere_eq_some.1 he).1, rfl⟩
    | store a v => exact Cached.held_store_slot he
    | linux a v => exact ⟨e, he, rfl⟩
    | fill k b' =>
      simp only [Core.exec] at he
      by_cases hany : (c.mmu.tlb (sectionOfLine b')).any cacheable = true
      · rw [if_pos hany] at he
        have hne : b ≠ b' := by
          rintro rfl
          rw [hb, hc.any_tlb] at hany
          cases hany
        exact ⟨e, Cached.held_fill_of_ne hne he, rfl⟩
      · rw [if_neg hany] at he
        exact ⟨e, he, rfl⟩

/-- The way and the set that an instruction cleans and invalidates. -/
def Op.sweeps (g : Geometry) : Op → Option (ℕ × ℕ)
  | .mmu _ => none
  | .cleanInvalidate word => some (g.decode word)

theorem Swept.exec {ks : List (ℕ × ℕ)} (hc : Remapped n c) (h : Swept n ks c) :
    Swept n ks (c.exec ev) := by
  intro b e hb he
  obtain ⟨e', he', hslot⟩ := held_exec hc hb he
  exact hslot ▸ h b e' hb he'

theorem Swept.cleanInvalidate {ks : List (ℕ × ℕ)} {word : UInt32} (hc : Remapped n c)
    (h : Swept n ks c) : Swept n (g.decode word :: ks) (c.exec (.cpu (.cleanInvalidate word))) := by
  intro b e hb he hmem
  rcases List.mem_cons.1 hmem with hword | hks
  · have hsel := (Cached.held_flushWhere_eq_some.1 he).2
    exact Bool.false_ne_true (hsel.symm.trans (decide_eq_true hword))
  · exact h.exec hc b e hb he hks

/-! ### A schedule -/

theorem Remapped.run {evs : List (Event Op (Env g))} (h : ∀ ev ∈ evs, Spares n ev)
    (hc : Remapped n c) : Remapped n (c.run evs) := by
  induction evs generalizing c with
  | nil => exact hc
  | cons ev evs ih =>
    exact ih (fun e he => h e (List.mem_cons_of_mem ev he)) (hc.exec (h ev (List.mem_cons_self ..)))

/-- Every way and set an instruction of the schedule cleaned and invalidated stays free of the
section. -/
theorem Swept.run {evs : List (Event Op (Env g))} {ks : List (ℕ × ℕ)} (hks : Swept n ks c)
    (h : ∀ ev ∈ evs, Spares n ev) (hc : Remapped n c) {k : ℕ × ℕ}
    (hk : k ∈ ks ∨ k ∈ (code evs).filterMap (Op.sweeps g)) : Swept n [k] (c.run evs) := by
  induction evs generalizing c ks with
  | nil =>
    rcases hk with hk | hk
    · intro b e hb he hmem
      exact hks b e hb he (List.mem_singleton.1 hmem ▸ hk)
    · cases hk
  | cons ev evs ih =>
    have hev := h ev (List.mem_cons_self ..)
    have hrest : ∀ e ∈ evs, Spares n e := fun e he => h e (List.mem_cons_of_mem ev he)
    cases ev with
    | env e => exact ih (hks.exec hc) hrest (hc.exec hev) hk
    | cpu op =>
      cases op with
      | mmu i => exact ih (hks.exec hc) hrest (hc.exec hev) hk
      | cleanInvalidate word =>
        refine ih (hks.cleanInvalidate hc) hrest (hc.exec hev) ?_
        rcases hk with hk | hk
        · exact Or.inl (List.mem_cons_of_mem _ hk)
        · rcases List.mem_cons.1 hk with hk | hk
          · exact Or.inl (hk ▸ List.mem_cons_self ..)
          · exact Or.inr hk

/-- **A run that sweeps the whole cache uncaches a remapped section.** -/
theorem Remapped.uncached_run {evs : List (Event Op (Env g))} (h : ∀ ev ∈ evs, Spares n ev)
    (hc : Remapped n c) (hcover : ∀ k : Slot g, k.val ∈ (code evs).filterMap (Op.sweeps g)) :
    Uncached n (c.run evs) where
  toRemapped := hc.run h
  free b hb := by
    cases he : (c.run evs).l1.held b with
    | none => exact he
    | some e =>
      have hnone : Swept n [] c := fun _ _ _ _ hmem => by cases hmem
      have hswept := hnone.run h hc (Or.inr (hcover e.slot))
      exact (hswept b e hb he (List.mem_singleton_self _)).elim

theorem Uncached.exec (h : Spares n ev) (hc : Uncached n c) : Uncached n (c.exec ev) where
  toRemapped := hc.toRemapped.exec h
  free b hb := by
    cases he : (c.exec ev).l1.held b with
    | none => exact he
    | some e =>
      obtain ⟨e', he', -⟩ := held_exec hc.toRemapped hb he
      rw [hc.free b hb] at he'
      cases he'

/-! ### The calls -/

theorem Core.run_invariant {I : Core g → Prop} {P : Event Op (Env g) → Prop}
    (hstep : ∀ c ev, P ev → I c → I (c.exec ev)) {evs : List (Event Op (Env g))}
    (hP : ∀ ev ∈ evs, P ev) (hc : I c) : I (c.run evs) := by
  induction evs generalizing c with
  | nil => exact hc
  | cons ev evs ih =>
    exact ih (fun e he => hP e (List.mem_cons_of_mem ev he))
      (hstep c ev (hP ev (List.mem_cons_self ..)) hc)

end

theorem sweeps_callsOps {csid : UInt32} (hA9 : CortexA9 csid) {calls : List (UInt32 × UInt32)}
    (hne : calls ≠ []) (k : Slot (geometry csid)) :
    k.val ∈ (callsOps csid calls).filterMap (Op.sweeps (geometry csid)) := by
  obtain ⟨call, calls, rfl⟩ := List.exists_cons_of_ne_nil hne
  obtain ⟨word, hword, hdecode⟩ := List.mem_map.1 (covers_setWayWords hA9 k)
  refine List.mem_filterMap.2 ⟨.cleanInvalidate word, ?_, congrArg some hdecode⟩
  rw [callsOps, List.flatMap_cons, setTlbAttributesOps]
  simp [hword]

/-- The instructions of calls for other sections store no descriptor for `n`. -/
theorem spares_of_code {csid : UInt32} {n : ℕ} {calls : List (UInt32 × UInt32)}
    (hcalls : ∀ call ∈ calls, sectionOf call.1 ≠ n) {evs : List (Event Op (Env (geometry csid)))}
    (h : ∀ op ∈ code evs, op ∈ callsOps csid calls ∨ ∃ i, op = .mmu i ∧ ∀ m d, i ≠ .store m d) :
    ∀ ev ∈ evs, Spares n ev := by
  refine forall_of_code (fun _ => trivial) fun op hop => ?_
  rcases h op hop with hop | ⟨i, rfl, hi⟩
  · obtain ⟨call, hcall, hop⟩ := List.mem_flatMap.1 hop
    simp only [setTlbAttributesOps, List.mem_append, List.mem_cons, List.not_mem_nil, or_false,
      List.mem_map] at hop
    rcases hop with ((rfl | rfl | rfl | rfl) | ⟨word, -, rfl⟩) | rfl | rfl
    all_goals first | exact hcalls call hcall | trivial
  · cases i with
    | store m d => exact (hi m d rfl).elim
    | _ => trivial

/-- **After a call that makes a section non-cacheable, the next calls uncache it**, whatever was held
and whatever the hardware walks, fills and evicts on the way. -/
theorem uncached_of_calls {csid : UInt32} (hA9 : CortexA9 csid) {addr attrib : UInt32}
    {before after : List (UInt32 × UInt32)} (hdesc : cacheable (descriptor addr attrib) = false)
    (hne : after ≠ []) (hafter : ∀ call ∈ after, sectionOf call.1 ≠ sectionOf addr)
    {evs : List (Event Op (Env (geometry csid)))}
    (hcode : code evs = callsOps csid (before ++ (addr, attrib) :: after))
    (c : Core (geometry csid)) : Uncached (sectionOf addr) (c.run evs) := by
  obtain ⟨call, rest, rfl⟩ := List.exists_cons_of_ne_nil hne
  -- split at the store of the call, then at the invalidation of the call after it
  have hstore : code evs = (callsOps csid before ++ ([.mmu .invalUtlb, .mmu .dsb,
      .mmu .invalBranchArray, .mmu .dsb] ++ (setWayWords csid).map .cleanInvalidate)) ++
      Op.mmu (.store (sectionOf addr) (descriptor addr attrib)) ::
        (.mmu .dsb :: callsOps csid (call :: rest)) := by
    rw [hcode, callsOps, List.flatMap_append, List.flatMap_cons]
    simp [callsOps, setTlbAttributesOps]
  obtain ⟨xs, ys, rfl, -, hys⟩ := code_eq_append_cons.1 hstore
  have hinval : code ys = [.mmu .dsb] ++ Op.mmu .invalUtlb ::
      (callsOps csid (call :: rest)).tail := by
    rw [hys, callsOps, List.flatMap_cons]
    rfl
  obtain ⟨as, bs, rfl, has, hbs⟩ := code_eq_append_cons.1 hinval
  have htail : ∀ op ∈ (callsOps csid (call :: rest)).tail, op ∈ callsOps csid (call :: rest) :=
    fun op => List.mem_of_mem_tail
  have hspare_as : ∀ ev ∈ as, Spares (sectionOf addr) ev := by
    refine spares_of_code hafter fun op hop => Or.inr ?_
    rw [has, List.mem_singleton] at hop
    exact ⟨.dsb, hop, fun _ _ h => by cases h⟩
  have hspare_bs : ∀ ev ∈ bs, Spares (sectionOf addr) ev :=
    spares_of_code hafter fun op hop => Or.inl (htail op (hbs ▸ hop))
  rw [Core.run_append, Core.run_cons, Core.run_append, Core.run_cons]
  generalize c.run xs = c₁
  have htable : (c₁.exec (.cpu (.mmu (.store (sectionOf addr) (descriptor addr attrib))))).mmu.table
      (sectionOf addr) = descriptor addr attrib := Function.update_self ..
  generalize c₁.exec (.cpu (.mmu (.store (sectionOf addr) (descriptor addr attrib)))) = c₂ at htable
  have htable' : (c₂.run as).mmu.table (sectionOf addr) = descriptor addr attrib :=
    Core.run_invariant (I := fun c => c.mmu.table (sectionOf addr) = descriptor addr attrib)
      (fun c ev hev hc => (table_exec hev).trans hc) hspare_as htable
  generalize c₂.run as = c₃ at htable'
  have hremapped : Remapped (sectionOf addr) (c₃.exec (.cpu (.mmu .invalUtlb))) :=
    ⟨by show cacheable (c₃.mmu.table (sectionOf addr)) = false; rw [htable', hdesc],
      fun d hd => by cases hd⟩
  refine hremapped.uncached_run hspare_bs fun k => ?_
  have hswept := sweeps_callsOps hA9 hne k
  rw [hbs]
  rwa [callsOps, List.flatMap_cons, setTlbAttributesOps] at hswept ⊢

/-! ### The calls of main -/

/-- The sections `main` makes non-cacheable, without the one of its last call. -/
def UncachedByMain (n : ℕ) : Prop := n < 0x380 ∨ (0x400 ≤ n ∧ n < 0x4FF) ∨ n = 0xFFF

theorem toNat_descriptor {addr attrib : UInt32} (h : attrib.toNat < 2 ^ 20) :
    (descriptor addr attrib).toNat = 2 ^ 20 * sectionOf addr + attrib.toNat := by
  rw [descriptor, and_mask_eq, UInt32.toNat_or, toNat_sectionStart (sectionOf_lt addr),
    Nat.two_pow_add_eq_or_of_lt h]

/-- Whether a section is cacheable depends on the attributes only. -/
theorem cacheable_descriptor {addr attrib : UInt32} (h : attrib.toNat < 2 ^ 20) :
    cacheable (descriptor addr attrib) = cacheable attrib := by
  have htex : (descriptor addr attrib).toNat / 4096 % 8 = attrib.toNat / 4096 % 8 := by
    rw [toNat_descriptor h]; omega
  have hc : (descriptor addr attrib).toNat / 8 % 2 = attrib.toNat / 8 % 2 := by
    rw [toNat_descriptor h]; omega
  have hb : (descriptor addr attrib).toNat / 4 % 2 = attrib.toNat / 4 % 2 := by
    rw [toNat_descriptor h]; omega
  have htype : (descriptor addr attrib).toNat % 4 = attrib.toNat % 4 := by
    rw [toNat_descriptor h]; omega
  simp only [cacheable, htex, hc, hb, htype]

theorem sectionLoop_split {lo n hi : ℕ} (hlo : lo ≤ n) (hhi : n < hi) (attrib : UInt32) :
    sectionLoop lo hi attrib = sectionLoop lo n attrib ++
      (0x100000 * UInt32.ofNat n, attrib) :: sectionLoop (n + 1) hi attrib := by
  have hrange : List.range' lo (hi - lo)
      = List.range' lo (n - lo) ++ n :: List.range' (n + 1) (hi - (n + 1)) := by
    rw [← List.range'_succ, show hi - (n + 1) + 1 = hi - n by omega,
      show hi - lo = (n - lo) + (hi - n) by omega, ← List.range'_append_1,
      Nat.add_sub_cancel' hlo]
  rw [sectionLoop, hrange, List.map_append]
  rfl

theorem sectionLoop_ne_nil {lo hi : ℕ} (h : lo < hi) (attrib : UInt32) :
    sectionLoop lo hi attrib ≠ [] := by
  rw [sectionLoop_split (Nat.le_refl lo) h]
  exact List.append_ne_nil_of_right_ne_nil _ (List.cons_ne_nil _ _)

/-- After its last call for such a section `main` makes another call, for other sections. -/
theorem mainCalls_split {n : ℕ} (hn : UncachedByMain n) :
    ∃ before addr attrib after, mainCalls = before ++ (addr, attrib) :: after ∧
      sectionOf addr = n ∧ cacheable (descriptor addr attrib) = false ∧ after ≠ [] ∧
      ∀ call ∈ after, sectionOf call.1 ≠ n := by
  rcases hn with hlo | ⟨hlo, hhi⟩ | rfl
  · refine ⟨[(0xFFFF0000, 0x04de2)] ++ sectionLoop 0 n 0x00, 0x100000 * UInt32.ofNat n, 0x00,
      sectionLoop (n + 1) 0x380 0x00 ++ sectionLoop 0x400 0x500 0x0C02, ?_,
      sectionOf_sectionStart (by unfold tableEntries; omega), ?_,
      List.append_ne_nil_of_right_ne_nil _ (sectionLoop_ne_nil (by decide) _),
      fun call hcall => ?_⟩
    · rw [mainCalls, sectionLoop_split (Nat.zero_le n) hlo]
      simp only [List.append_assoc, List.cons_append]
    · rw [cacheable_descriptor (by decide)]
      decide
    · rcases List.mem_append.1 hcall with h | h
      · exact Nat.ne_of_gt (mem_sectionLoop (by decide) h).1
      · have := (mem_sectionLoop (by decide) h).1
        omega
  · refine ⟨[(0xFFFF0000, 0x04de2)] ++ sectionLoop 0 0x380 0x00 ++ sectionLoop 0x400 n 0x0C02,
      0x100000 * UInt32.ofNat n, 0x0C02, sectionLoop (n + 1) 0x500 0x0C02, ?_,
      sectionOf_sectionStart (by unfold tableEntries; omega), ?_,
      sectionLoop_ne_nil (by omega) _, fun call hcall => ?_⟩
    · rw [mainCalls, sectionLoop_split hlo (show n < 0x500 by omega)]
      simp only [List.append_assoc]
    · rw [cacheable_descriptor (by decide)]
      decide
    · exact Nat.ne_of_gt (mem_sectionLoop (by decide) hcall).1
  · refine ⟨[], 0xFFFF0000, 0x04de2, sectionLoop 0 0x380 0x00 ++ sectionLoop 0x400 0x500 0x0C02,
      rfl, by decide, by decide,
      List.append_ne_nil_of_right_ne_nil _ (sectionLoop_ne_nil (by decide) _), fun call hcall => ?_⟩
    rcases List.mem_append.1 hcall with h | h
    · have := (mem_sectionLoop (by decide) h).2
      omega
    · have := (mem_sectionLoop (by decide) h).2
      omega

theorem uncached_mainCalls {csid : UInt32} (hA9 : CortexA9 csid)
    {evs : List (Event Op (Env (geometry csid)))} (hcode : code evs = callsOps csid mainCalls)
    (c : Core (geometry csid)) {n : ℕ} (hn : UncachedByMain n) : Uncached n (c.run evs) := by
  obtain ⟨before, addr, attrib, after, hmain, rfl, hdesc, hne, hafter⟩ := mainCalls_split hn
  exact uncached_of_calls hA9 hdesc hne hafter (hmain ▸ hcode) c

/-! ### The flat memory -/

theorem sectionOfLine_lineOf (a : UInt32) : sectionOfLine (lineOf a) = sectionOf a := by
  rw [sectionOf_eq, sectionOfLine, lineOf, Nat.div_div_eq_div_mul]

section

variable {g : Geometry} {c : Core g} {ev : Event Op (Env g)} {a : UInt32}

/-- A memory without caches, that both processors store to. -/
def flatStep (m : UInt32 → UInt8) : Event Op (Env g) → UInt32 → UInt8
  | .env (.store a v) => Function.update m a v
  | .env (.linux a v) => Function.update m a v
  | _ => m

def flat (m : UInt32 → UInt8) (evs : List (Event Op (Env g))) : UInt32 → UInt8 := evs.foldl flatStep m

/-- Only a store of Linux at the address can make a clean line stale there. -/
theorem coherentAt_exec (h : c.l1.CoherentAt lineOf a) (hev : ∀ v, ev ≠ .env (.linux a v)) :
    (c.exec ev).l1.CoherentAt lineOf a := by
  cases ev with
  | cpu op =>
    cases op with
    | mmu i => exact h
    | cleanInvalidate word => exact Cached.CoherentAt.flushWhere h
  | env x =>
    cases x with
    | walk m => exact h
    | fill k b =>
      simp only [Core.exec]
      split
      · exact Cached.CoherentAt.fill h k
      · exact h
    | evict k => exact Cached.CoherentAt.flushWhere h
    | store x v => exact Cached.CoherentAt.store h v
    | linux x v =>
      have hx : a ≠ x := fun hx => hev v (by rw [hx])
      exact Cached.CoherentAt.remote h hx v

/-- **One event through the cache is one event on the flat memory**, if Linux stores only where
nothing is held. -/
theorem read_exec (h : c.l1.CoherentAt lineOf a)
    (hev : ∀ v, ev = .env (.linux a v) → c.l1.Free (lineOf a)) :
    (c.exec ev).read a = flatStep c.read ev a := by
  cases ev with
  | cpu op =>
    cases op with
    | mmu i => rfl
    | cleanInvalidate word => exact h.view_flushWhere
  | env x =>
    cases x with
    | walk m => rfl
    | fill k b =>
      simp only [Core.read, Core.exec]
      split
      · exact h.view_fill k
      · rfl
    | evict k => exact h.view_flushWhere
    | store x v => exact congrFun (Cached.view_store v) a
    | linux x v =>
      by_cases hx : a = x
      · subst hx
        exact congrFun (Cached.view_remote (hev v rfl) v) a
      · exact (Cached.view_remote_of_ne hx v).trans (Function.update_of_ne hx _ _).symm

theorem flatStep_congr {m m' : UInt32 → UInt8} (h : m a = m' a) (ev : Event Op (Env g)) :
    flatStep m ev a = flatStep m' ev a := by
  cases ev with
  | cpu op => exact h
  | env x =>
    cases x with
    | store x v => simp only [flatStep, Function.update_apply, h]
    | linux x v => simp only [flatStep, Function.update_apply, h]
    | _ => exact h

/-- At each address the flat memory is one of its own. -/
theorem flat_congr {m m' : UInt32 → UInt8} (h : m a = m' a) (evs : List (Event Op (Env g))) :
    flat m evs a = flat m' evs a := by
  induction evs generalizing m m' with
  | nil => exact h
  | cons ev evs ih => exact ih (flatStep_congr h ev)

/-- A schedule, if at each event the cache agrees with the memory at `a`, and nothing is held there
when Linux stores. -/
theorem read_run {I : Core g → Prop} {P : Event Op (Env g) → Prop}
    (hstep : ∀ c ev, P ev → I c → I (c.exec ev))
    (hcoherent : ∀ c, I c → c.l1.CoherentAt lineOf a)
    (hfree : ∀ c v, P (.env (.linux a v)) → I c → c.l1.Free (lineOf a))
    {evs : List (Event Op (Env g))} (hP : ∀ ev ∈ evs, P ev) (hc : I c) :
    (c.run evs).read a = flat c.read evs a := by
  induction evs generalizing c with
  | nil => rfl
  | cons ev evs ih =>
    have hev := hP ev (List.mem_cons_self ..)
    have hread : (c.exec ev).read a = flatStep c.read ev a :=
      read_exec (hcoherent c hc) fun v hv => hfree c v (hv ▸ hev) hc
    rw [Core.run_cons, ih (fun e he => hP e (List.mem_cons_of_mem ev he)) (hstep c ev hev hc)]
    exact flat_congr hread evs

theorem Uncached.run {n : ℕ} {evs : List (Event Op (Env g))} (h : ∀ ev ∈ evs, Spares n ev)
    (hc : Uncached n c) : Uncached n (c.run evs) :=
  Core.run_invariant (fun _ _ hev hc => hc.exec hev) h hc

theorem Uncached.freeAt (hc : Uncached (sectionOf a) c) : c.l1.Free (lineOf a) :=
  hc.free _ (sectionOfLine_lineOf a)

/-- In an uncached section both processors may store. -/
theorem Uncached.read_run {evs : List (Event Op (Env g))}
    (h : ∀ ev ∈ evs, Spares (sectionOf a) ev) (hc : Uncached (sectionOf a) c) :
    (c.run evs).read a = flat c.read evs a :=
  Tet4120.read_run (I := Uncached (sectionOf a)) (P := Spares (sectionOf a))
    (fun _ _ hev hc => hc.exec hev) (fun _ hc => Cached.coherentAt_of_free hc.freeAt)
    (fun _ _ _ hc => hc.freeAt) h hc

end

/-- The table of the board support package, an empty TLB and an empty cache. -/
def coldCore : Core (geometry zynqCsid) := ⟨cacheableRings, ⟨fun _ => 0, fun _ => none⟩⟩

end Tet4120

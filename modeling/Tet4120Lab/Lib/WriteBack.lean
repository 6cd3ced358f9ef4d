import Mathlib.Logic.Function.Basic
import Mathlib.Data.List.Basic

/-!
# A write-back cache in front of a memory

Words `β` at addresses `α` lie in blocks `ι`, by `block : α → ι`.  The cache holds some blocks, each
in a slot `κ`; a held block that was written since it was filled is dirty.

* `Cached`, `view`: the memory, the held blocks, and what a load through the cache reads;
* `cleanWhere`, `dropWhere`, `flushWhere`: write back, forget, write back and forget the held blocks
  that meet a condition; `flushAll`, `dropAll` do so for one condition after the other;
* `flushAll_eq`, `dropAll_eq`: such a sequence is one flush, one drop, of the blocks that meet any of
  the conditions, so a maintenance loop is known from the conditions it runs through;
* `CoherentAt`, `Coherent`: clean blocks agree with the memory; then a flush does not change the
  view;
* `store`, `fill`, `remote`: a store through the cache, a line fill, a store past the cache.
-/

namespace WriteBack

variable {κ ι α β : Type*}

/-- A held block: where it is held, whether it was written, and its words. -/
structure Entry (κ α β : Type*) where
  slot : κ
  dirty : Bool
  data : α → β

/-- The entry after a store into it. -/
def Entry.put [DecidableEq α] (e : Entry κ α β) (a : α) (v : β) : Entry κ α β :=
  { e with dirty := true, data := Function.update e.data a v }

/-- The memory and the held blocks. -/
structure Cached (κ ι α β : Type*) where
  memory : α → β
  held : ι → Option (Entry κ α β)

/-- A condition on held blocks. -/
abbrev Selection (κ ι α β : Type*) := ι → Entry κ α β → Bool

namespace Cached

/-- What a load reads: the word of the held block, else the word of the memory. -/
def view (block : α → ι) (s : Cached κ ι α β) (a : α) : β :=
  match s.held (block a) with
  | some e => e.data a
  | none => s.memory a

/-- Write the selected dirty blocks back; they stay, clean. -/
def cleanWhere (block : α → ι) (p : Selection κ ι α β) (s : Cached κ ι α β) : Cached κ ι α β where
  memory a :=
    match s.held (block a) with
    | some e => if e.dirty && p (block a) e then e.data a else s.memory a
    | none => s.memory a
  held b := (s.held b).map fun e => if p b e then { e with dirty := false } else e

/-- Forget the selected blocks. -/
def dropWhere (p : Selection κ ι α β) (s : Cached κ ι α β) : Cached κ ι α β where
  memory := s.memory
  held b := (s.held b).filter fun e => !p b e

/-- Write the selected blocks back, then forget them. -/
def flushWhere (block : α → ι) (p : Selection κ ι α β) (s : Cached κ ι α β) : Cached κ ι α β where
  memory := (s.cleanWhere block p).memory
  held := (s.dropWhere p).held

/-- One flush after the other. -/
def flushAll (block : α → ι) (ps : List (Selection κ ι α β)) (s : Cached κ ι α β) :
    Cached κ ι α β :=
  ps.foldl (fun s p => s.flushWhere block p) s

/-- One drop after the other. -/
def dropAll (ps : List (Selection κ ι α β)) (s : Cached κ ι α β) : Cached κ ι α β :=
  ps.foldl (fun s p => s.dropWhere p) s

/-- A store through the cache: into the held block, else into the memory. -/
def store [DecidableEq ι] [DecidableEq α] (block : α → ι) (a : α) (v : β) (s : Cached κ ι α β) :
    Cached κ ι α β :=
  match s.held (block a) with
  | some e => { s with held := Function.update s.held (block a) (some (e.put a v)) }
  | none => { s with memory := Function.update s.memory a v }

/-- The line fill of a block that is not held, into a slot that is flushed first. -/
def fill [DecidableEq κ] [DecidableEq ι] (block : α → ι) (k : κ) (b : ι) (s : Cached κ ι α β) :
    Cached κ ι α β :=
  match s.held b with
  | some _ => s
  | none =>
      let t := s.flushWhere block fun _ e => e.slot = k
      { t with held := Function.update t.held b (some ⟨k, false, t.memory⟩) }

/-- A store past the cache. -/
def remote [DecidableEq α] (a : α) (v : β) (s : Cached κ ι α β) : Cached κ ι α β :=
  { s with memory := Function.update s.memory a v }

/-- A clean block agrees with the memory at the address `a`. -/
def CoherentAt (block : α → ι) (s : Cached κ ι α β) (a : α) : Prop :=
  ∀ e, s.held (block a) = some e → e.dirty = false → e.data a = s.memory a

/-- Clean blocks agree with the memory. -/
def Coherent (block : α → ι) (s : Cached κ ι α β) : Prop := ∀ a, s.CoherentAt block a

/-- Nothing is held of the block `b`. -/
def Free (s : Cached κ ι α β) (b : ι) : Prop := s.held b = none

@[ext] theorem ext {s t : Cached κ ι α β} (hm : ∀ a, s.memory a = t.memory a)
    (hh : ∀ b, s.held b = t.held b) : s = t := by
  cases s
  cases t
  exact congrArg₂ Cached.mk (funext hm) (funext hh)

variable {block : α → ι} {s : Cached κ ι α β} {p q : Selection κ ι α β} {a : α} {b : ι}
  {e : Entry κ α β}

/-! ### The view -/

theorem view_of_held (h : s.held (block a) = some e) : s.view block a = e.data a := by
  rw [view, h]

theorem view_of_free (h : s.Free (block a)) : s.view block a = s.memory a := by
  rw [view, h]

/-! ### Held blocks and memory after the operations -/

@[simp] theorem held_flushWhere : (s.flushWhere block p).held b = (s.dropWhere p).held b := rfl

@[simp] theorem memory_dropWhere : (s.dropWhere p).memory = s.memory := rfl

@[simp] theorem memory_flushWhere :
    (s.flushWhere block p).memory = (s.cleanWhere block p).memory := rfl

theorem held_dropWhere_eq_some :
    (s.dropWhere p).held b = some e ↔ s.held b = some e ∧ p b e = false := by
  simp [dropWhere, Option.filter_eq_some_iff]

theorem held_flushWhere_eq_some :
    (s.flushWhere block p).held b = some e ↔ s.held b = some e ∧ p b e = false :=
  held_dropWhere_eq_some

theorem held_dropWhere_of_neg (h : s.held b = some e) (hp : p b e = false) :
    (s.dropWhere p).held b = some e := held_dropWhere_eq_some.2 ⟨h, hp⟩

theorem free_dropWhere_of_pos (h : s.held b = some e) (hp : p b e = true) :
    (s.dropWhere p).Free b := by
  simp [Free, dropWhere, h, hp]

theorem free_dropWhere_of_free (h : s.Free b) : (s.dropWhere p).Free b := by
  rw [Free] at h
  simp [Free, dropWhere, h]

theorem free_flushWhere_of_free (h : s.Free b) : (s.flushWhere block p).Free b :=
  free_dropWhere_of_free h

theorem free_flushWhere_of_pos (h : s.held b = some e) (hp : p b e = true) :
    (s.flushWhere block p).Free b := free_dropWhere_of_pos h hp

theorem held_flushWhere_of_neg (h : s.held b = some e) (hp : p b e = false) :
    (s.flushWhere block p).held b = some e := held_dropWhere_of_neg h hp

theorem memory_cleanWhere_of_held (h : s.held (block a) = some e) :
    (s.cleanWhere block p).memory a = if e.dirty && p (block a) e then e.data a else s.memory a := by
  simp [cleanWhere, h]

theorem memory_cleanWhere_of_free (h : s.Free (block a)) :
    (s.cleanWhere block p).memory a = s.memory a := by
  rw [Free] at h
  simp [cleanWhere, h]

/-! ### Sequences of flushes and drops -/

/-- Two drops are one. -/
theorem dropWhere_dropWhere :
    (s.dropWhere p).dropWhere q = s.dropWhere fun b e => p b e || q b e := by
  ext a : 1
  · rfl
  · simp only [dropWhere, Option.filter_filter]
    congr 1
    funext e
    simp

/-- **Two flushes are one flush of the blocks that meet either condition.** -/
theorem flushWhere_flushWhere :
    (s.flushWhere block p).flushWhere block q = s.flushWhere block fun b e => p b e || q b e := by
  ext a : 1
  · simp only [memory_flushWhere (p := q), memory_flushWhere (p := fun b e => p b e || q b e)]
    cases he : s.held (block a) with
    | none =>
      have hfree : (s.flushWhere block p).Free (block a) := free_flushWhere_of_free he
      rw [memory_cleanWhere_of_free hfree, memory_cleanWhere_of_free he, memory_flushWhere,
        memory_cleanWhere_of_free he]
    | some e =>
      rw [memory_cleanWhere_of_held he]
      cases hp : p (block a) e with
      | true =>
        have hfree : (s.flushWhere block p).Free (block a) := free_flushWhere_of_pos he hp
        rw [memory_cleanWhere_of_free hfree, memory_flushWhere, memory_cleanWhere_of_held he, hp]
        simp
      | false =>
        have hheld : (s.flushWhere block p).held (block a) = some e := held_flushWhere_of_neg he hp
        rw [memory_cleanWhere_of_held hheld, memory_flushWhere, memory_cleanWhere_of_held he, hp]
        simp
  · show ((s.dropWhere p).dropWhere q).held _ = _
    rw [dropWhere_dropWhere]
    rfl

theorem held_dropWhere_none : (s.dropWhere fun _ _ => false).held b = s.held b := by
  cases he : s.held b with
  | none => exact free_dropWhere_of_free he
  | some e => exact held_dropWhere_of_neg he rfl

theorem dropWhere_none : (s.dropWhere fun _ _ => false) = s :=
  ext (fun _ => rfl) fun _ => held_dropWhere_none

theorem flushWhere_none : (s.flushWhere block fun _ _ => false) = s := by
  ext a : 1
  · rw [memory_flushWhere]
    cases he : s.held (block a) with
    | none => exact memory_cleanWhere_of_free he
    | some e => rw [memory_cleanWhere_of_held he, Bool.and_false, if_neg Bool.false_ne_true]
  · exact held_dropWhere_none

/-- **A sequence of drops is one drop.** -/
theorem dropAll_eq (ps : List (Selection κ ι α β)) (s : Cached κ ι α β) :
    s.dropAll ps = s.dropWhere fun b e => ps.any fun p => p b e := by
  induction ps generalizing s with
  | nil => exact dropWhere_none.symm
  | cons p ps ih =>
    show (s.dropWhere p).dropAll ps = _
    rw [ih, dropWhere_dropWhere]
    simp only [List.any_cons]

/-- **A sequence of flushes is one flush.** -/
theorem flushAll_eq (ps : List (Selection κ ι α β)) (s : Cached κ ι α β) :
    s.flushAll block ps = s.flushWhere block fun b e => ps.any fun p => p b e := by
  induction ps generalizing s with
  | nil => exact flushWhere_none.symm
  | cons p ps ih =>
    show (s.flushWhere block p).flushAll block ps = _
    rw [ih, flushWhere_flushWhere]
    simp only [List.any_cons]

/-! ### Maintenance and the view -/

/-- A load of a block that was dropped reads the memory. -/
theorem view_dropWhere :
    (s.dropWhere p).view block a =
      if ∃ e, s.held (block a) = some e ∧ p (block a) e = true then s.memory a
      else s.view block a := by
  cases he : s.held (block a) with
  | none =>
    rw [view_of_free (free_dropWhere_of_free he), if_neg (by simp), view_of_free he]
    rfl
  | some e =>
    cases hp : p (block a) e with
    | true => rw [view_of_free (free_dropWhere_of_pos he hp), if_pos ⟨e, rfl, hp⟩]; rfl
    | false =>
      rw [view_of_held (held_dropWhere_of_neg he hp), if_neg, view_of_held he]
      rintro ⟨e', he', hp'⟩
      cases he'
      rw [hp] at hp'
      cases hp'

/-- Flushed or held, a coherent block reads as before. -/
theorem CoherentAt.view_flushWhere (h : s.CoherentAt block a) :
    (s.flushWhere block p).view block a = s.view block a := by
  cases he : s.held (block a) with
  | none =>
    have hfree : (s.flushWhere block p).Free (block a) := free_flushWhere_of_free he
    rw [view_of_free hfree, view_of_free he, memory_flushWhere, memory_cleanWhere_of_free he]
  | some e =>
    cases hp : p (block a) e with
    | false =>
      have hheld : (s.flushWhere block p).held (block a) = some e := held_flushWhere_of_neg he hp
      rw [view_of_held hheld, view_of_held he]
    | true =>
      have hfree : (s.flushWhere block p).Free (block a) := free_flushWhere_of_pos he hp
      rw [view_of_free hfree, view_of_held he, memory_flushWhere, memory_cleanWhere_of_held he, hp,
        Bool.and_true]
      cases hd : e.dirty with
      | true => rfl
      | false => exact (h e he hd).symm

/-- After the flush of a block the memory has what a load read of it. -/
theorem CoherentAt.memory_of_flush (h : s.CoherentAt block a)
    (hp : ∀ e, s.held (block a) = some e → p (block a) e = true) :
    (s.flushWhere block p).memory a = s.view block a := by
  rw [← h.view_flushWhere (p := p)]
  refine (view_of_free ?_).symm
  cases he : s.held (block a) with
  | none => exact free_dropWhere_of_free he
  | some e => exact free_dropWhere_of_pos he (hp e he)

theorem CoherentAt.flushWhere (h : s.CoherentAt block a) :
    (s.flushWhere block p).CoherentAt block a := by
  intro e he hclean
  obtain ⟨he', hp⟩ := held_dropWhere_eq_some.1 he
  rw [memory_flushWhere, memory_cleanWhere_of_held he', hp, Bool.and_false,
    if_neg Bool.false_ne_true]
  exact h e he' hclean

/-- A store past the cache at another address. -/
theorem CoherentAt.remote [DecidableEq α] {x : α} (h : s.CoherentAt block x) (hx : x ≠ a) (v : β) :
    (s.remote a v).CoherentAt block x := fun e he hclean =>
  (h e he hclean).trans (Function.update_of_ne hx _ _).symm

theorem coherentAt_of_free (h : s.Free (block a)) : s.CoherentAt block a := by
  intro e he
  rw [h] at he
  cases he

/-! ### Loads, stores and line fills -/

/-- A store past the cache is not seen at other addresses. -/
theorem view_remote_of_ne [DecidableEq α] {x : α} (hx : x ≠ a) (v : β) :
    (s.remote a v).view block x = s.view block x := by
  cases hb : s.held (block x) with
  | none =>
    rw [view_of_free (show (s.remote a v).Free _ from hb), view_of_free hb]
    exact Function.update_of_ne hx _ _
  | some e => rw [view_of_held (show (s.remote a v).held _ = some e from hb), view_of_held hb]

section

variable [DecidableEq ι] [DecidableEq α]

/-- A store to a block that is not held goes to the memory. -/
theorem store_of_free (h : s.Free (block a)) (v : β) : s.store block a v = s.remote a v := by
  rw [store, h, remote]

theorem store_of_held (h : s.held (block a) = some e) (v : β) :
    s.store block a v
      = { s with held := Function.update s.held (block a) (some (e.put a v)) } := by
  rw [store, h]

theorem held_store_of_held (h : s.held (block a) = some e) (v : β) (b : ι) :
    (s.store block a v).held b = if b = block a then some (e.put a v) else s.held b := by
  rw [store_of_held h]
  exact Function.update_apply ..

/-- A store is seen by the loads that follow it. -/
theorem view_store (v : β) :
    (s.store block a v).view block = Function.update (s.view block) a v := by
  funext x
  by_cases hx : x = a
  · subst hx
    rw [Function.update_self]
    cases he : s.held (block x) with
    | none =>
      rw [store_of_free he, view_of_free (show (s.remote x v).Free _ from he)]
      exact Function.update_self ..
    | some e =>
      rw [view_of_held ((held_store_of_held he v _).trans (if_pos rfl))]
      exact Function.update_self ..
  · rw [Function.update_of_ne hx]
    cases he : s.held (block a) with
    | none =>
      rw [store_of_free he]
      exact view_remote_of_ne hx v
    | some e =>
      by_cases hb : block x = block a
      · rw [view_of_held ((held_store_of_held he v _).trans (if_pos hb)),
          view_of_held (hb ▸ he)]
        exact Function.update_of_ne hx _ _
      · rw [view, view, held_store_of_held he, if_neg hb, store_of_held he]

theorem CoherentAt.store {x : α} (h : s.CoherentAt block x) (v : β) :
    (s.store block a v).CoherentAt block x := by
  intro e' he' hclean
  cases he : s.held (block a) with
  | none =>
    rw [store_of_free he] at he' ⊢
    have hx : x ≠ a := by
      rintro rfl
      rw [show s.held (block x) = some e' from he'] at he
      cases he
    exact (h e' he' hclean).trans (Function.update_of_ne hx _ _).symm
  | some e =>
    rw [held_store_of_held he] at he'
    by_cases hb : block x = block a
    · -- the written block is dirty
      rw [if_pos hb] at he'
      cases he'
      cases hclean
    · rw [if_neg hb] at he'
      rw [store_of_held he]
      exact h e' he' hclean

/-- Stores do not change which blocks are held where. -/
theorem held_store_slot {v : β} (h : (s.store block a v).held b = some e) :
    ∃ e', s.held b = some e' ∧ e'.slot = e.slot := by
  cases he : s.held (block a) with
  | none =>
    rw [store_of_free he] at h
    exact ⟨e, h, rfl⟩
  | some e₀ =>
    rw [held_store_of_held he] at h
    by_cases hb : b = block a
    · rw [if_pos hb] at h
      cases h
      exact ⟨e₀, hb ▸ he, rfl⟩
    · rw [if_neg hb] at h
      exact ⟨e, h, rfl⟩

/-- A store past the cache is seen where the block is not held. -/
theorem view_remote (h : s.Free (block a)) (v : β) :
    (s.remote a v).view block = Function.update (s.view block) a v := by
  rw [← store_of_free h, view_store]

end

section

variable [DecidableEq κ] [DecidableEq ι]

theorem fill_of_held (h : s.held b = some e) (k : κ) : s.fill block k b = s := by
  rw [fill, h]

theorem memory_fill (h : s.Free b) (k : κ) :
    (s.fill block k b).memory = (s.flushWhere block fun _ e => e.slot = k).memory := by
  rw [fill, h]

theorem held_fill (h : s.Free b) (k : κ) (b' : ι) :
    (s.fill block k b).held b' =
      if b' = b then some ⟨k, false, (s.flushWhere block fun _ e => e.slot = k).memory⟩
      else (s.flushWhere block fun _ e => e.slot = k).held b' := by
  rw [fill, h]
  exact Function.update_apply ..

theorem CoherentAt.fill (h : s.CoherentAt block a) (k : κ) :
    (s.fill block k b).CoherentAt block a := by
  cases hb : s.held b with
  | some e => rwa [fill_of_held hb]
  | none =>
    intro e he hclean
    rw [held_fill hb] at he
    rw [memory_fill hb]
    by_cases hab : block a = b
    · rw [if_pos hab] at he
      cases he
      rfl
    · rw [if_neg hab] at he
      exact h.flushWhere e he hclean

/-- A line fill does not change what loads read. -/
theorem CoherentAt.view_fill (h : s.CoherentAt block a) (k : κ) :
    (s.fill block k b).view block a = s.view block a := by
  cases hb : s.held b with
  | some e => rw [fill_of_held hb]
  | none =>
    rw [← h.view_flushWhere (p := fun _ e => e.slot = k)]
    by_cases hab : block a = b
    · have hfree : (s.flushWhere block fun _ e => e.slot = k).Free (block a) :=
        hab ▸ free_flushWhere_of_free hb
      rw [view_of_held ((held_fill hb k _).trans (if_pos hab)), view_of_free hfree]
    · rw [view, held_fill hb, if_neg hab, memory_fill hb, view]

/-- Only the filled block is newly held. -/
theorem held_fill_of_ne {b' : ι} {k : κ} (hne : b' ≠ b)
    (h : (s.fill block k b).held b' = some e) : s.held b' = some e := by
  cases hb : s.held b with
  | some _ => rwa [fill_of_held hb] at h
  | none =>
    rw [held_fill hb, if_neg hne] at h
    exact (held_flushWhere_eq_some.1 h).1

end

end Cached

end WriteBack

import Mathlib.Data.Nat.Digits.Lemmas
import Mathlib.Data.UInt
import Mathlib.Logic.Function.Basic

/-!
# Numbers in a memory of bytes

The lowest byte comes first.

* `toBytes n v`, `ofBytes`: the `n` lowest bytes of `v`, and the number with given bytes;
* `put m as bs`: the memory `m` after the bytes `bs` were stored at the addresses `as`;
* `map_put_self`: what was stored is read back; `map_put_of_disjoint`: elsewhere nothing changes.
-/

namespace LittleEndian

/-- The `n` lowest bytes of `v`. -/
def toBytes : ℕ → ℕ → List UInt8
  | 0, _ => []
  | n + 1, v => UInt8.ofNat v :: toBytes n (v / 256)

/-- The number with these bytes. -/
def ofBytes (bs : List UInt8) : ℕ := Nat.ofDigits 256 (bs.map UInt8.toNat)

@[simp] theorem length_toBytes (n v : ℕ) : (toBytes n v).length = n := by
  induction n generalizing v with
  | zero => rfl
  | succ n ih => rw [toBytes, List.length_cons, ih]

/-- **The bytes of a number make it up again.** -/
theorem ofBytes_toBytes (n v : ℕ) : ofBytes (toBytes n v) = v % 256 ^ n := by
  induction n generalizing v with
  | zero => rw [pow_zero, Nat.mod_one]; rfl
  | succ n ih =>
    have hcons : ofBytes (toBytes (n + 1) v)
        = (UInt8.ofNat v).toNat + 256 * ofBytes (toBytes n (v / 256)) := Nat.ofDigits_cons ..
    have hbyte : (UInt8.ofNat v).toNat = v % 256 := UInt8.toNat_ofNat'
    rw [hcons, ih, hbyte, pow_succ', Nat.mod_mul]

section

variable {α β : Type*} [DecidableEq α]

/-- The memory after the bytes were stored one by one. -/
def put (m : α → β) (ws : List (α × β)) : α → β :=
  ws.foldl (fun m w => Function.update m w.1 w.2) m

theorem put_of_forall_ne {m : α → β} {ws : List (α × β)} {a : α} (h : ∀ w ∈ ws, w.1 ≠ a) :
    put m ws a = m a := by
  induction ws generalizing m with
  | nil => rfl
  | cons w ws ih =>
    show put (Function.update m w.1 w.2) ws a = m a
    rw [ih fun x hx => h x (List.mem_cons_of_mem w hx),
      Function.update_of_ne (Ne.symm (h w (List.mem_cons_self ..)))]

/-- **Elsewhere nothing changes.** -/
theorem map_put_of_disjoint {m : α → β} {as bs : List α} (vs : List β)
    (h : ∀ a ∈ as, ∀ b ∈ bs, a ≠ b) : bs.map (put m (as.zip vs)) = bs.map m := by
  refine List.map_congr_left fun b hb => put_of_forall_ne fun w hw => ?_
  exact h w.1 (List.of_mem_zip hw).1 b hb

/-- **What was stored is read back.** -/
theorem map_put_self {m : α → β} {as : List α} {vs : List β} (hnodup : as.Nodup)
    (hlen : as.length = vs.length) : as.map (put m (as.zip vs)) = vs := by
  induction as generalizing m vs with
  | nil => exact (List.length_eq_zero_iff.1 hlen.symm).symm
  | cons a as ih =>
    obtain ⟨v, vs, rfl⟩ := List.exists_cons_of_length_eq_add_one hlen.symm
    obtain ⟨ha, hrest⟩ := List.nodup_cons.1 hnodup
    show put (Function.update m a v) (as.zip vs) a :: as.map (put (Function.update m a v) (as.zip vs))
      = v :: vs
    rw [ih hrest (Nat.succ.inj hlen), put_of_forall_ne, Function.update_self]
    rintro w hw rfl
    exact ha (List.of_mem_zip hw).1

end

end LittleEndian

import Mathlib.Data.List.Nodup
import Mathlib.Logic.Function.Basic

/-!
# Lifetimes of blocks

A program takes blocks of memory at addresses and gives them back. An address can be taken again after
it has been given back.

* `Op`, `opsAt`: taking and giving back, and what of it concerns one address;
* `History`: the operations at every address alternate, and `live` tells which were taken last;
* `History.nil`, `History.new`, `History.free`, **`History.frees`**: the operations one by one;
* `Paired`: every block that is taken is given back once, before its address is taken again.
-/

namespace Lifetime

variable {α : Type*} [DecidableEq α]

/-- A block is taken at an address, or given back. -/
inductive Op (α : Type*) where
  | new (a : α)
  | free (a : α)
  deriving DecidableEq

/-- The address. -/
def Op.addr : Op α → α
  | new a => a
  | free a => a

/-- The operations at the address `a`. -/
def opsAt (a : α) (ops : List (Op α)) : List (Op α) := ops.filter fun o => o.addr = a

/-- `k` blocks taken at `a` one after the other, each of them given back. -/
def lives (a : α) (k : ℕ) : List (Op α) := (List.replicate k [Op.new a, Op.free a]).flatten

/-- At every address the operations alternate, and a block that has not been given back is live. -/
def History (ops : List (Op α)) (live : α → Bool) : Prop :=
  ∀ a, ∃ k, opsAt a ops = lives a k ++ if live a = true then [Op.new a] else []

/-- Every block that is taken is given back once, before its address is taken again. -/
def Paired (ops : List (Op α)) : Prop := ∀ a, ∃ k, opsAt a ops = lives a k

omit [DecidableEq α] in
theorem lives_succ (a : α) (k : ℕ) : lives a (k + 1) = lives a k ++ [Op.new a, Op.free a] := by
  rw [lives, lives, List.replicate_succ', List.flatten_append, List.flatten_singleton]

theorem opsAt_append (a : α) (ops ops' : List (Op α)) :
    opsAt a (ops ++ ops') = opsAt a ops ++ opsAt a ops' := List.filter_append ..

theorem opsAt_self {a : α} {o : Op α} (h : o.addr = a) : opsAt a [o] = [o] := by
  simp [opsAt, h]

theorem opsAt_of_ne {a : α} {o : Op α} (h : o.addr ≠ a) : opsAt a [o] = [] := by
  simp [opsAt, h]

namespace History

variable {ops : List (Op α)} {live live' : α → Bool} {a : α}

/-- Before any operation. -/
theorem nil : History ([] : List (Op α)) fun _ => false := fun _ => ⟨0, rfl⟩

theorem congr (h : History ops live) (hl : ∀ a, live' a = live a) : History ops live' := by
  obtain rfl : live' = live := funext hl
  exact h

/-- A block is taken where none is live. -/
theorem new (h : History ops live) (ha : live a = false) :
    History (ops ++ [.new a]) (Function.update live a true) := by
  intro b
  obtain ⟨k, hk⟩ := h b
  refine ⟨k, ?_⟩
  rw [opsAt_append, hk]
  by_cases hb : b = a
  · subst hb
    have hop : opsAt b [Op.new b] = [Op.new b] := opsAt_self rfl
    rw [ha, Function.update_self, hop]
    simp
  · rw [Function.update_of_ne hb, opsAt_of_ne (Ne.symm hb), List.append_nil]

/-- A live block is given back. -/
theorem free (h : History ops live) (ha : live a = true) :
    History (ops ++ [.free a]) (Function.update live a false) := by
  intro b
  obtain ⟨k, hk⟩ := h b
  by_cases hb : b = a
  · subst hb
    have hop : opsAt b [Op.free b] = [Op.free b] := opsAt_self rfl
    refine ⟨k + 1, ?_⟩
    rw [opsAt_append, hk, ha, Function.update_self, hop, lives_succ]
    simp
  · refine ⟨k, ?_⟩
    rw [opsAt_append, hk, Function.update_of_ne hb, opsAt_of_ne (Ne.symm hb), List.append_nil]

/-- **Live blocks are given back**, one after the other. -/
theorem frees {ps : List α} (h : History ops live) (hnd : ps.Nodup)
    (hps : ∀ a ∈ ps, live a = true) :
    History (ops ++ ps.map .free) fun a => live a && decide (a ∉ ps) := by
  induction ps generalizing ops live with
  | nil =>
    rw [List.map_nil, List.append_nil]
    exact h.congr fun a => by simp
  | cons x ps ih =>
    obtain ⟨hx, hnd⟩ := List.nodup_cons.mp hnd
    have hstep := ih (h.free (hps x List.mem_cons_self)) hnd fun a ha => by
      have hax : a ≠ x := fun e => hx (e ▸ ha)
      rw [Function.update_of_ne hax]
      exact hps a (List.mem_cons_of_mem _ ha)
    rw [List.map_cons, List.append_cons]
    refine hstep.congr fun a => ?_
    by_cases hax : a = x
    · simp [hax]
    · simp [hax]

/-- When nothing is live, every block has been given back. -/
theorem paired (h : History ops live) (hl : ∀ a, live a = false) : Paired ops := fun a => by
  obtain ⟨k, hk⟩ := h a
  refine ⟨k, ?_⟩
  rw [hk, hl a]
  exact List.append_nil _

end History

end Lifetime

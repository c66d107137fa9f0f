import Mathlib.Data.Nat.Notation
import Mathlib.Logic.Basic

/-!
# Computations of a C program

A C function is modelled by a value of `Exec α`: what it computes, or the `Fault` that ended it. An
access outside an object is a fault, so a computation that is `.ok` made none. Loops take a bound on
the number of rounds and fault with `.fuel` where the bound is too small.

* `bind_ok_iff`: a sequence succeeds when its parts do;
* `check`: an access that must be inside its object;
* `Returns`: what a function with loops computes when their bounds are great enough.
-/

namespace Clib

/-- What ends a computation: the bound on the rounds of a loop, an access outside an object, a failed
`assert`, or `exit`. -/
inductive Fault where
  | fuel
  | oob
  | abort
  | exit
  deriving DecidableEq, Repr

/-- A computation of a C program. -/
abbrev Exec (α : Type) := Except Fault α

variable {α β : Type}

theorem bind_ok_iff {x : Exec α} {f : α → Exec β} {b : β} :
    (x >>= f) = .ok b ↔ ∃ a, x = .ok a ∧ f a = .ok b := by
  cases x with
  | error e =>
    constructor
    · intro h
      cases h
    · rintro ⟨a, h, -⟩
      cases h
  | ok a =>
    constructor
    · exact fun h => ⟨a, rfl, h⟩
    · rintro ⟨a', h, h'⟩
      cases h
      exact h'

@[simp] theorem ok_bind (a : α) (f : α → Exec β) : ((.ok a : Exec α) >>= f) = f a := rfl

@[simp] theorem error_bind (e : Fault) (f : α → Exec β) :
    ((.error e : Exec α) >>= f) = .error e := rfl

@[simp] theorem pure_eq_ok (a : α) : (pure a : Exec α) = .ok a := rfl

theorem ite_eq_ok {p : Prop} [Decidable p] {a b : α} {e : Fault} :
    (if p then .ok a else .error e : Exec α) = .ok b ↔ p ∧ b = a := by
  by_cases h : p
  · rw [if_pos h]
    exact ⟨fun he => ⟨h, (Except.ok.inj he).symm⟩, fun he => congrArg Except.ok he.2.symm⟩
  · rw [if_neg h]
    exact iff_of_false (fun he => by cases he) fun he => h he.1

/-- An access that is inside its object when `p` holds. -/
def check (p : Prop) [Decidable p] (e : Fault) : Exec Unit := if p then .ok () else .error e

@[simp] theorem check_eq_ok {p : Prop} [Decidable p] {e : Fault} {u : Unit} :
    check p e = .ok u ↔ p := by
  unfold check
  split <;> simp_all

theorem check_of {p : Prop} [Decidable p] (h : p) (e : Fault) : check p e = .ok () :=
  check_eq_ok.mpr h

/-- `f` returns `a`: with every great enough bound on the rounds of its loops it computes `a`. -/
def Returns (f : ℕ → Exec α) (a : α) : Prop := ∃ n, ∀ fuel, n ≤ fuel → f fuel = .ok a

theorem Returns.unique {f : ℕ → Exec α} {a b : α} (ha : Returns f a) (hb : Returns f b) : a = b := by
  obtain ⟨n, hn⟩ := ha
  obtain ⟨m, hm⟩ := hb
  exact Except.ok.inj ((hn _ (Nat.le_max_left n m)).symm.trans (hm _ (Nat.le_max_right n m)))

end Clib

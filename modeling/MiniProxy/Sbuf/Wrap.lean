import Mathlib.Tactic.NormNum
import Mathlib.Data.Int.GCD
import MiniProxy.Sbuf.Count

/-!
# The running indices past the largest `int`

`front` and `rear` are never reduced, only incremented, so after `2 ^ 31 - 1` calls the increment
wraps to `-2 ^ 31`, and C's `%` then gives negative cells.

* `cell_of_lt`, `cell_wrap`, `cell_wrap_succ`: the cells before, at and after the wrap;
* `RingSafe n tr`: every cell a run used lies in the array, and each remove read the cell that its
  insert had written;
* **`ringSafe_iff`**: exactly the runs that stay short enough are safe.
-/

namespace MiniProxy.Sbuf

variable {n : ℕ}

/-- Every cell is one of the array's, and the removes read the cells of the inserts in order. -/
def RingSafe {ι : Type*} (n : ℕ) (tr : List (ι × Ev)) : Prop :=
  (∀ c ∈ shown Ev.storedAt? tr, 0 ≤ c ∧ c < n) ∧ (∀ c ∈ shown Ev.loadedAt? tr, 0 ≤ c ∧ c < n) ∧
    shown Ev.loadedAt? tr <+: shown Ev.storedAt? tr

/-! ## The cells -/

theorem int32_natCast {k : ℕ} (h : k < 2 ^ 31) : int32 k = k := by
  unfold int32
  rw [Int.bmod_eq_emod_of_lt] <;> omega

theorem int32_wrap (k : ℕ) (h : k < 2 ^ 31) : int32 (2 ^ 31 + k : ℕ) = k - 2 ^ 31 := by
  unfold int32
  rw [Int.bmod_eq_iff (by norm_num)]
  omega

theorem cell_lt (hn : 1 ≤ n) (k : ℕ) : cell n k < n := Int.tmod_lt_of_pos _ (by omega)

theorem cell_of_lt {k : ℕ} (h : k < 2 ^ 31) : 0 ≤ cell n k := by
  rw [cell, int32_natCast h]
  exact Int.tmod_nonneg _ (by omega)

theorem cell_wrap : cell n (2 ^ 31) = -((2 ^ 31 % n : ℕ) : ℤ) := by
  have h := int32_wrap 0 (by norm_num)
  rw [Nat.add_zero] at h
  rw [cell, h, show ((0 : ℕ) : ℤ) - 2 ^ 31 = -((2 ^ 31 : ℕ) : ℤ) by norm_num, Int.neg_tmod,
    ← Int.ofNat_tmod]

theorem cell_wrap_succ : cell n (2 ^ 31 + 1) = -(((2 ^ 31 - 1) % n : ℕ) : ℤ) := by
  rw [cell, int32_wrap 1 (by norm_num),
    show ((1 : ℕ) : ℤ) - 2 ^ 31 = -((2 ^ 31 - 1 : ℕ) : ℤ) by norm_num, Int.neg_tmod,
    ← Int.ofNat_tmod]

theorem cells_nonneg_iff (hn : 1 ≤ n) (m : ℕ) :
    (∀ k, k < m → 0 ≤ cell n (k + 1)) ↔ n = 1 ∨ m < 2 ^ 31 ∨ (m = 2 ^ 31 ∧ n ∣ 2 ^ 31) := by
  constructor
  · intro h
    by_contra hc
    rw [not_or, not_or, not_and] at hc
    obtain ⟨h1, h2, h3⟩ := hc
    have hw := h (2 ^ 31 - 1) (by omega)
    rw [show 2 ^ 31 - 1 + 1 = 2 ^ 31 from rfl, cell_wrap] at hw
    have hd : n ∣ 2 ^ 31 := Nat.dvd_of_mod_eq_zero (by omega)
    have hm : m ≠ 2 ^ 31 := fun e => h3 e hd
    have hw' := h (2 ^ 31) (by omega)
    rw [cell_wrap_succ] at hw'
    have hd' : n ∣ 2 ^ 31 - 1 := Nat.dvd_of_mod_eq_zero (by omega)
    have h1' : n ∣ 1 := (Nat.dvd_sub hd hd').trans (by norm_num)
    exact h1 (Nat.dvd_one.mp h1')
  · rintro (rfl | hlt | ⟨rfl, hd⟩) k hk
    · simp [cell]
    · exact cell_of_lt (by omega)
    · rcases Nat.lt_or_ge (k + 1) (2 ^ 31) with hlt | hge
      · exact cell_of_lt hlt
      · rw [show k + 1 = 2 ^ 31 by omega, cell_wrap, Nat.mod_eq_zero_of_dvd hd]
        norm_num

/-! ## Runs -/

variable {ι : Type*} [Fintype ι] [DecidableEq ι]

/-- **A run is safe exactly when it stays short enough**: the array has one cell, or fewer than
`2 ^ 31` values were inserted, or exactly `2 ^ 31` and the capacity divides that number. -/
theorem ringSafe_iff (hn : 1 ≤ n) {tr : List (ι × Ev)} {s : State ι}
    (h : Lts.Path Step (init n) tr s) :
    RingSafe n tr ↔
      n = 1 ∨ (inserted tr).length < 2 ^ 31 ∨ ((inserted tr).length = 2 ^ 31 ∧ n ∣ 2 ^ 31) := by
  obtain ⟨hidx, k, hk, -⟩ := path_counts h
  rw [← cells_nonneg_iff hn, RingSafe, hidx.storedAt, hidx.loadedAt, hk]
  constructor
  · rintro ⟨hs, -, -⟩ j hj
    exact (hs _ (List.mem_map.mpr ⟨j, List.mem_range.mpr hj, rfl⟩)).1
  · intro hall
    refine ⟨fun c hc => ?_, fun c hc => ?_, ?_⟩
    · obtain ⟨j, hj, rfl⟩ := List.mem_map.mp hc
      exact ⟨hall j (List.mem_range.mp hj), cell_lt hn _⟩
    · obtain ⟨j, hj, rfl⟩ := List.mem_map.mp hc
      exact ⟨hall j (by have := List.mem_range.mp hj; omega), cell_lt hn _⟩
    · -- the removes use the first of the inserts' cells
      refine List.IsPrefix.map _ ⟨(List.range k).map fun j => (removed tr).length + j, ?_⟩
      rw [← List.range_add]

/-- The queue of `SBUFSIZE` slots through a thousand calls. -/
theorem ringSafe_thousand :
    ∃ (tr : List (Fin 2 × Ev)) (s : State (Fin 2)),
      Lts.Path Step (init 64) tr s ∧ (inserted tr).length = 1000 ∧ RingSafe 64 tr := by
  obtain ⟨tr, sp, h, hlen, -⟩ := exists_path (n := 64) (by decide) (0 : Fin 2) 1 1000
  exact ⟨tr, _, h, hlen, (ringSafe_iff (by decide) h).mpr (Or.inr (Or.inl (by rw [hlen]; decide)))⟩

/-- With `SBUFSIZE` slots the insert after `2 ^ 31` others writes before the array. -/
theorem not_ringSafe_wrap :
    ∃ (tr : List (Fin 2 × Ev)) (s : State (Fin 2)),
      Lts.Path Step (init 64) tr s ∧ (inserted tr).length = 2 ^ 31 + 1 ∧ ¬ RingSafe 64 tr := by
  obtain ⟨tr, sp, h, hlen, -⟩ := exists_path (n := 64) (by decide) (0 : Fin 2) 1 (2 ^ 31 + 1)
  refine ⟨tr, _, h, hlen, fun hsafe => ?_⟩
  have hmem : cell 64 (2 ^ 31 + 1) ∈ shown Ev.storedAt? tr := by
    rw [(path_counts h).1.storedAt, hlen]
    exact List.mem_map.mpr ⟨2 ^ 31, List.mem_range.mpr (by omega), rfl⟩
  have hneg := (hsafe.1 _ hmem).1
  rw [cell_wrap_succ] at hneg
  norm_num at hneg

end MiniProxy.Sbuf

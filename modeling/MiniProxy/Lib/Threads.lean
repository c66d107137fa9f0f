import Mathlib.Algebra.BigOperators.Group.Finset.Basic
import Mathlib.Algebra.Order.BigOperators.Group.Finset
import Mathlib.Data.Fintype.Basic
import MiniProxy.Lib.Run

/-!
# Threads over a shared memory

Threads `ι` share a memory and each stands at a place of its own. The program of one thread is a
relation `tstep`; `Step tstep` interleaves all threads, one step of one thread at a time.
`path_solo`, `path_solo_guarded`: what a thread can do alone it can do while the others stand still.

`total f pc` adds up the weight `f` of the threads' places.

* `total_update`: a step of one thread changes the total by that thread's weight only;
* `le_total`, `add_le_total`: one thread, or two, weigh at most the total;
* `total_eq_zero`, `total_le_card`: no weight at all, and weights of at most one.
-/

namespace Threads

variable {ι α γ ε : Type*}

/-- A state of the program: the shared memory and every thread's place. -/
structure Sys (ι γ α : Type*) where
  mem : γ
  pc : ι → α

/-- Thread `i` takes the step `e` of its program; the others stay where they are. -/
inductive Step [DecidableEq ι] (tstep : γ → α → ε → γ → α → Prop) :
    Sys ι γ α → ι × ε → Sys ι γ α → Prop
  | mk {s : Sys ι γ α} {i : ι} {e : ε} {m : γ} {a : α} (h : tstep s.mem (s.pc i) e m a) :
      Step tstep s (i, e) ⟨m, Function.update s.pc i a⟩

/-- The steps of one thread on its own: the state is the memory and the thread's place. -/
inductive Solo (tstep : γ → α → ε → γ → α → Prop) : γ × α → ε → γ × α → Prop
  | mk {m m' : γ} {a a' : α} {e : ε} (h : tstep m a e m' a') : Solo tstep (m, a) e (m', a')

theorem path_mono {tstep tstep' : γ → α → ε → γ → α → Prop}
    (hle : ∀ m a e m' a', tstep m a e m' a' → tstep' m a e m' a') {x y : γ × α} {es : List ε}
    (h : Lts.Path (Solo tstep) x es y) : Lts.Path (Solo tstep') x es y :=
  h.mono fun _ _ _ ⟨hs⟩ => .mk (hle _ _ _ _ _ hs)

/-- A thread running alone is a run of the whole program, and a guard on its steps one on the program. -/
theorem path_solo_guarded [DecidableEq ι] {tstep : γ → α → ε → γ → α → Prop} {G₀ : γ × α → ε → Prop}
    {G : Sys ι γ α → ι × ε → Prop} {x y : γ × α} {es : List ε}
    (h : Lts.Path (Lts.Guarded (Solo tstep) G₀) x es y) (pc : ι → α) (i : ι) (hp : pc i = x.2)
    (hG : ∀ m a e, G₀ (m, a) e → G ⟨m, Function.update pc i a⟩ (i, e)) :
    Lts.Path (Lts.Guarded (Step tstep) G) ⟨x.1, pc⟩ (es.map fun e => (i, e))
      ⟨y.1, Function.update pc i y.2⟩ := by
  induction h with
  | nil =>
    rw [← hp, Function.update_eq_self]
    exact Lts.Path.nil _
  | @snoc _ _ es e _ hs ih =>
    obtain ⟨hs, hG₀⟩ := hs
    obtain @⟨m, m', a, a', _, hs⟩ := hs
    have h : Step tstep ⟨m, Function.update pc i a⟩ (i, e)
        ⟨m', Function.update (Function.update pc i a) i a'⟩ :=
      Step.mk (by simpa using hs)
    rw [Function.update_idem] at h
    rw [List.map_append]
    exact Lts.Path.snoc ih ⟨h, hG _ _ e hG₀⟩

/-- A thread running alone is a run of the whole program. -/
theorem path_solo [DecidableEq ι] {tstep : γ → α → ε → γ → α → Prop} {x y : γ × α} {es : List ε}
    (h : Lts.Path (Solo tstep) x es y) (pc : ι → α) (i : ι) (hp : pc i = x.2) :
    Lts.Path (Step tstep) ⟨x.1, pc⟩ (es.map fun e => (i, e)) ⟨y.1, Function.update pc i y.2⟩ :=
  (path_solo_guarded (G := fun _ _ => True) (h.guarded fun _ _ he => he) pc i hp
    fun _ _ _ _ => trivial).mono fun _ _ _ hs => hs.1

/-! ## Weights -/

variable [Fintype ι]

/-- The sum of the weights of all threads' places. -/
def total (f : α → ℕ) (pc : ι → α) : ℕ := ∑ i, f (pc i)

theorem total_const (f : α → ℕ) (a : α) (h : f a = 0) : total f (fun _ : ι => a) = 0 := by
  simp [total, h]

theorem le_total (f : α → ℕ) (pc : ι → α) (i : ι) : f (pc i) ≤ total f pc :=
  Finset.single_le_sum (f := fun j => f (pc j)) (fun _ _ => Nat.zero_le _) (Finset.mem_univ i)

theorem total_eq_zero {f : α → ℕ} {pc : ι → α} : total f pc = 0 ↔ ∀ i, f (pc i) = 0 := by
  simp [total, Finset.sum_eq_zero_iff]

theorem total_le_card {f : α → ℕ} (h : ∀ a, f a ≤ 1) (pc : ι → α) : total f pc ≤ Fintype.card ι :=
  (Finset.sum_le_card_nsmul Finset.univ (fun i => f (pc i)) 1 fun i _ => h (pc i)).trans (by simp)

variable [DecidableEq ι]

/-- **A step of thread `i`** moves the total by the change of `i`'s own weight. -/
theorem total_update (f : α → ℕ) (pc : ι → α) (i : ι) (a : α) :
    total f (Function.update pc i a) + f (pc i) = total f pc + f a := by
  have h : ∀ q : ι → α, total f q = f (q i) + ∑ j ∈ Finset.univ.erase i, f (q j) := fun q =>
    (Finset.add_sum_erase Finset.univ (fun j => f (q j)) (Finset.mem_univ i)).symm
  have hrest : ∑ j ∈ Finset.univ.erase i, f (Function.update pc i a j) =
      ∑ j ∈ Finset.univ.erase i, f (pc j) :=
    Finset.sum_congr rfl fun j hj => by rw [Function.update_of_ne (Finset.ne_of_mem_erase hj)]
  rw [h, h pc, hrest, Function.update_self]
  omega

theorem add_le_total (f : α → ℕ) (pc : ι → α) {i j : ι} (hij : i ≠ j) :
    f (pc i) + f (pc j) ≤ total f pc := by
  have h : total f pc = f (pc i) + ∑ k ∈ Finset.univ.erase i, f (pc k) :=
    (Finset.add_sum_erase Finset.univ (fun k => f (pc k)) (Finset.mem_univ i)).symm
  have hj : f (pc j) ≤ ∑ k ∈ Finset.univ.erase i, f (pc k) :=
    Finset.single_le_sum (f := fun k => f (pc k)) (fun _ _ => Nat.zero_le _)
      (Finset.mem_erase.mpr ⟨Ne.symm hij, Finset.mem_univ j⟩)
  omega

end Threads

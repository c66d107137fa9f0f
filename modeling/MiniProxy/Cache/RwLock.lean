import Mathlib.Algebra.BigOperators.Group.Finset.Piecewise
import Mathlib.Data.Int.Basic
import Mathlib.Tactic.SplitIfs
import MiniProxy.Lib.Threads

/-!
# The readers-writer lock of the cache

`pre_read`, `post_read`, `pre_write` and `post_write`, one `P`, `V`, `readcnt` statement or test at
a time, for any number of threads. The first reader takes the writer lock `w` and the last reader
gives it back, possibly a different thread.

* `Lock`, `lockInit`, `Pc`, `TStep`: the lock, a thread's places and its steps;
* `Inv s g`: the invariant, where `g` is `1` while the readers together hold `w`;
* `inv_step`, `path_inv`: a step keeps it, so every run does;
* **`rwlock_exclusion`**: writers exclude each other and all readers, and `readcnt` counts the
  readers;
* `Blocked`, **`Inv.exists_unblocked`**: never are all threads inside the lock stuck at a `P`.
-/

namespace MiniProxy.RwLock

open Threads (total total_update le_total add_le_total)

/-- The lock's semaphores and `readcnt`, which counts threads and stays far below `INT_MAX`. -/
structure Lock where
  mutex : ℕ
  w : ℕ
  readcnt : ℤ

/-- The lock after `cache_init`. -/
def lockInit : Lock := { mutex := 1, w := 1, readcnt := 0 }

/-- The places of a thread: outside every section, inside one, or about to run the statement of
`pre_read`, `post_read`, `pre_write` or `post_write` that the name tells. -/
inductive Pc where
  | out
  | preReadP
  | preReadInc
  | preReadTest
  | preReadW
  | preReadV
  | reading
  | postReadP
  | postReadDec
  | postReadTest
  | postReadW
  | postReadV
  | preWrite
  | writing
  | postWrite
  deriving DecidableEq

/-- The steps of one thread. -/
inductive TStep : Lock → Pc → Unit → Lock → Pc → Prop
  | preRead (l : Lock) : TStep l .out () l .preReadP
  | preReadP (l : Lock) (h : 0 < l.mutex) :
      TStep l .preReadP () { l with mutex := l.mutex - 1 } .preReadInc
  | preReadInc (l : Lock) :
      TStep l .preReadInc () { l with readcnt := l.readcnt + 1 } .preReadTest
  | preReadFirst (l : Lock) (h : l.readcnt = 1) : TStep l .preReadTest () l .preReadW
  | preReadLater (l : Lock) (h : l.readcnt ≠ 1) : TStep l .preReadTest () l .preReadV
  | preReadW (l : Lock) (h : 0 < l.w) : TStep l .preReadW () { l with w := l.w - 1 } .preReadV
  | preReadV (l : Lock) : TStep l .preReadV () { l with mutex := l.mutex + 1 } .reading
  | postRead (l : Lock) : TStep l .reading () l .postReadP
  | postReadP (l : Lock) (h : 0 < l.mutex) :
      TStep l .postReadP () { l with mutex := l.mutex - 1 } .postReadDec
  | postReadDec (l : Lock) :
      TStep l .postReadDec () { l with readcnt := l.readcnt - 1 } .postReadTest
  | postReadLast (l : Lock) (h : l.readcnt = 0) : TStep l .postReadTest () l .postReadW
  | postReadOther (l : Lock) (h : l.readcnt ≠ 0) : TStep l .postReadTest () l .postReadV
  | postReadW (l : Lock) : TStep l .postReadW () { l with w := l.w + 1 } .postReadV
  | postReadV (l : Lock) : TStep l .postReadV () { l with mutex := l.mutex + 1 } .out
  | preWrite (l : Lock) : TStep l .out () l .preWrite
  | preWriteP (l : Lock) (h : 0 < l.w) : TStep l .preWrite () { l with w := l.w - 1 } .writing
  | postWrite (l : Lock) : TStep l .writing () l .postWrite
  | postWriteV (l : Lock) : TStep l .postWrite () { l with w := l.w + 1 } .out

/-- Between `P(&mutex)` and `V(&mutex)`. -/
def Pc.inMutex : Pc → Bool
  | .preReadInc | .preReadTest | .preReadW | .preReadV
  | .postReadDec | .postReadTest | .postReadW | .postReadV => true
  | _ => false

/-- Past `pre_read` and not yet at the decrement of `post_read`. -/
def Pc.inRead : Pc → Bool
  | .reading | .postReadP => true
  | _ => false

/-- Past `P(&w)` of `pre_write` and not yet past `V(&w)` of `post_write`. -/
def Pc.inWrite : Pc → Bool
  | .writing | .postWrite => true
  | _ => false

/-- Counted in `readcnt`. -/
def Pc.counted : Pc → Bool
  | .preReadTest | .preReadW | .preReadV | .reading | .postReadP | .postReadDec => true
  | _ => false

variable {ι : Type*} [DecidableEq ι]

/-- A lock shared by the threads `ι`. -/
abbrev State (ι : Type*) := Threads.Sys ι Lock Pc

/-- Any thread takes a step. -/
abbrev Step : State ι → ι × Unit → State ι → Prop := Threads.Step TStep

/-- After `cache_init`, before any section. -/
def init : State ι := ⟨lockInit, fun _ => .out⟩

/-! ## The invariant -/

/-- What the holder of `mutex` knows of `readcnt` and of the readers' hold on `w`. -/
def Pc.Knows (r : ℤ) (g : ℕ) : Pc → Prop
  | .preReadInc | .postReadV => g = if 0 < r then 1 else 0
  | .preReadTest => g = if r = 1 then 0 else 1
  | .preReadW => r = 1 ∧ g = 0
  | .preReadV | .postReadDec | .postReadTest => g = 1
  | .postReadW => r = 0 ∧ g = 1
  | _ => True

theorem Pc.knows_of_not_inMutex {p : Pc} (h : p.inMutex = false) (r : ℤ) (g : ℕ) : p.Knows r g := by
  cases p <;> simp_all [Pc.inMutex, Pc.Knows]

theorem Pc.Knows.held {p : Pc} {r : ℤ} {g : ℕ} (h : p.Knows r g) (hp : p.inMutex = true)
    (hr : p.counted.toNat + 1 ≤ r) : g = 1 := by
  cases p <;> simp only [Pc.inMutex, Pc.Knows, Pc.counted, Bool.toNat_true, Bool.toNat_false,
    Bool.false_eq_true] at h hp hr
  all_goals try split_ifs at h
  all_goals omega

/-- The number of threads with a property of their places. -/
abbrev tally [Fintype ι] (f : Pc → Bool) (pc : ι → Pc) : ℕ := total (fun p => (f p).toNat) pc

variable [Fintype ι]

/-- The invariant: `g` is `1` while the readers together hold `w`. -/
structure Inv (s : State ι) (g : ℕ) : Prop where
  mutex : s.mem.mutex + tally Pc.inMutex s.pc = 1
  readcnt : s.mem.readcnt = tally Pc.counted s.pc
  w : s.mem.w + tally Pc.inWrite s.pc + g = 1
  knows : ∀ i, (s.pc i).Knows s.mem.readcnt g
  free : tally Pc.inMutex s.pc = 0 → g = if 0 < s.mem.readcnt then 1 else 0

omit [DecidableEq ι] in
theorem inv_init : Inv (init : State ι) 0 where
  mutex := by simp [init, lockInit, total, Pc.inMutex]
  readcnt := by simp [init, lockInit, total, Pc.counted]
  w := by simp [init, lockInit, total, Pc.inWrite]
  knows := fun _ => trivial
  free := fun _ => by simp [init, lockInit]

section Facts

variable {s : State ι} {g : ℕ}

theorem Inv.others (h : Inv s g) {i j : ι} (hi : (s.pc i).inMutex = true) (hij : i ≠ j) :
    (s.pc j).inMutex = false := by
  have hle := add_le_total (fun p => (Pc.inMutex p).toNat) s.pc hij
  have hm := h.mutex
  rw [hi, Bool.toNat_true] at hle
  cases hj : (s.pc j).inMutex with
  | false => rfl
  | true =>
    rw [hj, Bool.toNat_true] at hle
    simp only [tally] at hm
    omega

omit [DecidableEq ι] in
theorem Inv.readcnt_pos (h : Inv s g) {i : ι} (hi : (s.pc i).counted = true) : 0 < s.mem.readcnt := by
  have hle := le_total (fun p => (Pc.counted p).toNat) s.pc i
  have hr := h.readcnt
  rw [hi, Bool.toNat_true] at hle
  simp only [tally] at hr
  omega

theorem Inv.step (h : Inv s g) (i : ι) {l : Lock} {p : Pc} {g' : ℕ}
    (hm : l.mutex + p.inMutex.toNat = s.mem.mutex + (s.pc i).inMutex.toNat)
    (hr : l.readcnt + (s.pc i).counted.toNat = s.mem.readcnt + p.counted.toNat)
    (hw : l.w + p.inWrite.toNat + g' = s.mem.w + (s.pc i).inWrite.toNat + g)
    (hk : p.Knows l.readcnt g')
    (ho : (l.readcnt = s.mem.readcnt ∧ g' = g) ∨ (s.pc i).inMutex = true)
    (hf : p.inMutex = false → (s.pc i).inMutex = true → g' = if 0 < l.readcnt then 1 else 0) :
    Inv ⟨l, Function.update s.pc i p⟩ g' := by
  have uM := total_update (fun p => (Pc.inMutex p).toNat) s.pc i p
  have uR := total_update (fun p => (Pc.counted p).toNat) s.pc i p
  have uW := total_update (fun p => (Pc.inWrite p).toNat) s.pc i p
  have hM := h.mutex
  have hR := h.readcnt
  have hW := h.w
  simp only [tally] at hM hR hW
  refine ⟨?_, ?_, ?_, ?_, ?_⟩
  · simp only [tally]
    omega
  · simp only [tally]
    omega
  · simp only [tally]
    omega
  · intro j
    by_cases hj : j = i
    · subst hj
      simpa using hk
    · show (Function.update s.pc i p j).Knows _ _
      rw [Function.update_of_ne hj]
      rcases ho with ⟨hr', hg'⟩ | hi
      · rw [hr', hg']
        exact h.knows j
      · exact Pc.knows_of_not_inMutex (h.others hi (Ne.symm hj)) _ _
  · intro h0
    simp only [tally] at h0
    have hp : p.inMutex = false := by
      cases hp : p.inMutex with
      | false => rfl
      | true =>
        rw [hp, Bool.toNat_true] at uM
        have := le_total (fun p => (Pc.inMutex p).toNat) s.pc i
        omega
    rcases Bool.eq_false_or_eq_true (s.pc i).inMutex with hi | hi
    · exact hf hp hi
    · rcases ho with ⟨hr', hg'⟩ | hi'
      · show g' = if 0 < l.readcnt then 1 else 0
        rw [hr', hg']
        rw [hp, hi] at uM
        exact h.free (by simp only [tally]; omega)
      · rw [hi] at hi'
        cases hi'

end Facts

/-! ## Runs -/

theorem inv_step {s s' : State ι} {a : ι × Unit} {g : ℕ} (h : Inv s g) (hs : Step s a s') :
    ∃ g', Inv s' g' := by
  obtain ⟨hs⟩ := hs
  rename_i i _ l p
  have hk := h.knows i
  have hW := h.w
  have hR := h.readcnt
  generalize hp : s.pc i = p₀ at hs hk
  cases hs with
  | preRead | preWrite | postRead | postWrite =>
    refine ⟨g, h.step i ?_ ?_ ?_ trivial (Or.inl ⟨rfl, rfl⟩) ?_⟩ <;>
      simp [hp, Pc.inMutex, Pc.counted, Pc.inWrite]
  | preReadP hpos =>
    have hfree := h.free (by have := h.mutex; omega)
    refine ⟨g, h.step i ?_ ?_ ?_ hfree (Or.inl ⟨rfl, rfl⟩) ?_⟩ <;>
      simp [hp, Pc.inMutex, Pc.counted, Pc.inWrite]
    omega
  | preReadInc =>
    refine ⟨g, h.step i ?_ ?_ ?_ ?_ (Or.inr (by rw [hp]; rfl)) ?_⟩
    · simp [hp, Pc.inMutex]
    · simp [hp, Pc.counted]
    · simp [hp, Pc.inWrite]
    · simp only [Pc.Knows] at hk ⊢
      split_ifs at hk ⊢ <;> omega
    · simp [Pc.inMutex]
  | preReadFirst hr =>
    refine ⟨g, h.step i ?_ ?_ ?_ ?_ (Or.inr (by rw [hp]; rfl)) ?_⟩ <;>
      simp_all [Pc.Knows, Pc.inMutex, Pc.counted, Pc.inWrite]
  | preReadLater hr =>
    refine ⟨g, h.step i ?_ ?_ ?_ ?_ (Or.inr (by rw [hp]; rfl)) ?_⟩ <;>
      simp_all [Pc.Knows, Pc.inMutex, Pc.counted, Pc.inWrite]
  | preReadW hpos =>
    obtain ⟨hr, rfl⟩ := hk
    refine ⟨1, h.step i ?_ ?_ ?_ rfl (Or.inr (by rw [hp]; rfl)) ?_⟩ <;>
      simp only [hp, Pc.inMutex, Pc.counted, Pc.inWrite]
    all_goals first | omega | simp
  | preReadV =>
    have hpos := h.readcnt_pos (i := i) (by rw [hp]; rfl)
    refine ⟨g, h.step i ?_ ?_ ?_ trivial (Or.inl ⟨rfl, rfl⟩) ?_⟩ <;>
      simp_all [Pc.Knows, Pc.inMutex, Pc.counted, Pc.inWrite]
  | postReadP hpos =>
    have hcnt := h.readcnt_pos (i := i) (by rw [hp]; rfl)
    have hfree := h.free (by have := h.mutex; omega)
    rw [if_pos hcnt] at hfree
    refine ⟨g, h.step i ?_ ?_ ?_ hfree (Or.inl ⟨rfl, rfl⟩) ?_⟩ <;>
      simp [hp, Pc.inMutex, Pc.counted, Pc.inWrite]
    omega
  | postReadDec =>
    refine ⟨g, h.step i ?_ ?_ ?_ hk (Or.inr (by rw [hp]; rfl)) ?_⟩ <;>
      simp [hp, Pc.inMutex, Pc.counted, Pc.inWrite]
  | postReadLast hr =>
    refine ⟨g, h.step i ?_ ?_ ?_ ⟨hr, hk⟩ (Or.inl ⟨rfl, rfl⟩) ?_⟩ <;>
      simp [hp, Pc.inMutex, Pc.counted, Pc.inWrite]
  | postReadOther hr =>
    have hpos : 0 < s.mem.readcnt := by omega
    refine ⟨g, h.step i ?_ ?_ ?_ ?_ (Or.inl ⟨rfl, rfl⟩) ?_⟩ <;>
      simp_all [Pc.Knows, Pc.inMutex, Pc.counted, Pc.inWrite]
  | postReadW =>
    obtain ⟨hr, rfl⟩ := hk
    refine ⟨0, h.step i ?_ ?_ ?_ ?_ (Or.inr (by rw [hp]; rfl)) ?_⟩ <;>
      simp_all [Pc.Knows, Pc.inMutex, Pc.counted, Pc.inWrite]
  | postReadV =>
    refine ⟨g, h.step i ?_ ?_ ?_ trivial (Or.inl ⟨rfl, rfl⟩) (fun _ _ => hk)⟩ <;>
      simp [hp, Pc.inMutex, Pc.counted, Pc.inWrite]
  | preWriteP hpos =>
    refine ⟨g, h.step i ?_ ?_ ?_ trivial (Or.inl ⟨rfl, rfl⟩) ?_⟩ <;>
      simp [hp, Pc.inMutex, Pc.counted, Pc.inWrite]
    omega
  | postWriteV =>
    refine ⟨g, h.step i ?_ ?_ ?_ trivial (Or.inl ⟨rfl, rfl⟩) ?_⟩ <;>
      simp [hp, Pc.inMutex, Pc.counted, Pc.inWrite]

/-- Every reachable state satisfies the invariant. -/
theorem path_inv {tr : List (ι × Unit)} {s : State ι} (h : Lts.Path Step init tr s) :
    ∃ g, Inv s g :=
  Lts.Path.invariant_state (fun s => ∃ g, Inv s g) ⟨0, inv_init⟩
    (fun _ _ _ ⟨_, hg⟩ hs => inv_step hg hs) h

/-! ## Exclusion -/

theorem Inv.held {s : State ι} {g : ℕ} (h : Inv s g) {j : ι} (hj : (s.pc j).inRead = true) :
    g = 1 := by
  have hcj : (s.pc j).counted = true := by
    cases hp : s.pc j <;> simp_all [Pc.inRead, Pc.counted]
  have hpos := h.readcnt_pos hcj
  by_cases h0 : tally Pc.inMutex s.pc = 0
  · rw [h.free h0, if_pos hpos]
  · -- thread `k` holds `mutex`; it counts itself besides `j` where it is at the test
    obtain ⟨k, hk⟩ : ∃ k, (s.pc k).inMutex = true := by
      by_contra hno
      refine h0 (Threads.total_eq_zero.mpr fun k => ?_)
      cases hk : (s.pc k).inMutex with
      | false => rfl
      | true => exact absurd ⟨k, hk⟩ hno
    have hkj : k ≠ j := by
      rintro rfl
      cases hp : s.pc k <;> simp_all [Pc.inRead, Pc.inMutex]
    have hle := add_le_total (fun p => (Pc.counted p).toNat) s.pc hkj
    have hr := h.readcnt
    simp only [tally, hcj, Bool.toNat_true] at hle hr
    exact (h.knows k).held hk (by omega)

omit [DecidableEq ι] in
theorem tally_eq_card (f : Pc → Bool) (pc : ι → Pc) :
    tally f pc = (Finset.univ.filter fun i => f (pc i) = true).card := by
  rw [Finset.card_filter]
  exact Finset.sum_congr rfl fun i _ => by cases h : f (pc i) <;> simp [h]

/-- **Readers-writer exclusion**: at most one thread is inside a write section, no thread is inside
a read section meanwhile, `w` and `mutex` never exceed `1`, and while no thread holds `mutex`,
`readcnt` is the number of threads inside a read section, with `w` taken if there are any. -/
theorem rwlock_exclusion {tr : List (ι × Unit)} {s : State ι} (h : Lts.Path Step init tr s) :
    (∀ i j, (s.pc i).inWrite = true → (s.pc j).inWrite = true → i = j) ∧
      (∀ i j, (s.pc i).inWrite = true → (s.pc j).inRead = false) ∧
      s.mem.w ≤ 1 ∧ s.mem.mutex ≤ 1 ∧
      ((∀ i, (s.pc i).inMutex = false) →
        s.mem.readcnt = (Finset.univ.filter fun i => (s.pc i).inRead = true).card ∧
          (0 < s.mem.readcnt → s.mem.w = 0)) := by
  obtain ⟨g, hI⟩ := path_inv h
  have hw := hI.w
  have hm := hI.mutex
  refine ⟨?_, ?_, by omega, by omega, ?_⟩
  · intro i j hi hj
    by_contra hij
    have := add_le_total (fun p => (Pc.inWrite p).toNat) s.pc hij
    simp only [tally, hi, hj, Bool.toNat_true] at this hw
    omega
  · intro i j hi
    by_contra hj
    have hg := hI.held (Bool.eq_true_of_not_eq_false hj)
    have := le_total (fun p => (Pc.inWrite p).toNat) s.pc i
    simp only [tally, hi, Bool.toNat_true] at this hw
    omega
  · intro hout
    have h0 : tally Pc.inMutex s.pc = 0 := Threads.total_eq_zero.mpr fun i => by simp [hout i]
    have hsame : tally Pc.counted s.pc = tally Pc.inRead s.pc :=
      Finset.sum_congr rfl fun i _ => by
        have := hout i
        cases hp : s.pc i <;> simp_all [Pc.inMutex, Pc.counted, Pc.inRead]
    refine ⟨by rw [hI.readcnt, hsame, tally_eq_card], fun hpos => ?_⟩
    have hg := hI.free h0
    rw [if_pos hpos] at hg
    omega

/-! ## Progress -/

/-- At a `P` on a semaphore that is `0`. -/
def Blocked (l : Lock) : Pc → Prop
  | .preReadP | .postReadP => l.mutex = 0
  | .preReadW | .preWrite => l.w = 0
  | _ => False

omit [DecidableEq ι] in
theorem exists_of_tally_pos (f : Pc → Bool) (pc : ι → Pc) (h : 0 < tally f pc) :
    ∃ i, f (pc i) = true := by
  by_contra hno
  have h0 : tally f pc = 0 := Threads.total_eq_zero.mpr fun i => by
    cases hi : f (pc i) with
    | false => rfl
    | true => exact absurd ⟨i, hi⟩ hno
  omega

omit [DecidableEq ι] in
theorem exists_writer {s : State ι} (h : 0 < tally Pc.inWrite s.pc) :
    ∃ j, s.pc j ≠ .out ∧ ¬ Blocked s.mem (s.pc j) := by
  obtain ⟨j, hj⟩ := exists_of_tally_pos _ _ h
  refine ⟨j, ?_, ?_⟩ <;>
    cases hp : s.pc j <;> simp_all [Pc.inWrite, Blocked]

omit [DecidableEq ι] in
/-- **No deadlock**: while a thread waits at a `P`, another one inside the lock can go on. A wait for
`mutex` ends at the holder of `mutex`, which waits at most for `w`; a wait for `w` ends at a writer or,
when the readers hold `w`, at a reader, which waits at most for `mutex` while it is free. -/
theorem Inv.exists_unblocked {s : State ι} {g : ℕ} (h : Inv s g) {i : ι}
    (hi : Blocked s.mem (s.pc i)) : ∃ j, s.pc j ≠ .out ∧ ¬ Blocked s.mem (s.pc j) := by
  have hm := h.mutex
  have hw := h.w
  by_cases h0 : tally Pc.inMutex s.pc = 0
  · -- `mutex` is free, so `i` waits for `w`
    have hw0 : s.mem.w = 0 := by
      cases hp : s.pc i <;> rw [hp] at hi <;> simp only [Blocked] at hi <;> omega
    by_cases hwr : 0 < tally Pc.inWrite s.pc
    · exact exists_writer hwr
    · have hfree := h.free h0
      have hpos : 0 < s.mem.readcnt := by
        by_contra hno
        rw [if_neg hno] at hfree
        omega
      have hr := h.readcnt
      obtain ⟨j, hj⟩ := exists_of_tally_pos Pc.counted s.pc (by omega)
      have hout : (s.pc j).inMutex = false := by
        have := Threads.total_eq_zero.mp h0 j
        cases hjm : (s.pc j).inMutex with
        | false => rfl
        | true => simp [hjm] at this
      refine ⟨j, ?_, ?_⟩
      · intro hp
        rw [hp] at hj
        cases hj
      · intro hb
        cases hp : s.pc j <;> simp_all [Pc.counted, Pc.inMutex, Blocked]
  · -- the holder of `mutex` goes on unless it waits for `w`, which a writer holds then
    obtain ⟨k, hk⟩ := exists_of_tally_pos Pc.inMutex s.pc (by omega)
    by_cases hb : Blocked s.mem (s.pc k)
    · have hknow := h.knows k
      have hpc : s.pc k = .preReadW := by
        cases hp : s.pc k <;> simp_all [Pc.inMutex, Blocked]
      rw [hpc] at hb hknow
      have hg : g = 0 := hknow.2
      have hw0 : s.mem.w = 0 := hb
      exact exists_writer (by omega)
    · refine ⟨k, ?_, hb⟩
      intro hp
      rw [hp] at hk
      cases hk

/-- A reader alone: it enters its section and holds `w`. -/
theorem path_reader : ∃ (tr : List (Fin 2 × Unit)) (s : State (Fin 2)),
    Lts.Path Step init tr s ∧ s.pc = Function.update (fun _ => .out) 0 .reading ∧
      s.mem = { mutex := 1, w := 0, readcnt := 1 } := by
  have h : Lts.Path (Threads.Solo TStep) (lockInit, .out) [(), (), (), (), (), ()]
      ({ mutex := 1, w := 0, readcnt := 1 }, .reading) :=
    ((((((Lts.Path.nil _).snoc (.mk (.preRead _))).snoc (.mk (.preReadP _ (by decide)))).snoc
      (.mk (.preReadInc _))).snoc (.mk (.preReadFirst _ rfl))).snoc
      (.mk (.preReadW _ (by decide)))).snoc (.mk (.preReadV _))
  exact ⟨_, _, Threads.path_solo h (fun _ => .out) 0 rfl, rfl, rfl⟩

/-- The exclusion in a run that has a reader inside its section. -/
theorem rwlock_exclusion_reader :
    ∃ (tr : List (Fin 2 × Unit)) (s : State (Fin 2)),
      Lts.Path Step init tr s ∧ (s.pc 0).inRead = true ∧ s.mem.w ≤ 1 ∧ s.mem.mutex ≤ 1 := by
  obtain ⟨tr, s, h, hpc, -⟩ := path_reader
  exact ⟨tr, s, h, by rw [hpc]; rfl, (rwlock_exclusion h).2.2.1, (rwlock_exclusion h).2.2.2.1⟩

end MiniProxy.RwLock

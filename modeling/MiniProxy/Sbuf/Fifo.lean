import MiniProxy.Lib.Fifo
import MiniProxy.Sbuf.Count

/-!
# The message queue is a bounded FIFO queue

While the running indices have not wrapped, the cells between `front` and `rear` hold the contents
of a FIFO queue of capacity `n`, and every array statement is one operation on it.

* `Refines n s q`: the ring `s` holds the queue `q`;
* `refines_step`: every step before the wrap keeps the relation;
* **`path_fifo`**: the array statements of a run are a run of the FIFO queue;
* **`sbuf_fifo`**: values come out in order, none is lost or doubled, at most `n` are stored, and
  an inserter and a remover never block each other.
-/

namespace MiniProxy.Sbuf

theorem int32_of_lt {x : ℤ} (h₀ : 0 ≤ x) (h : x < 2 ^ 31) : int32 x = x := by
  unfold int32
  rw [Int.bmod_eq_emod_of_lt] <;> omega

/-- The operation an array statement performs. -/
def Ev.op? : Ev → Option (Fifo.Op ℤ)
  | .tau => none
  | .stored _ item => some (.push item)
  | .loaded _ removed => some (.pop removed)

variable {ι : Type*} [Fintype ι] {n : ℕ}

/-- The ring holds the queue `q`. -/
structure Refines (n : ℕ) (s : State ι) (q : List ℤ) : Prop where
  counts : Counts n s q.length
  n_eq : s.mem.n = n
  front_nonneg : 0 ≤ s.mem.front
  rear_eq : s.mem.rear = s.mem.front + q.length
  rear_lt : s.mem.rear < 2 ^ 31
  cells : ∀ k (h : k < q.length), s.mem.buf ((s.mem.front + 1 + k) % n) = q[k]

theorem refines_init (n : ℕ) : Refines n (init n : State ι) [] where
  counts := counts_init n
  n_eq := rfl
  front_nonneg := le_rfl
  rear_eq := rfl
  rear_lt := by simp [init, sbufSetup]
  cells := fun k h => absurd h (Nat.not_lt_zero k)

/-! ## The cells -/

theorem emod_ne_of_sub_lt {a b : ℤ} (h₁ : a < b) (h₂ : b < a + n) : a % (n : ℤ) ≠ b % n := by
  intro h
  have hd : (b - a) % (n : ℤ) = 0 := Int.emod_eq_emod_iff_emod_sub_eq_zero.mp h.symm
  rw [Int.emod_eq_of_lt (by omega) (by omega)] at hd
  omega

theorem rearIndex_eq {s : State ι} {q : List ℤ} (h : Refines n s q) (hw : s.mem.rear + 1 < 2 ^ 31) :
    s.mem.rearIndex = (s.mem.front + 1 + q.length) % n := by
  have h₀ := h.front_nonneg
  have hr := h.rear_eq
  rw [rearIndex, h.n_eq, int32_of_lt (by omega) hw, Int.tmod_eq_emod_of_nonneg (by omega), hr]
  congr 1
  omega

theorem frontIndex_eq {s : State ι} {x : ℤ} {q : List ℤ} (h : Refines n s (x :: q)) :
    s.mem.frontIndex = (s.mem.front + 1) % n ∧ s.mem.buf s.mem.frontIndex = x := by
  have h₀ := h.front_nonneg
  have hr := h.rear_eq
  have hl := h.rear_lt
  rw [List.length_cons] at hr
  have he : s.mem.frontIndex = (s.mem.front + 1) % n := by
    rw [frontIndex, h.n_eq, int32_of_lt (by omega) (by omega), Int.tmod_eq_emod_of_nonneg (by omega)]
  refine ⟨he, ?_⟩
  have hc := h.cells 0 (by simp)
  rw [he]
  simpa using hc

/-! ## Steps -/

variable [DecidableEq ι] {s : State ι} {q : List ℤ}

theorem Refines.tau (h : Refines n s q) (i : ι) {sp : Sbuf} {p : Pc}
    (hs : TStep s.mem (s.pc i) .tau sp p) : Refines n ⟨sp, Function.update s.pc i p⟩ q := by
  obtain ⟨e₁, e₂, e₃, e₄⟩ := hs.tau_ring
  refine ⟨h.counts.tau hs, e₁.trans h.n_eq, ?_, ?_, ?_, ?_⟩
  · exact e₃ ▸ h.front_nonneg
  · exact e₂ ▸ e₃ ▸ h.rear_eq
  · exact e₂ ▸ h.rear_lt
  · intro k hk
    show sp.buf ((sp.front + 1 + k) % n) = q[k]
    rw [e₃, e₄]
    exact h.cells k hk

theorem Refines.store (h : Refines n s q) (i : ι) {item : ℤ} (hp : s.pc i = .insStore item)
    (hw : s.mem.rear + 1 < 2 ^ 31) :
    q.length < n ∧
      Refines n ⟨s.mem.store item, Function.update s.pc i .insPost⟩ (q ++ [item]) := by
  obtain ⟨hlt, hc⟩ := h.counts.store hp
  have h₀ := h.front_nonneg
  have hr := h.rear_eq
  have hrear : int32 (s.mem.rear + 1) = s.mem.rear + 1 := int32_of_lt (by omega) hw
  refine ⟨hlt, by simpa using hc, h.n_eq, h₀, ?_, ?_, ?_⟩
  · show int32 (s.mem.rear + 1) = s.mem.front + ((q ++ [item]).length : ℕ)
    rw [hrear, List.length_append, List.length_singleton]
    push_cast
    omega
  · show int32 (s.mem.rear + 1) < 2 ^ 31
    omega
  · intro k hk
    show Function.update s.mem.buf s.mem.rearIndex item ((s.mem.front + 1 + k) % n) = _
    rw [rearIndex_eq h hw]
    rw [List.length_append, List.length_singleton] at hk
    -- the new cell is none of the used ones: they lie less than `n` places before it
    by_cases hkq : k < q.length
    · rw [Function.update_of_ne (emod_ne_of_sub_lt (by omega) (by omega)), h.cells k hkq,
        List.getElem_append_left hkq]
    · obtain rfl : k = q.length := by omega
      simp

theorem Refines.load (h : Refines n s q) (i : ι) (hp : s.pc i = .remLoad) :
    ∃ q', q = s.mem.load.1 :: q' ∧
      Refines n ⟨s.mem.load.2, Function.update s.pc i (.remPost s.mem.load.1)⟩ q' := by
  obtain ⟨hpos, hc⟩ := h.counts.load hp
  cases q with
  | nil => exact absurd hpos (Nat.lt_irrefl 0)
  | cons x q =>
    have hx : s.mem.load.1 = x := (frontIndex_eq h).2
    have h₀ := h.front_nonneg
    have hr := h.rear_eq
    have hl := h.rear_lt
    rw [List.length_cons] at hr
    have hfront : int32 (s.mem.front + 1) = s.mem.front + 1 := int32_of_lt (by omega) (by omega)
    refine ⟨q, by rw [hx], by simpa using hc, h.n_eq, ?_, ?_, hl, ?_⟩
    · show 0 ≤ int32 (s.mem.front + 1)
      omega
    · show s.mem.rear = int32 (s.mem.front + 1) + q.length
      rw [hfront, hr]
      push_cast
      omega
    · intro k hk
      show s.mem.buf ((int32 (s.mem.front + 1) + 1 + k) % n) = q[k]
      have hk' := h.cells (k + 1) (by rw [List.length_cons]; omega)
      rw [List.getElem_cons_succ] at hk'
      rw [hfront, ← hk']
      congr 2
      push_cast
      omega

/-- An insert's `++rear` stays in the range of `int`. -/
def noWrap (s : State ι) (a : ι × Ev) : Prop := a.2.item?.isSome → s.mem.rear + 1 < 2 ^ 31

theorem refines_step :
    Lts.Simulates (Lts.Guarded (Step (ι := ι)) noWrap) (Fifo.Step n) (fun a => a.2.op?)
      (Refines n) := by
  rintro s a s' q hR ⟨hs, hw⟩
  obtain ⟨hs⟩ := hs
  rename_i i e sp p
  cases e with
  | tau => exact Or.inl ⟨rfl, hR.tau i hs⟩
  | stored c item =>
    obtain ⟨hp, -, rfl, rfl⟩ := hs.stored_inv
    obtain ⟨hlt, hR'⟩ := hR.store i hp (hw rfl)
    exact Or.inr ⟨.push item, _, rfl, .push q item hlt, hR'⟩
  | loaded c r =>
    obtain ⟨hp, -, rfl, rfl, rfl⟩ := hs.loaded_inv
    obtain ⟨q', rfl, hR'⟩ := hR.load i hp
    exact Or.inr ⟨.pop _, q', rfl, .pop _ q', hR'⟩

/-! ## Runs -/

/-- A run with fewer than `2 ^ 31` inserts never wraps. -/
theorem path_noWrap {tr : List (ι × Ev)} (h : Lts.Path Step (init n) tr s)
    (hlt : (inserted tr).length < 2 ^ 31) : Lts.Path (Lts.Guarded Step noWrap) (init n) tr s := by
  induction h with
  | nil => exact Lts.Path.nil _
  | snoc hpath hs ih =>
    rename_i s₁ s₂ tr a
    rw [inserted, shown_snoc, List.length_append] at hlt
    refine Lts.Path.snoc (ih (by rw [inserted]; omega)) ⟨hs, fun ha => ?_⟩
    have hr := (path_counts hpath).1.rear
    obtain ⟨x, hx⟩ := Option.isSome_iff_exists.mp ha
    rw [hx, Option.toList_some, List.length_singleton] at hlt
    rw [hr, inserted, int32_of_lt (by omega) (by omega)]
    omega

omit [Fintype ι] [DecidableEq ι] in
theorem pushed_op (tr : List (ι × Ev)) : Fifo.pushed (tr.filterMap fun a => a.2.op?) = inserted tr := by
  rw [Fifo.pushed, List.filterMap_filterMap]
  refine List.filterMap_congr fun a _ => ?_
  cases h : a.2 <;> rfl

omit [Fintype ι] [DecidableEq ι] in
theorem popped_op (tr : List (ι × Ev)) : Fifo.popped (tr.filterMap fun a => a.2.op?) = removed tr := by
  rw [Fifo.popped, List.filterMap_filterMap]
  refine List.filterMap_congr fun a _ => ?_
  cases h : a.2 <;> rfl

/-- **The array statements of a run are a run of the FIFO queue**, which the ring then holds. -/
theorem path_fifo {tr : List (ι × Ev)} (h : Lts.Path Step (init n) tr s)
    (hlt : (inserted tr).length < 2 ^ 31) :
    ∃ q, Lts.Path (Fifo.Step n) [] (tr.filterMap fun a => a.2.op?) q ∧ Refines n s q :=
  refines_step.path (refines_init n) (path_noWrap h hlt)

omit [DecidableEq ι] in
theorem Counts.free {k : ℕ} (h : Counts n s k) (hn : 1 ≤ n) (hmid : ∀ i, (s.pc i).mid = false) :
    0 < s.mem.slots ∨ 0 < s.mem.items := by
  have hS : Threads.total Pc.slotsTaken s.pc = 0 :=
    Threads.total_eq_zero.mpr fun i => (Pc.taken_of_not_mid (hmid i)).1
  have hI : Threads.total Pc.itemsTaken s.pc = 0 :=
    Threads.total_eq_zero.mpr fun i => (Pc.taken_of_not_mid (hmid i)).2
  have h₁ := h.slots
  have h₂ := h.items
  omega

/-- **The message queue is a linearizable bounded FIFO queue**: its array statements are a run of
the FIFO queue of capacity `n`, what is removed is a prefix of what is inserted, at most `n` values
are stored, and never does an inserter wait for a slot and a remover for an item while no other
thread is in the middle of a call. -/
theorem sbuf_fifo (hn : 1 ≤ n) {tr : List (ι × Ev)} (h : Lts.Path Step (init n) tr s)
    (hlt : (inserted tr).length < 2 ^ 31) :
    (∃ q, Lts.Path (Fifo.Step n) [] (tr.filterMap fun a => a.2.op?) q) ∧
      removed tr <+: inserted tr ∧ (inserted tr).length ≤ (removed tr).length + n ∧
      ¬ ∃ i j item, (s.pc i = .insSlots item ∧ s.mem.slots = 0) ∧
        (s.pc j = .remItems ∧ s.mem.items = 0) ∧ ∀ k, k ≠ i → k ≠ j → (s.pc k).mid = false := by
  obtain ⟨q, hq, hR⟩ := path_fifo h hlt
  refine ⟨⟨q, hq⟩, ?_, ?_, ?_⟩
  · rw [← pushed_op, ← popped_op]
    exact Fifo.popped_prefix hq
  · have hc := congrArg List.length (Fifo.path_contents hq)
    rw [pushed_op, popped_op, List.length_append] at hc
    have hl := Fifo.path_length_le hq
    omega
  · rintro ⟨i, j, item, ⟨hi, hslots⟩, ⟨hj, hitems⟩, hmid⟩
    have hall : ∀ k, (s.pc k).mid = false := by
      intro k
      by_cases hki : k = i
      · rw [hki, hi]; rfl
      · by_cases hkj : k = j
        · rw [hkj, hj]; rfl
        · exact hmid k hki hkj
    have := hR.counts.free hn hall
    omega

/-- The queue of `SBUFSIZE` slots in a run of three inserts. -/
theorem sbuf_fifo_three :
    ∃ (tr : List (Fin 2 × Ev)) (s : State (Fin 2)),
      Lts.Path Step (init 64) tr s ∧ (inserted tr).length = 3 ∧ removed tr <+: inserted tr := by
  obtain ⟨tr, sp, h, hlen, -⟩ := exists_path (n := 64) (by decide) (0 : Fin 2) 1 3
  exact ⟨tr, _, h, hlen, (sbuf_fifo (by decide) h (by rw [hlen]; decide)).2.1⟩

end MiniProxy.Sbuf

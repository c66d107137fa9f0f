import MiniProxy.Sbuf.Model

/-!
# What the semaphores and the running indices count

Both facts hold in every run, before and after the indices wrap.

* `Counts n s k`: with `k` values stored, `slots` and `items` count the free and used cells up to
  the threads that stand between a `P` and a `V`; `Counts.sem`, `Counts.store`, `Counts.load`: the
  three kinds of steps;
* `Indexed n tr s`: `rear` and `front` are the numbers of inserts and removes, as `int`s, and the
  `k`-th insert and the `k`-th remove use the cell `cell n k`;
* **`path_counts`**: every run satisfies both, and has inserted at least as much as it removed;
* `exists_path`: there are runs with any number of inserts.
-/

namespace MiniProxy.Sbuf

open Threads (total total_update le_total)

/-- The thread holds `mutex`. -/
def Pc.inMutex : Pc → ℕ
  | .insStore _ | .insPost | .remLoad | .remPost _ => 1
  | _ => 0

/-- The thread has taken a slot that it has not filled, or freed a cell without returning the
slot. -/
def Pc.slotsTaken : Pc → ℕ
  | .insMutex _ | .insStore _ | .remPost _ | .remSlots _ => 1
  | _ => 0

/-- The thread has filled a cell without announcing the item, or taken an item that it has not
read. -/
def Pc.itemsTaken : Pc → ℕ
  | .insPost | .insItems | .remMutex | .remLoad => 1
  | _ => 0

theorem Pc.taken_of_not_mid {p : Pc} (h : p.mid = false) : p.slotsTaken = 0 ∧ p.itemsTaken = 0 := by
  cases p <;> simp_all [Pc.mid, Pc.slotsTaken, Pc.itemsTaken]

/-! ## What a step can do -/

section Steps

variable {sp sp' : Sbuf} {p p' : Pc}

theorem TStep.tau_ring (h : TStep sp p .tau sp' p') :
    sp'.n = sp.n ∧ sp'.rear = sp.rear ∧ sp'.front = sp.front ∧ sp'.buf = sp.buf := by
  cases h <;> exact ⟨rfl, rfl, rfl, rfl⟩

theorem TStep.stored_inv {c item : ℤ} (h : TStep sp p (.stored c item) sp' p') :
    p = .insStore item ∧ c = sp.rearIndex ∧ sp' = sp.store item ∧ p' = .insPost := by
  cases h
  exact ⟨rfl, rfl, rfl, rfl⟩

theorem TStep.loaded_inv {c r : ℤ} (h : TStep sp p (.loaded c r) sp' p') :
    p = .remLoad ∧ c = sp.frontIndex ∧ r = sp.load.1 ∧ sp' = sp.load.2 ∧ p' = .remPost r := by
  cases h
  exact ⟨rfl, rfl, rfl, rfl, rfl⟩

end Steps

/-! ## The semaphores -/

variable {ι : Type*} [Fintype ι] {n : ℕ}

/-- The semaphores, with `k` values stored. -/
structure Counts (n : ℕ) (s : State ι) (k : ℕ) : Prop where
  mutex : s.mem.mutex + total Pc.inMutex s.pc = 1
  slots : s.mem.slots + k + total Pc.slotsTaken s.pc = n
  items : s.mem.items + total Pc.itemsTaken s.pc = k

theorem counts_init (n : ℕ) : Counts n (init n : State ι) 0 where
  mutex := by simp [init, sbufSetup, Threads.total_const Pc.inMutex .idle rfl]
  slots := by simp [init, sbufSetup, Threads.total_const Pc.slotsTaken .idle rfl]
  items := by simp [init, sbufSetup, Threads.total_const Pc.itemsTaken .idle rfl]

variable [DecidableEq ι] {s : State ι} {k : ℕ} {i : ι}

theorem Counts.sem (h : Counts n s k) (i : ι) {sp : Sbuf} {p : Pc}
    (hm : sp.mutex + p.inMutex = s.mem.mutex + (s.pc i).inMutex)
    (hs : sp.slots + p.slotsTaken = s.mem.slots + (s.pc i).slotsTaken)
    (hi : sp.items + p.itemsTaken = s.mem.items + (s.pc i).itemsTaken) :
    Counts n ⟨sp, Function.update s.pc i p⟩ k := by
  obtain ⟨hM, hS, hI⟩ := h
  have uM := total_update Pc.inMutex s.pc i p
  have uS := total_update Pc.slotsTaken s.pc i p
  have uI := total_update Pc.itemsTaken s.pc i p
  constructor <;> simp only <;> omega

theorem Counts.store (h : Counts n s k) {item : ℤ} (hp : s.pc i = .insStore item) :
    k < n ∧ Counts n ⟨s.mem.store item, Function.update s.pc i .insPost⟩ (k + 1) := by
  obtain ⟨hM, hS, hI⟩ := h
  have uM := total_update Pc.inMutex s.pc i .insPost
  have uS := total_update Pc.slotsTaken s.pc i .insPost
  have uI := total_update Pc.itemsTaken s.pc i .insPost
  have lS := le_total Pc.slotsTaken s.pc i
  simp only [hp, Pc.inMutex, Pc.slotsTaken, Pc.itemsTaken] at uM uS uI lS
  refine ⟨by omega, ?_, ?_, ?_⟩ <;> simp only [Sbuf.store] <;> omega

theorem Counts.load (h : Counts n s k) (hp : s.pc i = .remLoad) :
    0 < k ∧ Counts n ⟨s.mem.load.2, Function.update s.pc i (.remPost s.mem.load.1)⟩ (k - 1) := by
  obtain ⟨hM, hS, hI⟩ := h
  have uM := total_update Pc.inMutex s.pc i (.remPost s.mem.load.1)
  have uS := total_update Pc.slotsTaken s.pc i (.remPost s.mem.load.1)
  have uI := total_update Pc.itemsTaken s.pc i (.remPost s.mem.load.1)
  have lI := le_total Pc.itemsTaken s.pc i
  simp only [hp, Pc.inMutex, Pc.slotsTaken, Pc.itemsTaken] at uM uS uI lI
  refine ⟨by omega, ?_, ?_, ?_⟩ <;> simp only [Sbuf.load] at * <;> omega

theorem Counts.tau (h : Counts n s k) {sp : Sbuf} {p : Pc} (hs : TStep s.mem (s.pc i) .tau sp p) :
    Counts n ⟨sp, Function.update s.pc i p⟩ k := by
  generalize hp : s.pc i = p₀ at hs
  cases hs with
  | insert item | insSlots item hpos | insMutex item hpos | insPost | insItems | remove
  | remItems hpos | remMutex hpos | remPost r | remSlots r =>
    refine h.sem i ?_ ?_ ?_ <;> rw [hp] <;>
      simp only [Pc.inMutex, Pc.slotsTaken, Pc.itemsTaken] <;> omega

/-! ## The running indices -/

/-- The cell used by the `k`-th insert and by the `k`-th remove. -/
def cell (n k : ℕ) : ℤ := (int32 k).tmod n

theorem int32_succ (k : ℕ) : int32 (int32 k + 1) = int32 (k + 1 : ℕ) := by
  simp [int32, Int.bmod_add_bmod]

/-- The indices count the array statements, as `int`s. -/
structure Indexed (n : ℕ) (tr : List (ι × Ev)) (s : State ι) : Prop where
  n_eq : s.mem.n = n
  rear : s.mem.rear = int32 (inserted tr).length
  front : s.mem.front = int32 (removed tr).length
  storedAt : shown Ev.storedAt? tr = (List.range (inserted tr).length).map fun k => cell n (k + 1)
  loadedAt : shown Ev.loadedAt? tr = (List.range (removed tr).length).map fun k => cell n (k + 1)

omit [Fintype ι] [DecidableEq ι] in
theorem shown_snoc {β : Type*} (f : Ev → Option β) (tr : List (ι × Ev)) (a : ι × Ev) :
    shown f (tr ++ [a]) = shown f tr ++ (f a.2).toList := by
  rw [shown, List.filterMap_append]
  cases h : f a.2 <;> simp [shown, h]

omit [Fintype ι] [DecidableEq ι] in
theorem indexed_init (n : ℕ) : Indexed n [] (init n : State ι) where
  n_eq := rfl
  rear := by simp [init, sbufSetup, inserted, shown, int32]
  front := by simp [init, sbufSetup, removed, shown, int32]
  storedAt := rfl
  loadedAt := rfl

omit [Fintype ι] in
theorem indexed_step {tr : List (ι × Ev)} {a : ι × Ev} {s' : State ι} (h : Indexed n tr s)
    (hs : Step s a s') : Indexed n (tr ++ [a]) s' := by
  obtain ⟨h₁, h₂, h₃, h₄, h₅⟩ := h
  obtain ⟨hs⟩ := hs
  rename_i i e sp p
  cases e with
  | tau =>
    obtain ⟨e₁, e₂, e₃, -⟩ := hs.tau_ring
    refine ⟨e₁.trans h₁, ?_, ?_, ?_, ?_⟩ <;>
      simpa only [inserted, removed, shown_snoc, Ev.item?, Ev.removed?, Ev.storedAt?, Ev.loadedAt?,
        Option.toList, List.append_nil, e₂, e₃]
  | stored c item =>
    obtain ⟨-, rfl, rfl, rfl⟩ := hs.stored_inv
    refine ⟨h₁, ?_, ?_, ?_, ?_⟩ <;>
      simp only [inserted, removed, shown_snoc, Ev.item?, Ev.removed?, Ev.storedAt?, Ev.loadedAt?,
        Option.toList, List.append_nil, List.length_append, List.length_singleton]
    · rw [Sbuf.store, h₂, int32_succ]
    · exact h₃
    · rw [List.range_succ, List.map_append, h₄, rearIndex, h₁, h₂, int32_succ]
      rfl
    · exact h₅
  | loaded c r =>
    obtain ⟨-, rfl, rfl, rfl, rfl⟩ := hs.loaded_inv
    refine ⟨h₁, ?_, ?_, ?_, ?_⟩ <;>
      simp only [inserted, removed, shown_snoc, Ev.item?, Ev.removed?, Ev.storedAt?, Ev.loadedAt?,
        Option.toList, List.append_nil, List.length_append, List.length_singleton]
    · exact h₂
    · rw [Sbuf.load, h₃, int32_succ]
    · exact h₄
    · rw [List.range_succ, List.map_append, h₅, frontIndex, h₁, h₃, int32_succ]
      rfl

/-- **The invariant of every run**, before and after the indices wrap. -/
theorem path_counts {tr : List (ι × Ev)} {s : State ι} (h : Lts.Path Step (init n) tr s) :
    Indexed n tr s ∧ ∃ k, (inserted tr).length = (removed tr).length + k ∧ Counts n s k := by
  refine Lts.Path.invariant
    (fun tr s => Indexed n tr s ∧ ∃ k, (inserted tr).length = (removed tr).length + k ∧ Counts n s k)
    ⟨indexed_init n, 0, rfl, counts_init n⟩ ?_ h
  rintro tr s a s' ⟨hidx, k, hk, hc⟩ hs
  refine ⟨indexed_step hidx hs, ?_⟩
  obtain ⟨hs⟩ := hs
  rename_i i e sp p
  cases e with
  | tau =>
    refine ⟨k, ?_, hc.tau hs⟩
    simpa [inserted, removed, shown_snoc, Ev.item?, Ev.removed?] using hk
  | stored c item =>
    obtain ⟨hp, rfl, rfl, rfl⟩ := hs.stored_inv
    refine ⟨k + 1, ?_, (hc.store hp).2⟩
    simp only [inserted, removed, shown_snoc, Ev.item?, Ev.removed?, Option.toList,
      List.length_append, List.length_singleton, List.length_nil] at hk ⊢
    omega
  | loaded c r =>
    obtain ⟨hp, rfl, rfl, rfl, rfl⟩ := hs.loaded_inv
    have hpos := (hc.load hp).1
    refine ⟨k - 1, ?_, (hc.load hp).2⟩
    simp only [inserted, removed, shown_snoc, Ev.item?, Ev.removed?, Option.toList,
      List.length_append, List.length_singleton, List.length_nil] at hk ⊢
    omega

/-! ## Calls that meet no other thread -/

theorem solo_insert (sp : Sbuf) (item : ℤ) (hs : 0 < sp.slots) (hm : 0 < sp.mutex) :
    Lts.Path (Threads.Solo TStep) (sp, .idle)
      ([.tau, .tau, .tau] ++ [.stored sp.rearIndex item] ++ [.tau, .tau])
      ({ sp.store item with
          mutex := sp.mutex - 1 + 1, slots := sp.slots - 1, items := sp.items + 1 }, .idle) := by
  have h₁ : Lts.Path (Threads.Solo TStep) (sp, .idle) [.tau, .tau, .tau]
      ({ sp with mutex := sp.mutex - 1, slots := sp.slots - 1 }, .insStore item) :=
    (((Lts.Path.nil _).snoc (.mk (.insert sp item))).snoc (.mk (.insSlots sp item hs))).snoc
      (.mk (.insMutex { sp with slots := sp.slots - 1 } item hm))
  exact ((h₁.snoc (.mk (.insStore _ item))).snoc (.mk (.insPost _))).snoc (.mk (.insItems _))

theorem solo_remove (sp : Sbuf) (hi : 0 < sp.items) (hm : 0 < sp.mutex) :
    Lts.Path (Threads.Solo TStep) (sp, .idle)
      ([.tau, .tau, .tau] ++ [.loaded sp.frontIndex sp.load.1] ++ [.tau, .tau])
      ({ sp.load.2 with
          mutex := sp.mutex - 1 + 1, slots := sp.slots + 1, items := sp.items - 1 }, .idle) := by
  have h₁ : Lts.Path (Threads.Solo TStep) (sp, .idle) [.tau, .tau, .tau]
      ({ sp with mutex := sp.mutex - 1, items := sp.items - 1 }, .remLoad) :=
    (((Lts.Path.nil _).snoc (.mk (.remove sp))).snoc (.mk (.remItems sp hi))).snoc
      (.mk (.remMutex { sp with items := sp.items - 1 } hm))
  exact ((h₁.snoc (.mk (.remLoad _))).snoc (.mk (.remPost _ _))).snoc (.mk (.remSlots _ _))

omit [Fintype ι] in
theorem exists_path (hn : 1 ≤ n) (i j : ι) (m : ℕ) :
    ∃ tr sp, Lts.Path Step (init n : State ι) tr ⟨sp, fun _ => .idle⟩ ∧
      (inserted tr).length = m ∧ sp.mutex = 1 ∧ sp.slots = n ∧ sp.items = 0 := by
  induction m with
  | zero => exact ⟨[], sbufSetup n, Lts.Path.nil _, rfl, rfl, rfl, rfl⟩
  | succ m ih =>
    obtain ⟨tr, sp, hpath, hlen, hm, hs, hi⟩ := ih
    have h₁ := Threads.path_solo (solo_insert sp 0 (by omega) (by omega)) (fun _ : ι => .idle) i rfl
    have h₂ := Threads.path_solo (solo_remove { sp.store 0 with
      mutex := sp.mutex - 1 + 1, slots := sp.slots - 1, items := sp.items + 1 }
      (Nat.succ_pos _) (Nat.succ_pos _)) (fun _ : ι => .idle) j rfl
    rw [Function.update_eq_self] at h₁ h₂
    refine ⟨_, _, (hpath.append h₁).append h₂, ?_, ?_, ?_, ?_⟩
    · simp [inserted, shown, List.filterMap_append, Ev.item?] at hlen ⊢
      exact hlen
    all_goals simp only
    all_goals omega

end MiniProxy.Sbuf

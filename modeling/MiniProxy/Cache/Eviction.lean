import MiniProxy.Cache.Integrity

/-!
# Concurrent eviction

`add_cache` tests `cache_load` without the lock, so several threads may act on one observation that the
cache is too big. Each of them then takes out one node, and what `NTHREADS` threads take out is less
than `MAX_CACHE_SIZE`.

* `nthreads`, `AddStep`: threads that only call `add_cache`, for objects of at most `MAX_OBJECT_SIZE - 1`
  bytes;
* `Pc.evicts`, `Pc.watches`: at the write section of `dequeue`, and bound to test `cache_load` again;
* `Evicting`: the invariant; `Evicting.move`, `evicting_step`;
* **`eviction_safe`**: `dequeue` never finds the queue empty, `cache_load` is the sum of the payloads'
  lengths and does not wrap, and with no call in progress it is at most `MAX_CACHE_SIZE`;
* `Filled`, `path_evictions`: two threads that evict on one observation.
-/

namespace MiniProxy.Cache

open Clib DList
open Threads (total total_update le_total total_le_card)

/-- `NTHREADS`. -/
def nthreads : ℕ := 8

/-- The steps of a thread that only calls `add_cache`. The payload of the node it makes is a string
shorter than `MAX_OBJECT_SIZE`. -/
def AddStep (c : Cache) (a : Pc) (e : Ev) (c' : Cache) (a' : Pc) : Prop :=
  TStep c a e c' a' ∧ (∀ key, a' ≠ .find key) ∧
    ∀ p, a' = .link p → 0 ∈ (c'.entry p).payload ∧ c'.size p < maxObjectSize

/-- A place of `add_cache`. -/
def Pc.adding : Pc → Bool
  | .find _ | .promote _ _ | .promoteCheck _ _ | .copyOut _ _ => false
  | _ => true

/-- About to take a node out. -/
def Pc.evicts : Pc → ℕ
  | .unlink => 1
  | _ => 0

/-- Bound to test `cache_load` before the call ends. -/
def Pc.watches : Pc → Bool
  | .linkCheck | .testIf | .testWhile | .unlink | .unlinkCheck _ | .release _ => true
  | _ => false

theorem Pc.evicts_le (a : Pc) : a.evicts ≤ 1 := by
  cases a <;> simp [Pc.evicts]

variable {ι : Type*} [Fintype ι]

/-- The number of threads about to take a node out. -/
abbrev pending (pc : ι → Pc) : ℕ := total Pc.evicts pc

/-- The invariant. The threads about to take a node out saw a cache that was too big, and each thread
that did so since has made it smaller by one object at most. -/
structure Evicting (c : Cache) (pc : ι → Pc) : Prop where
  adds : ∀ i, (pc i).adding = true
  small : ∀ p, c.live p = true → c.size p < maxObjectSize
  null : ∀ i, pc i ≠ .release 0
  pending : 0 < pending pc →
    maxCacheSize < c.cacheLoad + (nthreads - pending pc) * (maxObjectSize - 1)
  watched : maxCacheSize < c.cacheLoad → ∃ i, (pc i).watches = true

omit [Fintype ι] in
theorem small_init {c : Cache} (h : IsInit c) (p : Ptr) (hp : c.live p = true) :
    c.size p < maxObjectSize := by
  obtain ⟨links, entry, front, endp, -, -, hne⟩ := h
  have hpayload : ((cacheInit links entry front endp).entry p).payload = [] := by
    rcases of_decide_eq_true hp with rfl | rfl
    · simp [cacheInit, hne]
    · simp [cacheInit]
  rw [size, hpayload]
  decide

theorem evicting_init {c : Cache} (h : IsInit c) : Evicting c (fun _ : ι => .idle) where
  adds _ := rfl
  small := small_init h
  null := nofun
  pending hpos := by simp [total, Pc.evicts] at hpos
  watched hload := by
    rw [h.repr.load] at hload
    simp at hload

variable [DecidableEq ι] {c : Cache} {pc : ι → Pc} {L : List Ptr}

theorem Evicting.move (h : Evicting c pc) (hcard : Fintype.card ι ≤ nthreads) (i : ι) {m : Cache}
    {a : Pc} (hadds : a.adding = true) (hnull : a ≠ .release 0)
    (hsmall : ∀ p, m.live p = true → m.size p < maxObjectSize)
    (hstart : a.evicts = 1 → maxCacheSize < m.cacheLoad)
    (hload : c.cacheLoad ≤ m.cacheLoad + (pc i).evicts * (maxObjectSize - 1))
    (hwatch : maxCacheSize < m.cacheLoad →
      a.watches = true ∨ (maxCacheSize < c.cacheLoad ∧ (pc i).watches = false)) :
    Evicting m (Function.update pc i a) where
  adds j := by
    by_cases hj : j = i
    · subst hj
      simpa using hadds
    · simpa [hj] using h.adds j
  small := hsmall
  null j := by
    by_cases hj : j = i
    · subst hj
      simpa using hnull
    · simpa [hj] using h.null j
  pending hpos := by
    have hsum := total_update Pc.evicts pc i a
    have hi := le_total Pc.evicts pc i
    have hle := total_le_card Pc.evicts_le pc
    have ha := a.evicts_le
    have hp := (pc i).evicts_le
    by_cases ha1 : a.evicts = 1
    · have := hstart ha1
      omega
    · have hpend := h.pending
      simp only [Cache.pending, nthreads, maxObjectSize] at hpend hcard hload hpos ⊢
      omega
  watched hover := by
    rcases hwatch hover with ha | ⟨hc, hi⟩
    · exact ⟨i, by simpa using ha⟩
    · obtain ⟨j, hj⟩ := h.watched hc
      have hji : j ≠ i := by
        rintro rfl
        rw [hi] at hj
        cases hj
      exact ⟨j, by simpa [hji] using hj⟩

theorem Evicting.stay (h : Evicting c pc) (hcard : Fintype.card ι ≤ nthreads) (i : ι) {a : Pc}
    (hadds : a.adding = true) (hnull : a ≠ .release 0)
    (hstart : a.evicts = 1 → maxCacheSize < c.cacheLoad)
    (hwatch : maxCacheSize < c.cacheLoad → a.watches = true ∨ (pc i).watches = false) :
    Evicting c (Function.update pc i a) :=
  h.move hcard i hadds hnull h.small hstart (Nat.le_add_right _ _)
    fun hover => (hwatch hover).imp_right fun hi => ⟨hover, hi⟩

omit [DecidableEq ι] in
theorem Evicting.small_of_same (h : Evicting c pc) {m : Cache} (hS : SameNodes c m) (q : Ptr)
    (hq : m.live q = true) : m.size q < maxObjectSize := by
  rw [hS.live] at hq
  rw [hS.size]
  exact h.small q hq

omit [DecidableEq ι] in
theorem Evicting.nonempty (h : Evicting c pc) (hR : c.Repr L) {i : ι} (hi : pc i = .unlink) :
    L ≠ [] := by
  rintro rfl
  have hpos := le_total Pc.evicts pc i
  rw [hi] at hpos
  have hpend := h.pending hpos
  have hload : c.cacheLoad = 0 := by simpa using hR.load
  simp only [Cache.pending, nthreads, maxObjectSize, maxCacheSize, Pc.evicts] at hpend hpos
  omega

/-- **Every step keeps the invariant.** -/
theorem evicting_step (hcard : Fintype.card ι ≤ nthreads) {s s' : State ι} {b : ι × Ev}
    (hI : Inv s.mem s.pc L) (h : Evicting s.mem s.pc) (hs : Threads.Step AddStep s b s') :
    (∃ L', Inv s'.mem s'.pc L') ∧ Evicting s'.mem s'.pc := by
  have hR := hI.repr
  have hkeep : KeepsFound s b := by
    intro del _ j key hj
    have := h.adds j
    rw [hj] at this
    cases this
  obtain ⟨⟨hs, hfind, hlink⟩⟩ := hs
  rename_i i e m a
  refine ⟨inv_step hI (Threads.Step.mk hs) hkeep, ?_⟩
  simp only
  have hadd := h.adds i
  have hnull := h.null i
  generalize hp : s.pc i = a₀ at hs hadd hnull
  cases hs with
  | callIsCached key => exact absurd rfl (hfind key)
  | miss | hit | promote | promoteCheck | copyOut => cases hadd
  | callAddCache =>
    exact h.stay hcard i rfl (by simp) (by simp [Pc.evicts]) fun _ => .inr (by rw [hp]; rfl)
  | linkCheck => exact h.stay hcard i rfl (by simp) (by simp [Pc.evicts]) fun _ => .inl rfl
  | ifOver => exact h.stay hcard i rfl (by simp) (by simp [Pc.evicts]) fun _ => .inl rfl
  | whileOver hover => exact h.stay hcard i rfl (by simp) (fun _ => hover) fun _ => .inl rfl
  | ifFits hfits =>
    exact h.stay hcard i rfl (by simp) (by simp [Pc.evicts]) fun hover => absurd hover hfits
  | whileFits hfits =>
    exact h.stay hcard i rfl (by simp) (by simp [Pc.evicts]) fun hover => absurd hover hfits
  | alloc _ key payload bytesize p junk hp0 hfree hnew =>
    obtain ⟨hR', -, -, -, hlive, hentry⟩ := hR.newNode hfree hnew
    have hload : m.cacheLoad = s.mem.cacheLoad := by
      obtain ⟨-, -, rfl⟩ := newNode_eq_ok.mp hnew
      rfl
    refine h.move hcard i rfl (by simp) ?_ (by simp [Pc.evicts]) (by omega) fun hover =>
      .inr ⟨by omega, by rw [hp]; rfl⟩
    intro q hq
    by_cases hqp : q = p
    · rw [hqp]
      exact (hlink p rfl).2
    · rw [size, hentry, Function.update_of_ne hqp]
      rw [hlive, Function.update_of_ne hqp] at hq
      exact h.small q hq
  | link _ p hsec =>
    have hS := sameNodes_enqueueSec hsec
    have hown := hI.owned i p (by rw [hp]; rfl)
    have hload : s.mem.cacheLoad ≤ m.cacheLoad := by
      rw [(hR.enqueueSec hown.1 hown.2 hsec).1.load, hR.load, hS.size, List.map_append,
        List.sum_append]
      exact Nat.le_add_right _ _
    exact h.move hcard i rfl (by simp) (h.small_of_same hS) (by simp [Pc.evicts]) (by omega)
      fun _ => .inl rfl
  | unlink _ del hdeq hdel =>
    obtain ⟨ps, rfl, hR', hS⟩ := hR.dequeueSec_some hdeq hdel
    have hsize := h.small del (hR.alloc_mem List.mem_cons_self).2
    have hload : s.mem.cacheLoad = m.size del + m.cacheLoad := by
      rw [hR.load, hR'.load, hS.size, List.map_cons, List.sum_cons]
    refine h.move hcard i rfl (by simp) (h.small_of_same hS) (by simp [Pc.evicts]) ?_
      fun _ => .inl rfl
    rw [hp, hload, hS.size]
    simp only [Pc.evicts, one_mul]
    omega
  | unlinkEmpty _ hdeq =>
    exact absurd (hR.dequeueSec_null hdeq).1 (h.nonempty hR hp)
  | unlinkCheck del =>
    refine h.stay hcard i rfl ?_ (by simp [Pc.evicts]) fun _ => .inl rfl
    rintro ⟨rfl⟩
    exact (hI.owned i 0 (by rw [hp]; rfl)).1.1 rfl
  | release _ del hfree =>
    obtain ⟨_, -, hs⟩ := bind_ok_iff.mp hfree
    cases hs
    refine h.move hcard i rfl (by simp) ?_ (by simp [Pc.evicts]) (Nat.le_add_right _ _) fun _ => .inl rfl
    intro q hq
    by_cases hqd : q = del
    · simp [hqd] at hq
    · exact h.small q (by simpa [hqd] using hq)

/-- Both invariants hold in every reachable state. -/
theorem path_evicting {c₀ : Cache} (h₀ : IsInit c₀) (hcard : Fintype.card ι ≤ nthreads)
    {tr : List (ι × Ev)} {s : State ι} (h : Lts.Path (Threads.Step AddStep) (init c₀) tr s) :
    (∃ L, Inv s.mem s.pc L) ∧ Evicting s.mem s.pc :=
  Lts.Path.invariant_state (fun s => (∃ L, Inv s.mem s.pc L) ∧ Evicting s.mem s.pc)
    ⟨⟨[], inv_init h₀⟩, evicting_init h₀⟩
    (fun _ _ _ ⟨⟨_, hI⟩, hE⟩ hs => evicting_step hcard hI hE hs) h

/-- **Concurrent eviction is safe** for at most `NTHREADS` threads: `cache_load` is the sum of the
payloads' lengths; a thread about to take a node out finds one, whose length is at most `cache_load`;
`free_node` is not given `NULL`; and with no call in progress `cache_load` is at most
`MAX_CACHE_SIZE`. -/
theorem eviction_safe {c₀ : Cache} (h₀ : IsInit c₀) (hcard : Fintype.card ι ≤ nthreads)
    {tr : List (ι × Ev)} {s : State ι} (h : Lts.Path (Threads.Step AddStep) (init c₀) tr s) :
    (∃ L, s.mem.Repr L ∧ s.mem.cacheLoad = (L.map fun p => (cstr (s.mem.entry p).payload).length).sum) ∧
      (∀ i, s.pc i = .unlink → ∃ del c', s.mem.dequeueSec = .ok (del, c') ∧ del ≠ 0 ∧
        c'.cacheLoad + s.mem.size del = s.mem.cacheLoad) ∧
      (∀ i, s.pc i ≠ .release 0) ∧
      ((∀ i, s.pc i = .idle) → s.mem.cacheLoad ≤ maxCacheSize) := by
  obtain ⟨⟨L, hI⟩, hE⟩ := path_evicting h₀ hcard h
  have hR := hI.repr
  refine ⟨⟨L, hR, hR.load⟩, ?_, hE.null, ?_⟩
  · intro i hi
    obtain ⟨d, ps, rfl⟩ := List.exists_cons_of_ne_nil (hE.nonempty hR hi)
    obtain ⟨c', hdeq, hR', hS⟩ := hR.dequeueSec_cons rfl
    refine ⟨d, c', hdeq, (hR.alloc_mem List.mem_cons_self).1, ?_⟩
    rw [hR.load, hR'.load, hS.size, List.map_cons, List.sum_cons, Nat.add_comm]
  · intro hidle
    by_contra hover
    obtain ⟨i, hi⟩ := hE.watched (Nat.lt_of_not_le hover)
    rw [hidle i] at hi
    cases hi

/-! ## Two evictions on one observation -/

theorem addStep_of_adding {s : List UInt8} (hs : s.length < maxObjectSize) {x y : Cache × Pc}
    {es : List Ev} (h : Lts.Path (Threads.Solo (Adding s)) x es y) :
    Lts.Path (Threads.Solo AddStep) x es y :=
  Threads.path_mono (fun _ _ _ _ _ ⟨hstep, hfind, hlink⟩ => ⟨hstep, hfind, fun p hp =>
    ⟨(hlink p hp).1, (hlink p hp).2.trans_lt hs⟩⟩) h

/-- The queue `L` of `c` holds `k` objects of `n` bytes each; the addresses from `m` on are free. -/
structure Filled (n k m : ℕ) (c : Cache) (L : List Ptr) : Prop where
  repr : c.Repr L
  count : L.length = k
  size : ∀ p ∈ L, c.size p = n
  free : ∀ p, m ≤ p → c.live p = false

variable {n k m : ℕ}

theorem filled_emptyCache : Filled n 0 3 emptyCache [] where
  repr := isInit_emptyCache.repr
  count := rfl
  size p hp := absurd hp List.not_mem_nil
  free p hp := by
    have h1 : p ≠ 1 := by omega
    have h2 : p ≠ 2 := by omega
    simp [emptyCache, cacheInit, h1, h2]

theorem Filled.load (h : Filled n k m c L) : c.cacheLoad = k * n := by
  rw [h.repr.load, List.map_congr_left h.size, List.map_const', List.sum_replicate_nat, h.count]

theorem Filled.added (h : Filled n k m c L) {key : Key} {s : List UInt8} (hs : 0 ∉ s)
    (hn : s.length = n) {c' : Cache} (hA : Added c L m key s c') :
    Filled n (k + 1) (m + 1) c' (L ++ [m]) := by
  have hout := h.repr.not_mem (h.free m le_rfl)
  refine ⟨hA.repr, by simp [h.count], fun p hp => ?_, fun p hp => ?_⟩
  · rcases List.mem_append.mp hp with hp | hp
    · have hne : p ≠ m := fun e => hout (e ▸ hp)
      rw [Cache.size, hA.entry, Function.update_of_ne hne]
      exact h.size p hp
    · obtain rfl := List.mem_singleton.mp hp
      have hentry := congrFun hA.entry p
      rw [Function.update_self] at hentry
      rw [size_of_entry hentry hs, hn]
  · have hne : p ≠ m := by omega
    rw [hA.live, Function.update_of_ne hne]
    exact h.free p (by omega)

/-- What an eviction does to such a cache: `dequeue` takes out the first node, and `free_node` frees it. -/
theorem Filled.exists_evict (h : Filled n (k + 1) m c L) :
    ∃ d ps c₁ c', L = d :: ps ∧ d ≠ 0 ∧ c.dequeueSec = .ok (d, c₁) ∧ c₁.Repr ps ∧
      c₁.freeNode d = .ok c' ∧ Filled n k m c' ps := by
  obtain ⟨d, ps, rfl⟩ := List.exists_cons_of_length_eq_add_one h.count
  have hd := h.repr.alloc_mem List.mem_cons_self
  obtain ⟨c₁, hdeq, hR, hS⟩ := h.repr.dequeueSec_cons rfl
  have hout : d ∉ c₁.front :: ps ++ [c₁.endp] := by
    rw [hS.front, hS.endp]
    have hnd := h.repr.list.nodup
    simp only [List.cons_append, List.nodup_cons, List.mem_cons, List.mem_append] at hnd ⊢
    tauto
  have hfree : c₁.freeNode d = .ok { c₁ with live := Function.update c₁.live d false } := by
    rw [freeNode, deref_of ((hS.alloc d).mpr hd)]
    rfl
  refine ⟨d, ps, c₁, _, rfl, hd.1, hdeq, hR, hfree, (hR.freeNode hout hfree).1,
    Nat.succ.inj h.count, fun p hp => ?_, fun p hp => ?_⟩
  · exact (congrFun hS.size p).trans (h.size p (List.mem_cons_of_mem _ hp))
  · by_cases hpd : p = d
    · exact hpd ▸ Function.update_self _ _ _
    · exact (Function.update_of_ne hpd _ _).trans ((congrFun hS.live p).trans (h.free p hp))

theorem Filled.add (h : Filled n k m c L) (hm : m ≠ 0) (hn : n < maxObjectSize) :
    ∃ c', Lts.Path (Threads.Solo AddStep) (c, .idle) [.tau, .tau, .tau, .tau] (c', .testIf) ∧
      Filled n (k + 1) (m + 1) c' (L ++ [m]) := by
  obtain ⟨c', hpath, hA⟩ := solo_add h.repr hm (h.free m le_rfl) ⟨[104], [56, 48], [47]⟩
    (not_mem_replicate n)
  exact ⟨c', addStep_of_adding (by rwa [List.length_replicate]) hpath,
    h.added (not_mem_replicate n) List.length_replicate hA⟩

theorem exists_filled (hn : n < maxObjectSize) (k : ℕ) (hk : k * n ≤ maxCacheSize) :
    ∃ (es : List Ev) (c : Cache) (L : List Ptr),
      Lts.Path (Threads.Solo AddStep) (emptyCache, .idle) es (c, .idle) ∧ Filled n k (k + 3) c L := by
  induction k with
  | zero => exact ⟨[], _, _, .nil _, filled_emptyCache⟩
  | succ k ih =>
    obtain ⟨es, c, L, hpath, h⟩ := ih (le_trans (Nat.mul_le_mul_right n (Nat.le_succ k)) hk)
    obtain ⟨c', hadd, h'⟩ := h.add (Nat.succ_ne_zero _) hn
    have hfits : AddStep c' .testIf .tau c' .idle :=
      ⟨.ifFits c' (by rw [h'.load]; omega), by rintro _ ⟨⟩, by rintro _ ⟨⟩⟩
    rw [Nat.add_right_comm] at h'
    exact ⟨_, c', _, (hpath.append hadd).snoc (.mk hfits), h'⟩

theorem Filled.over (h : Filled n k m c L) (hover : k * n > maxCacheSize) :
    Lts.Path (Threads.Solo AddStep) (c, .testIf) [.tau, .tau] (c, .unlink) := by
  rw [← h.load] at hover
  have hif : AddStep c .testIf .tau c .testWhile := ⟨.ifOver c hover, by rintro _ ⟨⟩, by rintro _ ⟨⟩⟩
  have hwhile : AddStep c .testWhile .tau c .unlink :=
    ⟨.whileOver c hover, by rintro _ ⟨⟩, by rintro _ ⟨⟩⟩
  exact (Lts.Path.single (.mk hif)).snoc (.mk hwhile)

theorem Filled.evict (h : Filled n (k + 1) m c L) :
    ∃ c' d L', Lts.Path (Threads.Solo AddStep) (c, .unlink) [.dequeue d, .tau, .free d]
      (c', .testWhile) ∧ Filled n k m c' L' := by
  obtain ⟨d, ps, c₁, c', -, hd, hdeq, hR, hfree, h'⟩ := h.exists_evict
  have hunlink : AddStep c .unlink (.dequeue d) c₁ (.unlinkCheck d) :=
    ⟨.unlink c c₁ d hdeq hd, by rintro _ ⟨⟩, by rintro _ ⟨⟩⟩
  have hcheck : AddStep c₁ (.unlinkCheck d) .tau c₁ (.release d) :=
    ⟨.unlinkCheck c₁ d _ (hR.cacheCheck_eq (Nat.lt_succ_self _)), by rintro _ ⟨⟩, by rintro _ ⟨⟩⟩
  have hrelease : AddStep c₁ (.release d) (.free d) c' .testWhile :=
    ⟨.release _ _ d hfree, by rintro _ ⟨⟩, by rintro _ ⟨⟩⟩
  exact ⟨c', d, ps, ((Lts.Path.single (.mk hunlink)).snoc (.mk hcheck)).snoc (.mk hrelease), h'⟩

theorem Filled.fits (h : Filled n k m c L) (hfits : k * n ≤ maxCacheSize) :
    Lts.Path (Threads.Solo AddStep) (c, .testWhile) [.tau] (c, .idle) := by
  rw [← h.load] at hfits
  exact .single (.mk ⟨.whileFits c (Nat.not_lt.mpr hfits), by rintro _ ⟨⟩, by rintro _ ⟨⟩⟩)

omit [Fintype ι] in
/-- Two threads add an object each to a cache that is full, both see it over its limit, and both take a
node out. -/
theorem path_evictions {i j : ι} (hij : j ≠ i) :
    ∃ (tr : List (ι × Ev)) (s : State ι) (d d' : Ptr),
      Lts.Path (Threads.Step AddStep) (init emptyCache) tr s ∧
        (i, .dequeue d) ∈ tr ∧ (j, .dequeue d') ∈ tr ∧ ∀ k, s.pc k = .idle := by
  have hn : 102399 < maxObjectSize := by decide
  obtain ⟨es, c₀, L, hfill, h₀⟩ := exists_filled hn 10 (by decide)
  obtain ⟨c₁, hadd₁, h₁⟩ := h₀.add (by decide) hn
  obtain ⟨c₂, hadd₂, h₂⟩ := h₁.add (by decide) hn
  obtain ⟨c₃, d, L₃, hevict₃, h₃⟩ := h₂.evict
  obtain ⟨c₄, d', L₄, hevict₄, h₄⟩ := h₃.evict
  -- twelve objects are two more than fit
  have hi := (hfill.append hadd₁).append (h₁.over (by decide))
  have hj := hadd₂.append (h₂.over (by decide))
  have hrun := ((((Threads.path_solo hi (fun _ => .idle) i rfl).append
    (Threads.path_solo hj _ j (by simp [hij]))).append
    (Threads.path_solo hevict₃ _ i (by simp [hij.symm]))).append
    (Threads.path_solo hevict₄ _ j (by simp [hij]))).append
    ((Threads.path_solo (h₄.fits (by decide)) _ i (by simp [hij.symm])).append
    (Threads.path_solo (h₄.fits (by decide)) _ j (by simp [hij])))
  refine ⟨_, _, d, d', hrun, by simp, by simp, fun k => ?_⟩
  by_cases hj : k = j
  · simp [hj]
  · by_cases hi : k = i
    · simp [hi, hij.symm]
    · simp [hi, hj]

/-- Eight threads, two of which evict on one observation: the cache fits when they are done. -/
theorem eviction_safe_two :
    ∃ (tr : List (Fin 8 × Ev)) (s : State (Fin 8)) (d d' : Ptr),
      Lts.Path (Threads.Step AddStep) (init emptyCache) tr s ∧
        (0, .dequeue d) ∈ tr ∧ (1, .dequeue d') ∈ tr ∧ s.mem.cacheLoad ≤ maxCacheSize := by
  obtain ⟨tr, s, d, d', hrun, hd, hd', hidle⟩ := path_evictions (i := (0 : Fin 8)) (j := 1) (by decide)
  obtain ⟨-, -, -, hfits⟩ := eviction_safe isInit_emptyCache (by simp [nthreads]) hrun
  exact ⟨tr, s, d, d', hrun, hd, hd', hfits hidle⟩

end MiniProxy.Cache

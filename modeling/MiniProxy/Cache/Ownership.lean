import Mathlib.Algebra.BigOperators.Ring.Finset
import MiniProxy.Cache.Eviction

/-!
# Who holds the nodes

A node in use is one of the ends, it is in the queue, or one thread has it in its hands. The payloads in
the queue and in the hands of the threads exceed `MAX_CACHE_SIZE` by at most one object for each call of
`add_cache` in progress.

* `StoreStep`: threads whose objects are shorter than `MAX_OBJECT_SIZE`;
* `Pc.storing`, `Pc.load`: a call of `add_cache` that has made its node, and the length of the payload in
  a thread's hands;
* `Books`: the invariant; `Books.move`, `books_step`: every step keeps it;
* **`heap_bounded`**: no node is lost and the payloads are bounded, in every interleaving that keeps the
  queue intact.
-/

namespace MiniProxy.Cache

open Clib DList
open Threads (total total_update total_const)

/-- The steps of a thread whose objects are shorter than `MAX_OBJECT_SIZE`. -/
def StoreStep (c : Cache) (a : Pc) (e : Ev) (c' : Cache) (a' : Pc) : Prop :=
  TStep c a e c' a' ∧ ∀ p, a' = .link p → c'.size p < maxObjectSize

/-- In a call of `add_cache` that has made its node. -/
def Pc.storing : Pc → ℕ
  | .link _ | .linkCheck | .testIf | .testWhile | .unlink | .unlinkCheck _ | .release _ => 1
  | _ => 0

/-- The length of the payload of the node that a thread has in its hands. -/
def Pc.load (c : Cache) (a : Pc) : ℕ := a.owns.elim 0 c.size

variable {ι : Type*} [Fintype ι]

/-- The invariant: every node in use is accounted for, and so are the lengths of their payloads. -/
structure Books (c : Cache) (pc : ι → Pc) (L : List Ptr) : Prop where
  inv : Inv c pc L
  live : ∀ p, c.live p = true → p ∈ c.front :: L ++ [c.endp] ∨ ∃ i, (pc i).owns = some p
  small : ∀ p, c.live p = true → c.size p < maxObjectSize
  bound : c.cacheLoad + total (Pc.load c) pc ≤
    maxCacheSize + total Pc.storing pc * (maxObjectSize - 1)

theorem books_init {c : Cache} (h : IsInit c) : Books c (fun _ : ι => .idle) [] where
  inv := inv_init h
  live p hp := by
    obtain ⟨links, entry, front, endp, -, -, -⟩ := h
    left
    rcases of_decide_eq_true hp with rfl | rfl
    · exact List.mem_cons_self
    · exact List.mem_cons_of_mem _ List.mem_cons_self
  small p hp := by
    obtain ⟨links, entry, front, endp, -, -, hne⟩ := h
    have hpayload : ((cacheInit links entry front endp).entry p).payload = [] := by
      rcases of_decide_eq_true hp with rfl | rfl
      · simp [cacheInit, hne]
      · simp [cacheInit]
    rw [size, hpayload]
    decide
  bound := by
    rw [total_const (Pc.load c) .idle rfl, h.repr.load]
    exact Nat.zero_le _

variable {c : Cache} {pc : ι → Pc} {L L' : List Ptr}

theorem load_le_storing {a : Pc} (h : ∀ p, a.owns = some p → c.size p < maxObjectSize) :
    a.load c ≤ a.storing * (maxObjectSize - 1) := by
  rw [Pc.load]
  cases hown : a.owns with
  | none => exact Nat.zero_le _
  | some p =>
    have hp := h p hown
    have hstoring : a.storing = 1 := by
      cases a <;> first | rfl | cases hown
    rw [hstoring, Option.elim_some]
    omega

theorem total_load_le (h : ∀ i p, (pc i).owns = some p → c.size p < maxObjectSize) :
    total (Pc.load c) pc ≤ total Pc.storing pc * (maxObjectSize - 1) := by
  rw [total, total, Finset.sum_mul]
  exact Finset.sum_le_sum fun i _ => load_le_storing (h i)

variable [DecidableEq ι]

/-- **A step of thread `i`.** -/
theorem Books.move (h : Books c pc L) (i : ι) {m : Cache} {a : Pc} (hI : Inv m (Function.update pc i a) L')
    (hf : m.front = c.front) (he : m.endp = c.endp)
    (hlive : ∀ p, m.live p = true → c.live p = true ∨ a.owns = some p)
    (hqueue : ∀ p ∈ L, p ∈ L' ∨ a.owns = some p)
    (hown : ∀ p, (pc i).owns = some p → m.live p = true → p ∈ L' ∨ a.owns = some p)
    (hsmall : ∀ p, m.live p = true → m.size p < maxObjectSize)
    (hsize : ∀ j p, (pc j).owns = some p → m.size p = c.size p)
    (hbound : m.cacheLoad ≤ maxCacheSize ∨
      m.cacheLoad + a.load m + (pc i).storing * (maxObjectSize - 1) ≤
        c.cacheLoad + (pc i).load c + a.storing * (maxObjectSize - 1)) :
    Books m (Function.update pc i a) L' where
  inv := hI
  live p hp := by
    have hmine : a.owns = some p → ∃ j, (Function.update pc i a j).owns = some p := fun ha =>
      ⟨i, by rwa [Function.update_self]⟩
    rcases hlive p hp with hl | ha
    · rw [hf, he]
      rcases h.live p hl with hq | ⟨j, hj⟩
      · simp only [List.cons_append, List.mem_cons, List.mem_append, List.not_mem_nil,
          or_false] at hq ⊢
        rcases hq with hq | hq | hq
        · exact .inl (.inl hq)
        · exact (hqueue p hq).imp (fun hq => .inr (.inl hq)) hmine
        · exact .inl (.inr (.inr hq))
      · by_cases hji : j = i
        · subst hji
          exact (hown p hj hp).imp (fun hq => by simp [hq]) hmine
        · exact .inr ⟨j, by rwa [Function.update_of_ne hji]⟩
    · exact .inr (hmine ha)
  small := hsmall
  bound := by
    rcases hbound with hfits | hstep
    · have hload := total_load_le (c := m) fun j p hj => hsmall p (hI.owned j p hj).1.2
      omega
    · have hsame : total (Pc.load m) pc = total (Pc.load c) pc := by
        refine Finset.sum_congr rfl fun j _ => ?_
        rw [Pc.load, Pc.load]
        cases hj : (pc j).owns with
        | none => rfl
        | some p => exact hsize j p hj
      have hmine : (pc i).load m = (pc i).load c := by
        rw [Pc.load, Pc.load]
        cases hj : (pc i).owns with
        | none => rfl
        | some p => exact hsize i p hj
      have hloads := total_update (Pc.load m) pc i a
      have hcalls := congrArg (· * (maxObjectSize - 1)) (total_update Pc.storing pc i a)
      simp only [Nat.add_mul] at hcalls
      have hold := h.bound
      omega

theorem Books.same (h : Books c pc L) (i : ι) {m : Cache} {a : Pc}
    (hI : Inv m (Function.update pc i a) L') (hS : SameNodes c m)
    (hqueue : ∀ p ∈ L, p ∈ L' ∨ a.owns = some p)
    (hown : ∀ p, (pc i).owns = some p → p ∈ L' ∨ a.owns = some p)
    (hbound : m.cacheLoad ≤ maxCacheSize ∨
      m.cacheLoad + a.load c + (pc i).storing * (maxObjectSize - 1) ≤
        c.cacheLoad + (pc i).load c + a.storing * (maxObjectSize - 1)) :
    Books m (Function.update pc i a) L' := by
  refine h.move i hI hS.front hS.endp (fun p hp => .inl ?_) hqueue (fun p hp _ => hown p hp)
    (fun p hp => ?_) (fun _ p _ => congrFun hS.size p) ?_
  · rwa [← hS.live]
  · rw [hS.size]
    exact h.small p (by rwa [← hS.live])
  · rw [Pc.load, hS.size]
    exact hbound

theorem Books.stay (h : Books c pc L) (i : ι) {a : Pc} (hI : Inv c (Function.update pc i a) L')
    (hown : (pc i).owns = a.owns)
    (hstoring : (pc i).storing ≤ a.storing ∨ c.cacheLoad ≤ maxCacheSize) :
    Books c (Function.update pc i a) L' := by
  obtain rfl := hI.repr.unique h.inv.repr
  refine h.same i hI (SameNodes.refl c) (fun p => .inl) (fun p hp => .inr (hown ▸ hp)) ?_
  rcases hstoring with hle | hfits
  · have hmul := Nat.mul_le_mul_right (maxObjectSize - 1) hle
    rw [Pc.load, Pc.load, hown]
    exact .inr (by omega)
  · exact .inl hfits

/-- **Every step keeps the books**, if it takes out no node that a thread has found. -/
theorem books_step {s s' : State ι} {b : ι × Ev} (h : Books s.mem s.pc L)
    (hs : Threads.Step StoreStep s b s') (hG : KeepsFound s b) : ∃ L', Books s'.mem s'.pc L' := by
  obtain ⟨⟨hs, hlink⟩⟩ := hs
  rename_i i e m a
  obtain ⟨L', hI⟩ := inv_step h.inv (Threads.Step.mk hs) hG
  refine ⟨L', ?_⟩
  have hR := h.inv.repr
  simp only at hI ⊢
  generalize hp : s.pc i = a₀ at hs
  cases hs with
  | callIsCached | miss | hit | promoteCheck | copyOut | callAddCache | linkCheck | ifOver
  | whileOver => exact h.stay i hI (by rw [hp]; rfl) (.inl (by rw [hp]; exact le_rfl))
  | ifFits hfits => exact h.stay i hI (by rw [hp]; rfl) (.inr (Nat.le_of_not_lt hfits))
  | whileFits hfits => exact h.stay i hI (by rw [hp]; rfl) (.inr (Nat.le_of_not_lt hfits))
  | promote _ key p hup =>
    obtain ⟨ps, qs, rfl⟩ := List.append_of_mem (h.inv.found i key p hp)
    obtain ⟨c', hup', hR', hS, -, hload⟩ := hR.updateSec rfl
    cases hup.symm.trans hup'
    obtain rfl := hI.repr.unique hR'
    refine h.same i hI hS (fun q hq => .inl ((Lru.perm_touch p ps qs).mem_iff.mpr hq)) ?_ ?_
    · intro q hq
      rw [hp] at hq
      cases hq
    · rw [hp, hload]
      exact .inr le_rfl
  | alloc _ key payload bytesize p junk hp0 hfree hnew =>
    obtain ⟨hR', hf, he, -, hlive, hent⟩ := hR.newNode hfree hnew
    obtain ⟨-, -, hm⟩ := newNode_eq_ok.mp hnew
    obtain rfl := hI.repr.unique hR'
    have hother : ∀ q, q ≠ p → m.size q = s.mem.size q := fun q hq => by
      rw [size, size, hent, Function.update_of_ne hq]
    refine h.move i hI hf he (fun q hq => ?_) (fun q => .inl) (fun q hq => ?_) (fun q hq => ?_)
      (fun j q hq => ?_) (.inr ?_)
    · by_cases hqp : q = p
      · exact .inr (by rw [hqp]; rfl)
      · rw [hlive, Function.update_of_ne hqp] at hq
        exact .inl hq
    · rw [hp] at hq
      cases hq
    · by_cases hqp : q = p
      · rw [hqp]
        exact hlink p rfl
      · rw [hlive, Function.update_of_ne hqp] at hq
        rw [hother q hqp]
        exact h.small q hq
    · refine hother q fun hqp => ?_
      have hql := (h.inv.owned j q hq).1.2
      rw [hqp, hfree] at hql
      cases hql
    · have hsize : m.size p < maxObjectSize := hlink p rfl
      have hload : m.cacheLoad = s.mem.cacheLoad := by rw [hm]
      rw [hp, hload]
      simp only [Pc.load, Pc.owns, Option.elim_some, Option.elim_none, Pc.storing]
      omega
  | link _ p hsec =>
    have hown := h.inv.owned i p (by rw [hp]; rfl)
    obtain ⟨hR', hS⟩ := hR.enqueueSec hown.1 hown.2 hsec
    obtain rfl := hI.repr.unique hR'
    refine h.same i hI hS (fun q hq => .inl (List.mem_append_left _ hq)) (fun q hq => ?_) (.inr ?_)
    · rw [hp] at hq
      cases hq
      exact .inl (List.mem_append_right _ (List.mem_singleton_self p))
    · rw [hp, hR'.load, hR.load, hS.size, List.map_append, List.sum_append]
      simp only [Pc.load, Pc.owns, Option.elim_some, Option.elim_none, Pc.storing, List.map_singleton,
        List.sum_singleton]
      omega
  | unlink _ del hdeq hdel =>
    obtain ⟨ps, rfl, hR', hS⟩ := hR.dequeueSec_some hdeq hdel
    obtain rfl := hI.repr.unique hR'
    refine h.same i hI hS (fun q hq => ?_) (fun q hq => ?_) (.inr ?_)
    · rcases List.mem_cons.mp hq with rfl | hq
      · exact .inr rfl
      · exact .inl hq
    · rw [hp] at hq
      cases hq
    · rw [hp, hR'.load, hR.load, hS.size, List.map_cons, List.sum_cons]
      simp only [Pc.load, Pc.owns, Option.elim_some, Option.elim_none, Pc.storing]
      omega
  | unlinkEmpty _ hdeq =>
    obtain ⟨-, rfl⟩ := hR.dequeueSec_null hdeq
    exact h.stay i hI (by rw [hp]; rfl) (.inl (by rw [hp]; exact le_rfl))
  | unlinkCheck del fuel hc =>
    have hdel : del ≠ 0 := (h.inv.owned i del (by rw [hp]; rfl)).1.1
    exact h.stay i hI (by rw [hp, Pc.owns, Pc.owns, if_neg hdel]) (.inl (by rw [hp]; exact le_rfl))
  | release _ del hfree =>
    obtain ⟨_, ha, hm⟩ := bind_ok_iff.mp hfree
    have hdel : (s.pc i).owns = some del := by rw [hp, Pc.owns, if_neg (check_eq_ok.mp ha).1]
    obtain ⟨hR', hf, he, -, hlive, hent⟩ := hR.freeNode (h.inv.owned i del hdel).2 hfree
    obtain rfl := hI.repr.unique hR'
    cases hm
    have hkept : ∀ q, Function.update s.mem.live del false q = true → q ≠ del ∧ s.mem.live q = true :=
      fun q hq => by
        by_cases hqd : q = del
        · simp [hqd] at hq
        · exact ⟨hqd, by rwa [Function.update_of_ne hqd] at hq⟩
    refine h.move i hI rfl rfl (fun q hq => .inl (hkept q hq).2) (fun q => .inl) (fun q hq hl => ?_)
      (fun q hq => h.small q (hkept q hq).2) (fun _ _ _ => rfl) (.inr ?_)
    · rw [hdel] at hq
      cases hq
      exact absurd rfl (hkept del hl).1
    · rw [hp]
      simp only [Pc.load, Pc.owns, Option.elim_none, Pc.storing]
      omega

/-- **No node is lost, and memory is bounded**, in every interleaving in which no thread takes out a node
that another one has found and not yet moved. The nodes in use are the ends, the nodes of the queue, and
those that threads have in their hands, each of which one thread has, outside of the queue. The payloads
in the queue and in the hands of the threads are together no longer than `MAX_CACHE_SIZE` and one object
for each call of `add_cache` that has made its node; with no call in progress the queue fits. -/
theorem heap_bounded {c₀ : Cache} (h₀ : IsInit c₀) {tr : List (ι × Ev)} {s : State ι}
    (h : Lts.Path (Lts.Guarded (Threads.Step StoreStep) KeepsFound) (init c₀) tr s) :
    ∃ L, s.mem.Repr L ∧
      (∀ p, s.mem.live p = true ↔
        p ∈ s.mem.front :: L ++ [s.mem.endp] ∨ ∃ i, (s.pc i).owns = some p) ∧
      (∀ i p, (s.pc i).owns = some p →
        p ∉ s.mem.front :: L ++ [s.mem.endp] ∧ ∀ j, (s.pc j).owns = some p → j = i) ∧
      s.mem.cacheLoad + total (Pc.load s.mem) s.pc ≤
        maxCacheSize + total Pc.storing s.pc * (maxObjectSize - 1) ∧
      ((∀ i, s.pc i = .idle) → s.mem.cacheLoad ≤ maxCacheSize) := by
  obtain ⟨L, hB⟩ := Lts.Path.invariant_state (fun s => ∃ L, Books s.mem s.pc L) ⟨[], books_init h₀⟩
    (fun _ _ _ ⟨_, hB⟩ hs => books_step hB hs.1 hs.2) h
  have hI := hB.inv
  refine ⟨L, hI.repr, fun p => ⟨hB.live p, ?_⟩, fun i p hp => ?_, hB.bound, fun hidle => ?_⟩
  · rintro (hq | ⟨i, hi⟩)
    · exact (hI.repr.alloc p hq).2
    · exact (hI.owned i p hi).1.2
  · exact ⟨(hI.owned i p hp).2, fun j hj => hI.once j i p hj hp⟩
  · have hbound := hB.bound
    rw [funext hidle, total_const (Pc.load s.mem) .idle rfl, total_const Pc.storing .idle rfl,
      Nat.zero_mul] at hbound
    exact hbound

theorem keepsFound_of_adding {c₀ : Cache} (h₀ : IsInit c₀) (hcard : Fintype.card ι ≤ nthreads)
    {tr : List (ι × Ev)} {s : State ι} (h : Lts.Path (Threads.Step AddStep) (init c₀) tr s) :
    Lts.Path (Lts.Guarded (Threads.Step StoreStep) KeepsFound) (init c₀) tr s := by
  have hG := (Lts.Path.guarded_of (G := KeepsFound)
    (fun s : State ι => (∃ L, Inv s.mem s.pc L) ∧ Evicting s.mem s.pc)
    ⟨⟨[], inv_init h₀⟩, evicting_init h₀⟩
    (fun _ _ _ _ ⟨⟨_, hI⟩, hE⟩ hs => evicting_step hcard hI hE hs) ?_ h).2
  · refine hG.mono ?_
    rintro s ⟨i, e⟩ s' ⟨⟨hstep, -, hlink⟩, hK⟩
    exact ⟨.mk ⟨hstep, fun p hp => (hlink p hp).2⟩, hK⟩
  · intro s a _ hE del _ j key hj
    have := hE.2.adds j
    rw [hj] at this
    cases this

/-- Eight threads, two of which evict on one observation: no node is lost, and the cache fits when they
are done. -/
theorem heap_bounded_two : ∃ (tr : List (Fin 8 × Ev)) (s : State (Fin 8)) (d d' : Ptr) (L : List Ptr),
    Lts.Path (Lts.Guarded (Threads.Step StoreStep) KeepsFound) (init emptyCache) tr s ∧
      (0, .dequeue d) ∈ tr ∧ (1, .dequeue d') ∈ tr ∧ s.mem.Repr L ∧
      (∀ p, s.mem.live p = true ↔ p ∈ s.mem.front :: L ++ [s.mem.endp]) ∧
      s.mem.cacheLoad ≤ maxCacheSize := by
  obtain ⟨tr, s, d, d', h, hd, hd', hidle⟩ := path_evictions (i := (0 : Fin 8)) (j := 1) (by decide)
  have hrun := keepsFound_of_adding isInit_emptyCache (by simp [nthreads]) h
  obtain ⟨L, hR, hlive, -, -, hfits⟩ := heap_bounded isInit_emptyCache hrun
  refine ⟨tr, s, d, d', L, hrun, hd, hd', hR, fun p => (hlive p).trans (or_iff_left ?_), hfits hidle⟩
  rintro ⟨i, hi⟩
  rw [hidle i] at hi
  cases hi

end MiniProxy.Cache

import MiniProxy.Cache.Policy

/-!
# What stays in the cache

An object that was stored or hit stays in the cache for as long as it and the different objects that
are used after it fit.

* `Weighed`: one call, and the size of the node that it uses; `usedSince`: the nodes used in a run;
* `Kept`: the invariant, `kept_call`; **`retained`**: the working set of the latest calls is cached.
-/

namespace MiniProxy.Cache

open Clib

/-- One call that returns, with the length of the payload that its node has then. -/
def Weighed (c : Cache) (a : Use × ℕ) (c' : Cache) : Prop :=
  Call c a.1 c' ∧ ∀ p, a.1.node = some p → a.2 = c'.size p

/-- The nodes that are used in a run, with their sizes. -/
def usedSince (tr : List (Use × ℕ)) : List (Ptr × ℕ) :=
  tr.filterMap fun a => a.1.node.map fun p => (p, a.2)

variable {c c' c₀ c₁ : Cache} {p : Ptr} {tr : List (Use × ℕ)}

/-- The node at `p` holds `e` and is in the queue, and those behind it were used in the run. -/
def Kept (p : Ptr) (e : Entry) (tr : List (Use × ℕ)) (c : Cache) : Prop :=
  ∃ ps qs, c.Repr (ps ++ p :: qs) ∧ c.entry p = e ∧ ∀ q ∈ qs, (q, c.size q) ∈ usedSince tr

theorem usedSince_snoc (tr : List (Use × ℕ)) (a : Use × ℕ) :
    usedSince (tr ++ [a]) = usedSince tr ++ (a.1.node.map fun p => (p, a.2)).toList := by
  rw [usedSince, List.filterMap_append]
  cases h : a.1.node <;> simp [usedSince, h]

theorem mem_usedSince_snoc {a : Use × ℕ} {x : Ptr × ℕ} (h : x ∈ usedSince tr) :
    x ∈ usedSince (tr ++ [a]) := by
  rw [usedSince_snoc]
  exact List.mem_append_left _ h

theorem mem_usedSince_self {u : Use} {n : ℕ} {q : Ptr} (h : u.node = some q) :
    (q, n) ∈ usedSince (tr ++ [(u, n)]) := by
  rw [usedSince_snoc, h]
  exact List.mem_append_right _ (List.mem_singleton_self _)

/-- **Every call keeps an object** that fits together with the different objects used after it. -/
theorem kept_call {e : Entry} {a : Use × ℕ} (hK : Kept p e tr c) (hs : Weighed c a c')
    (hw : (cstr e.payload).length + Lru.distinct (usedSince (tr ++ [a])) ≤ maxCacheSize) :
    Kept p e (tr ++ [a]) c' := by
  obtain ⟨ps, qs, hR, he, hqs⟩ := hK
  obtain ⟨u, n⟩ := a
  obtain ⟨hs, hn⟩ := hs
  have hsize : c.size p = (cstr e.payload).length := by rw [size, he]
  cases hs with
  | add _ q junk key payload bytesize hq hfree hret =>
    obtain ⟨-, -, d, hS⟩ := hR.stored_of_returns hq hfree hret
    have hnew : q ∉ ps ++ p :: qs := hR.not_mem hfree
    have hent : ∀ x ∈ ps ++ p :: qs, c'.entry x = c.entry x := fun x hx =>
      hS.entry_of_mem hnew hx
    have hsame : ∀ x ∈ ps ++ p :: qs, c'.size x = c.size x := fun x hx => by
      rw [size, size, hent x hx]
    have hp : p ∈ ps ++ p :: qs := by simp
    have hused : ∀ x ∈ qs ++ [q], (x, c'.size x) ∈ usedSince (tr ++ [(.add q, n)]) := by
      intro x hx
      rcases List.mem_append.mp hx with hx | hx
      · rw [hsame x (by simp [hx])]
        exact mem_usedSince_snoc (hqs x hx)
      · rw [List.mem_singleton.mp hx, ← hn q rfl]
        exact mem_usedSince_self rfl
    have hnd : (qs ++ [q]).Nodup := by
      have hL : (ps ++ p :: qs).Nodup := (List.nodup_cons.mp hR.list.nodup).2.of_append_left
      have hsub : qs.Sublist (ps ++ p :: qs) :=
        (List.sublist_cons_self p qs).trans (List.sublist_append_right ps (p :: qs))
      rw [← List.concat_eq_append]
      exact (hL.sublist hsub).concat fun hq => hnew (hsub.subset hq)
    have hfit : ((p :: (qs ++ [q])).map c'.size).sum ≤ maxCacheSize := by
      have := Lru.sum_le_distinct c'.size hnd hused
      rw [List.map_cons, List.sum_cons, hsame p hp, hsize]
      omega
    obtain ⟨ps', hps⟩ := Lru.evict_keeps c'.size maxCacheSize ps hfit
    have hR' := hS.repr
    rw [List.append_assoc, List.cons_append, hps] at hR'
    exact ⟨ps', qs ++ [q], hR', (hent p hp).trans he, hused⟩
  | hit _ key q bytes hfind hret =>
    rcases hR.isCached_returns hret with ⟨hr, -⟩ | ⟨q', as, bs, _, -, hfind', hL, hR', hS, -⟩
    · cases hr
    · obtain ⟨m, hm⟩ := hfind
      cases (hR.findSec_ok (hm m le_rfl)).trans hfind'
      obtain ⟨ps', qs', hsplit, hmem⟩ := Lru.split_touch hL.symm
      rw [hsplit] at hR'
      refine ⟨ps', qs', hR', ?_, fun x hx => ?_⟩
      · rw [hS.entry, he]
      · rcases hmem x hx with hx | rfl
        · rw [hS.size]
          exact mem_usedSince_snoc (hqs x hx)
        · rw [← hn x rfl]
          exact mem_usedSince_self rfl
  | miss _ key hret =>
    rcases hR.isCached_returns hret with ⟨-, rfl, -⟩ | ⟨q, _, _, bytes, hr, -⟩
    · exact ⟨ps, qs, hR, he, fun q hq => mem_usedSince_snoc (hqs q hq)⟩
    · cases hr

theorem distinct_snoc_le (tr : List (Use × ℕ)) (a : Use × ℕ) :
    Lru.distinct (usedSince tr) ≤ Lru.distinct (usedSince (tr ++ [a])) := by
  rw [usedSince_snoc]
  exact Lru.distinct_le_append _ _

theorem kept_of_use {hist : List Use} {u : Use} (h₀ : IsInit c₀) (h : Lts.Path Call c₀ hist c)
    (hu : Call c u c₁) (hp : u.node = some p) (hfit : c₁.size p ≤ maxCacheSize) :
    Kept p (c₁.entry p) [] c₁ := by
  obtain ⟨L, hR, -⟩ := path_reached h₀.repr h
  cases hu with
  | add _ _ junk key payload bytesize hq hfree hret =>
    cases hp
    obtain ⟨-, -, d, hS⟩ := hR.stored_of_returns hq hfree hret
    have hsum : (([p] : List Ptr).map c₁.size).sum ≤ maxCacheSize := by simpa using hfit
    obtain ⟨ps', hps⟩ := Lru.evict_keeps c₁.size maxCacheSize L hsum
    exact ⟨ps', [], hps ▸ hS.repr, rfl, fun x hx => absurd hx List.not_mem_nil⟩
  | hit _ key q bytes hfind hret =>
    cases hp
    rcases hR.isCached_returns hret with ⟨hr, -⟩ | ⟨q', as, bs, _, -, hfind', hL, hR', hS, -⟩
    · cases hr
    · obtain ⟨m, hm⟩ := hfind
      cases (hR.findSec_ok (hm m le_rfl)).trans hfind'
      exact ⟨as ++ bs, [], hR', rfl, fun x hx => absurd hx List.not_mem_nil⟩
  | miss => cases hp

/-- **The working set stays in the cache.** An object that a call has stored or hit is in the queue, with
all that it holds, for as long as its length and the lengths of the different objects used since add up
to at most `MAX_CACHE_SIZE`, whatever the order of the calls. -/
theorem retained {hist : List Use} {u : Use} (h₀ : IsInit c₀) (h : Lts.Path Call c₀ hist c)
    (hu : Call c u c₁) (hp : u.node = some p) (hrun : Lts.Path Weighed c₁ tr c')
    (hw : c₁.size p + Lru.distinct (usedSince tr) ≤ maxCacheSize) :
    ∃ L, c'.Repr L ∧ p ∈ L ∧ c'.entry p = c₁.entry p := by
  have hkept : Kept p (c₁.entry p) tr c' := by
    induction hrun with
    | nil => exact kept_of_use h₀ h hu hp (Nat.le_of_add_right_le hw)
    | @snoc _ _ tr a _ hs ih =>
      have hle := distinct_snoc_le tr a
      exact kept_call (ih (by omega)) hs hw
  obtain ⟨ps, qs, hR, he, -⟩ := hkept
  exact ⟨_, hR, by simp, he⟩

/-- One object is stored, and after a second one it is still there. -/
theorem retained_second : ∃ c c' L, Lts.Path Call emptyCache [.add 3] c ∧
    Lts.Path Weighed c [(.add 4, 1)] c' ∧ c'.Repr L ∧ 3 ∈ L ∧ c'.entry 3 = c.entry 3 := by
  obtain ⟨c, d, hS, hall⟩ := isInit_emptyCache.repr.addCache (p := 3) (by decide)
    (by decide) [] [97, 0] ⟨[104], [56, 48], [47]⟩ 2 (by decide) (by decide) (by decide)
  have hcall : Call emptyCache (.add 3) c :=
    .add _ _ 3 [] _ _ _ (by decide) (by decide) ⟨2, fun fuel hf => hall fuel hf⟩
  have hfree : c.live 4 = false := by
    rw [hS.live]
    simp [emptyCache, cacheInit]
  obtain ⟨c', d', hS', hall'⟩ := hS.repr.addCache (p := 4) (by decide) hfree [] [98, 0]
    ⟨[104], [56, 48], [48]⟩ 2 (by decide) (by decide) (by decide)
  have hweigh : Weighed c (.add 4, 1) c' := by
    refine ⟨.add _ _ 4 [] _ _ _ (by decide) hfree ⟨_, fun fuel hf => hall' fuel hf⟩, fun p hp => ?_⟩
    cases hp
    rw [size, hS'.entry, Function.update_self]
    rfl
  have hsize : c.size 3 = 1 := by
    rw [size, hS.entry, Function.update_self]
    rfl
  have hw : c.size 3 + Lru.distinct (usedSince [(.add 4, 1)]) ≤ maxCacheSize := by
    rw [hsize]
    decide
  obtain ⟨L, hR, hmem, he⟩ := retained isInit_emptyCache (Lts.Path.nil _) hcall rfl
    (.single hweigh) hw
  exact ⟨c, c', L, .single hcall, .single hweigh, hR, hmem, he⟩

end MiniProxy.Cache

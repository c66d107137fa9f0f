import MiniProxy.Cache.Calls
import MiniProxy.Lib.Lifetime
import MiniProxy.Lib.Run

/-!
# The nodes over the life of a cache

`cache_init` takes two nodes, every `add_cache` takes one and frees those that it evicts, and
`cache_destroy` walks from `front` to the end of the links and frees what it stands on. The live nodes
are those of the queue and its sentinels.

* `destroyLoop`, `cacheDestroy`: the function, and `Repr.cacheDestroy`: its walk;
* `InRange`, `LifeCall`, `LifeStep`: one call with its `new_node` and its calls of `free_node`;
* `Owned`: the invariant; `owned_add`, `owned_look`, `path_owned`;
* `Owned.exists_add`, `Owned.exists_look`: a call in range returns;
* **`node_lifetimes`**: every node is freed once, and never while it is linked.
-/

namespace MiniProxy.Cache

open Clib DList
open Lifetime (Op History Paired)

/-! ## The destruction of the cache -/

/-- The loop of `cache_destroy`, at the node `p`: the nodes that it frees. -/
def destroyLoop : ℕ → Cache → Ptr → Exec (Cache × List Ptr)
  | 0, _, _ => .error .fuel
  | fuel + 1, c, p => do
    if p ≠ 0 then
      let nxt ← c.getNext p
      let c ← c.freeNode p
      let (c, ps) ← destroyLoop fuel c nxt
      return (c, p :: ps)
    else return (c, [])

/-- `cache_destroy`, with the nodes that it frees. -/
def cacheDestroy (fuel : ℕ) (c : Cache) : Exec (Cache × List Ptr) := do
  let (c, ps) ← c.destroyLoop fuel c.front
  return ({ c with cacheLoad := 0, cacheCount := 0 }, ps)

variable {c c' : Cache} {L : List Ptr} {p : Ptr}

/-- **The walk** along the nodes `ps` up to `NULL`: the links of a node are read before it is freed. -/
theorem destroyLoop_eq {ps : List Ptr} (hchain : (ps ++ [0]).IsChain fun a b => c.links.next a = b)
    (hnd : ps.Nodup) (halloc : ∀ q ∈ ps, c.Alloc q) {fuel : ℕ} (hf : ps.length < fuel) :
    c.destroyLoop fuel (ps.headD 0) =
      .ok ({ c with live := fun q => c.live q && decide (q ∉ ps) }, ps) := by
  obtain ⟨fuel, rfl⟩ : ∃ k, fuel = k + 1 := ⟨fuel - 1, by omega⟩
  induction ps generalizing c fuel with
  | nil => simp [destroyLoop]
  | cons x ps ih =>
    obtain ⟨hx, hnd⟩ := List.nodup_cons.mp hnd
    have hxa := halloc x List.mem_cons_self
    have hnext : c.links.next x = ps.headD 0 := by
      cases ps with
      | nil => exact (List.isChain_cons_cons.mp hchain).1
      | cons y ps => exact (List.isChain_cons_cons.mp hchain).1
    rw [List.length_cons] at hf
    obtain ⟨fuel, rfl⟩ : ∃ k, fuel = k + 1 := ⟨fuel - 1, by omega⟩
    have hrest : ∀ q ∈ ps, Alloc { c with live := Function.update c.live x false } q := fun q hq => by
      have hqx : q ≠ x := fun e => hx (e ▸ hq)
      obtain ⟨hq0, hlive⟩ := halloc q (List.mem_cons_of_mem _ hq)
      exact ⟨hq0, (Function.update_of_ne hqx _ _).trans hlive⟩
    have hloop := ih (c := { c with live := Function.update c.live x false }) hchain.tail hnd hrest fuel
      (by omega)
    rw [destroyLoop, List.headD_cons, if_pos hxa.1]
    simp only [getNext, freeNode, deref_of hxa, ok_bind, pure_eq_ok, hnext, hloop]
    congr 3
    funext q
    by_cases hqx : q = x
    · simp [hqx]
    · simp [hqx]

/-- **`cache_destroy`** frees the sentinels and the nodes of the queue, in the order of the queue. -/
theorem Repr.cacheDestroy (h : c.Repr L) :
    ∃ c', (∀ p, c'.live p = (c.live p && decide (p ∉ c.front :: L ++ [c.endp]))) ∧
      ∀ fuel, L.length + 2 < fuel →
        c.cacheDestroy fuel = .ok (c', c.front :: L ++ [c.endp]) := by
  have hchain : (c.front :: L ++ [c.endp] ++ [0]).IsChain fun a b => c.links.next a = b := by
    refine List.isChain_append.mpr ⟨h.list.chain.imp fun _ _ hl => hl.1, List.isChain_singleton 0, ?_⟩
    intro a ha b hb
    rw [List.getLast?_concat] at ha
    cases ha
    cases hb
    exact h.ends.2
  refine ⟨{ c with
    live := fun q => c.live q && decide (q ∉ c.front :: L ++ [c.endp])
    cacheLoad := 0, cacheCount := 0 }, fun _ => rfl, fun fuel hf => ?_⟩
  have hlen : (c.front :: L ++ [c.endp]).length < fuel := by
    simp only [List.length_cons, List.length_append, List.length_nil]
    omega
  rw [Cache.cacheDestroy]
  exact congrArg (· >>= _) (destroyLoop_eq hchain h.list.nodup h.alloc hlen)

/-! ## One call -/

/-- The copies of a call of `add_cache` are in range: `payload` is a string, `memcpy` stays inside the
memory for it, what is copied is a string, and it fits into the array of a caller of `is_cached`. -/
structure InRange (payload junk : List UInt8) (bytesize : ℕ) : Prop where
  term : 0 ∈ payload
  copy : bytesize ≤ (cstr payload).length + 1
  str : 0 ∈ payload.take bytesize ++ junk
  size : bytesize ≤ maxObjectSize

/-- What a call does to the nodes: the node that `new_node` makes and the calls of `free_node`. -/
inductive LifeCall where
  | add (p : Ptr) (frees : List FreeCall)
  | look

/-- The calls of `free_node`. -/
def LifeCall.frees : LifeCall → List FreeCall
  | add _ frees => frees
  | look => []

/-- The nodes that a call makes and frees, in this order. -/
def LifeCall.ops : LifeCall → List (Op Ptr)
  | add p frees => .new p :: (frees.map FreeCall.node).map .free
  | look => []

/-- One call that returns. -/
inductive LifeStep : Cache → LifeCall → Cache → Prop
  | add (c c' : Cache) (p : Ptr) (junk : List UInt8) (key : Key) (payload : List UInt8)
      (bytesize : ℕ) (frees : List FreeCall) (hp : p ≠ 0) (hfree : c.live p = false)
      (hrange : InRange payload junk bytesize)
      (h : Returns (fun fuel => c.addCacheLog fuel p junk key payload bytesize) (c', frees)) :
      LifeStep c (.add p frees) c'
  | look (c c' : Cache) (key : Key) (r : Option (List UInt8))
      (h : Returns (fun fuel => c.isCached fuel key) (r, c')) : LifeStep c .look c'

/-! ## The invariant -/

/-- The live nodes are the sentinels and the nodes of the queue `L`, every other node has been freed
once, and what the queue holds can be copied out. -/
structure Owned (c : Cache) (L : List Ptr) (ops : List (Op Ptr)) : Prop where
  repr : c.Repr L
  live : ∀ p, c.live p = true ↔ p ∈ c.front :: L ++ [c.endp]
  history : History ops c.live
  copies : ∀ p ∈ L, (c.entry p).bytesize ≤ maxObjectSize

variable {ops : List (Op Ptr)}

theorem owned_init {c : Cache} (h : IsInit c) : Owned c [] [.new c.front, .new c.endp] := by
  obtain ⟨links, entry, front, endp, hf, he, hne⟩ := h
  refine ⟨repr_cacheInit links entry hf he hne, fun p => by simp [cacheInit], ?_, by simp⟩
  have hfront := History.nil.new (a := front) rfl
  have hend : Function.update (fun _ => false) front true endp = false :=
    Function.update_of_ne (Ne.symm hne) _ _
  refine (hfront.new hend).congr fun p => ?_
  by_cases hpe : p = endp
  · simp [cacheInit, hpe]
  · by_cases hpf : p = front
    · simp [cacheInit, hpf, hne]
    · simp [cacheInit, hpe, hpf]

section Stored

variable {e : Entry} {d : List Ptr} (hS : Stored c L p e d c') (hR : c.Repr L)
  (hfree : c.live p = false)

include hS

theorem Stored.mem_iff (q : Ptr) :
    q ∈ L ∨ q = p ↔ q ∈ d ∨ q ∈ Lru.evict c'.size maxCacheSize (L ++ [p]) := by
  rw [← List.mem_append, ← hS.split, List.mem_append, List.mem_singleton]

include hR hfree

theorem Stored.evicted : d.Nodup ∧
    ∀ q ∈ d, q ∉ c'.front :: Lru.evict c'.size maxCacheSize (L ++ [p]) ++ [c'.endp] := by
  have hout := hR.not_mem_of_free hfree
  have hperm : (c.front :: (L ++ [p]) ++ [c.endp]).Perm (p :: (c.front :: L ++ [c.endp])) := by
    rw [← List.cons_append, List.append_assoc, List.singleton_append]
    exact List.perm_middle
  have hnd : (c.front :: (L ++ [p]) ++ [c.endp]).Nodup :=
    hperm.nodup_iff.mpr (List.nodup_cons.mpr ⟨hout, hR.list.nodup⟩)
  rw [hS.split] at hnd
  rw [hS.front, hS.endp]
  generalize Lru.evict c'.size maxCacheSize (L ++ [p]) = L' at hnd ⊢
  have hmid : (c.front :: (d ++ L') ++ [c.endp]).Perm (d ++ (c.front :: L' ++ [c.endp])) := by
    rw [← List.cons_append, List.append_assoc]
    exact List.perm_middle.symm
  obtain ⟨hd, -, hne⟩ := List.nodup_append.mp (hmid.nodup_iff.mp hnd)
  exact ⟨hd, fun q hq hq' => hne q hq q hq' rfl⟩

theorem Stored.live_iff (hlive : ∀ q, c.live q = true ↔ q ∈ c.front :: L ++ [c.endp]) (q : Ptr) :
    c'.live q = true ↔ q ∈ c'.front :: Lru.evict c'.size maxCacheSize (L ++ [p]) ++ [c'.endp] := by
  have hlive := hlive q
  have hq := hS.mem_iff q
  have hout := (hS.evicted hR hfree).2 q
  simp only [hS.front, hS.endp, List.cons_append, List.mem_cons, List.mem_append, List.not_mem_nil,
    or_false] at hlive hout ⊢
  rw [hS.live, Bool.and_eq_true, Bool.or_eq_true, decide_eq_true_eq, decide_eq_true_eq, hlive]
  constructor
  · rintro ⟨(hfront | hL | hend) | hp, hd⟩
    · exact Or.inl hfront
    · exact Or.inr (Or.inl ((hq.mp (Or.inl hL)).resolve_left hd))
    · exact Or.inr (Or.inr hend)
    · exact Or.inr (Or.inl ((hq.mp (Or.inr hp)).resolve_left hd))
  · intro hin
    refine ⟨?_, fun hd => hout hd hin⟩
    rcases hin with hfront | hL' | hend
    · exact Or.inl (Or.inl hfront)
    · exact (hq.mpr (Or.inr hL')).imp_left fun hL => Or.inr (Or.inl hL)
    · exact Or.inl (Or.inr (Or.inr hend))

theorem Owned.stored (h : Owned c L ops) (hsize : e.bytesize ≤ maxObjectSize) :
    Owned c' (Lru.evict c'.size maxCacheSize (L ++ [p])) (ops ++ .new p :: d.map .free) := by
  obtain ⟨hnd, -⟩ := hS.evicted hR hfree
  have hmem := hS.mem_iff
  refine ⟨hS.repr, hS.live_iff hR hfree h.live, ?_, fun q hq => ?_⟩
  · have hnew := (h.history.new hfree).frees hnd fun q hq => by
      rcases (hmem q).mpr (Or.inl hq) with hL | rfl
      · have hqp : q ≠ p := fun e => hR.not_mem hfree (e ▸ hL)
        rw [Function.update_of_ne hqp]
        exact (h.repr.alloc_mem hL).2
      · exact Function.update_self ..
    rw [List.append_cons]
    refine hnew.congr fun q => ?_
    rw [hS.live]
    by_cases hqp : q = p
    · simp [hqp]
    · simp [hqp]
  · rw [hS.entry]
    rcases (hmem q).mpr (Or.inr hq) with hL | rfl
    · have hqp : q ≠ p := fun e => hR.not_mem hfree (e ▸ hL)
      rw [Function.update_of_ne hqp]
      exact h.copies q hL
    · rw [Function.update_self]
      exact hsize

end Stored

/-- **A call of `add_cache`.** -/
theorem owned_add (h : Owned c L ops) {frees : List FreeCall} (hs : LifeStep c (.add p frees) c') :
    (∃ L', Owned c' L' (ops ++ (LifeCall.add p frees).ops)) ∧ ∀ f ∈ frees, f.Unlinked := by
  cases hs with | add _ _ junk key payload bytesize _ hp hfree hrange hret
  obtain ⟨c'', frees', hS, hfrees, hall⟩ :=
    h.repr.addCacheLog hp hfree junk payload key bytesize hrange.term hrange.copy hrange.str
  have hret' : Returns (fun fuel => c.addCacheLog fuel p junk key payload bytesize) (c'', frees') :=
    ⟨L.length + 2, fun fuel hf => hall fuel (by omega)⟩
  cases hret.unique hret'
  exact ⟨⟨_, Owned.stored hS h.repr hfree h hrange.size⟩, hfrees⟩

/-- **A call of `is_cached`.** -/
theorem owned_look (h : Owned c L ops) (hs : LifeStep c .look c') : ∃ L', Owned c' L' ops := by
  cases hs with | look _ key r hret
  rcases h.repr.isCached_returns hret with ⟨-, rfl, -⟩ | ⟨p, ps, qs, -, -, -, hL, hR', hS, -⟩
  · exact ⟨L, h⟩
  · have hperm := Lru.perm_touch p ps qs
    rw [← hL] at hperm
    refine ⟨_, hR', fun q => ?_, ?_, fun q hq => ?_⟩
    · rw [hS.live, hS.front, hS.endp, h.live]
      simp only [List.cons_append, List.mem_cons, List.mem_append, ← hperm.mem_iff]
    · rw [hS.live]
      exact h.history
    · rw [hS.entry]
      exact h.copies q (hperm.mem_iff.mp hq)

/-- The calls of `add_cache` and `is_cached`, one after the other. -/
theorem path_owned {c₀ : Cache} (h₀ : IsInit c₀) {tr : List LifeCall}
    (h : Lts.Path LifeStep c₀ tr c) :
    (∃ L, Owned c L ([.new c₀.front, .new c₀.endp] ++ tr.flatMap LifeCall.ops)) ∧
      ∀ u ∈ tr, ∀ f ∈ u.frees, f.Unlinked := by
  refine Lts.Path.invariant (fun tr c =>
    (∃ L, Owned c L ([.new c₀.front, .new c₀.endp] ++ tr.flatMap LifeCall.ops)) ∧
      ∀ u ∈ tr, ∀ f ∈ u.frees, f.Unlinked) ⟨⟨[], ?_⟩, ?_⟩ ?_ h
  · rw [List.flatMap_nil, List.append_nil]
    exact owned_init h₀
  · exact fun u hu => absurd hu List.not_mem_nil
  · rintro tr c u c' ⟨⟨L, hO⟩, hfrees⟩ hs
    rw [List.flatMap_append, List.flatMap_singleton, ← List.append_assoc, List.forall_mem_append,
      List.forall_mem_singleton]
    cases u with
    | add p frees =>
      obtain ⟨hO', hf⟩ := owned_add hO hs
      exact ⟨hO', hfrees, hf⟩
    | look =>
      obtain ⟨L', hO'⟩ := owned_look hO hs
      exact ⟨⟨L', by simpa [LifeCall.ops] using hO'⟩, hfrees, fun f hf => absurd hf List.not_mem_nil⟩

/-! ## Calls in range -/

theorem Owned.exists_add (h : Owned c L ops) (hp : p ≠ 0) (hfree : c.live p = false)
    {junk payload : List UInt8} {bytesize : ℕ} (hrange : InRange payload junk bytesize) (key : Key) :
    ∃ c' frees, Returns (fun fuel => c.addCacheLog fuel p junk key payload bytesize) (c', frees) := by
  obtain ⟨c', frees, -, -, hall⟩ :=
    h.repr.addCacheLog hp hfree junk payload key bytesize hrange.term hrange.copy hrange.str
  exact ⟨c', frees, L.length + 2, fun fuel hf => hall fuel (by omega)⟩

theorem Owned.exists_look (h : Owned c L ops) (key : Key) :
    ∃ r c', Returns (fun fuel => c.isCached fuel key) (r, c') := by
  cases hfind : L.reverse.find? fun q => (c.entry q).key.isMatch key with
  | none => exact ⟨none, c, L.length + 1, fun fuel hf => h.repr.isCached_none hfind hf⟩
  | some p =>
    have hp : p ∈ L := List.mem_reverse.mp (List.mem_of_find?_eq_some hfind)
    obtain ⟨ps, qs, hL⟩ := List.append_of_mem hp
    obtain ⟨c', hR', hS, hall⟩ := h.repr.isCached_some hL hfind
    have hcopy : c'.copyOut p = .ok ((c'.entry p).payload.take (c'.entry p).bytesize) := by
      have ha : c'.Alloc p := (hS.alloc p).mpr (h.repr.alloc_mem hp)
      have hsize : (c'.entry p).bytesize ≤ maxObjectSize := by
        rw [hS.entry]
        exact h.copies p hp
      rw [copyOut, deref_of ha, ok_bind, check_of hsize]
      rfl
    refine ⟨some ((c'.entry p).payload.take (c'.entry p).bytesize), c', L.length + 1,
      fun fuel hf => ?_⟩
    simp only [hall fuel hf, hcopy, ok_bind]

/-! ## The life of the nodes -/

/-- **Every node is freed once.** In a run of `add_cache` and `is_cached` after `cache_init`, whose copies
are in range, `free_node` gets neither `NULL` nor a node that is linked in the queue, and the next call
in range returns, so that it reads no node that has been freed. Then `cache_destroy` returns; it frees
the live nodes, each of them once, and over the whole run every node that `new_node` has made is freed
once before its address is used again. -/
theorem node_lifetimes {c₀ : Cache} (h₀ : IsInit c₀) {tr : List LifeCall}
    (h : Lts.Path LifeStep c₀ tr c) :
    (∀ u ∈ tr, ∀ f ∈ u.frees, f.Unlinked) ∧
    (∀ p junk key payload bytesize, p ≠ 0 → c.live p = false → InRange payload junk bytesize →
      ∃ c' frees, Returns (fun fuel => c.addCacheLog fuel p junk key payload bytesize) (c', frees)) ∧
    (∀ key, ∃ r c', Returns (fun fuel => c.isCached fuel key) (r, c')) ∧
    ∃ c' ps, Returns (fun fuel => c.cacheDestroy fuel) (c', ps) ∧ ps.Nodup ∧ 0 ∉ ps ∧
      (∀ p, p ∈ ps ↔ c.live p = true) ∧ (∀ p, c'.live p = false) ∧
      Paired ([.new c₀.front, .new c₀.endp] ++ tr.flatMap LifeCall.ops ++ ps.map .free) := by
  obtain ⟨⟨L, hO⟩, hfrees⟩ := path_owned h₀ h
  refine ⟨hfrees, fun p junk key payload bytesize hp hfree hrange => hO.exists_add hp hfree hrange key,
    fun key => hO.exists_look key, ?_⟩
  obtain ⟨c', hlive, hall⟩ := hO.repr.cacheDestroy
  have hdead : ∀ p, c'.live p = false := fun p => by
    rw [hlive, Bool.and_eq_false_iff, decide_eq_false_iff_not, not_not, ← hO.live]
    cases c.live p
    · exact Or.inl rfl
    · exact Or.inr rfl
  have hlast := hO.history.frees hO.repr.list.nodup fun p hp => (hO.repr.alloc p hp).2
  refine ⟨c', c.front :: L ++ [c.endp], ⟨L.length + 3, fun fuel hf => hall fuel (by omega)⟩,
    hO.repr.list.nodup, fun h0 => (hO.repr.alloc 0 h0).1 rfl, fun p => (hO.live p).symm, hdead, ?_⟩
  exact hlast.paired fun p => (hlive p).symm.trans (hdead p)

/-- One answer is stored and looked up before the cache is destroyed. -/
theorem node_lifetimes_one : ∃ (c : Cache) (frees : List FreeCall),
    Lts.Path LifeStep emptyCache [.add 3 frees] c ∧
      (∃ r c', Returns (fun fuel => c.isCached fuel ⟨[104], [56, 48], [47]⟩) (r, c')) ∧
      ∃ c' ps, Returns (fun fuel => c.cacheDestroy fuel) (c', ps) ∧
        Paired ([.new 1, .new 2, .new 3] ++ (frees.map FreeCall.node).map .free ++ ps.map .free) := by
  have hrange : InRange [97, 0] [] 2 := ⟨by decide, by decide, by decide, by decide⟩
  obtain ⟨c, frees, hret⟩ := (owned_init isInit_emptyCache).exists_add (p := 3) (by decide)
    (by decide) hrange ⟨[104], [56, 48], [47]⟩
  have hpath : Lts.Path LifeStep emptyCache [.add 3 frees] c :=
    .single (.add _ _ 3 _ _ _ _ _ (by decide) (by decide) hrange hret)
  obtain ⟨-, -, hlook, c', ps, hdestroy, -, -, -, -, hpaired⟩ :=
    node_lifetimes isInit_emptyCache hpath
  refine ⟨c, frees, hpath, hlook _, c', ps, hdestroy, ?_⟩
  simpa [LifeCall.ops, emptyCache, cacheInit] using hpaired

end MiniProxy.Cache

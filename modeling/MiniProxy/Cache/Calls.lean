import MiniProxy.Cache.Repr
import MiniProxy.Lib.Lru

/-!
# Calls of `add_cache` and `is_cached`, one at a time

What the functions of the cache do to the queue when no other thread runs.

* `FreeCall`, `evictLoopLog`, `addCacheLog`: the functions with their calls of `free_node`;
  `evictLoop_eq_log`, `addCache_eq_log`;
* `Evicted`, `Repr.exists_evict`, **`Repr.evictLoopLog`**: the loop of `add_cache` evicts from the front
  until the rest fits;
* `Stored`, **`Repr.addCacheLog`**, **`Repr.addCache`**: `add_cache` appends a node and evicts;
* **`Repr.isCached_none`**, **`Repr.isCached_some`**: `is_cached` finds nothing, or moves the node it
  finds to the end of the queue;
* `Repr.stored_of_returns`, `Repr.isCached_returns`: what a call that returns has done;
* `Repr.printCache_eq`: `print_cache` prints the queue.
-/

namespace MiniProxy.Cache

open Clib DList

/-! ## Calls of `free_node` -/

/-- A call of `free_node`: the heap in which it runs and the node that it is given. -/
structure FreeCall where
  heap : Cache
  node : Ptr

/-- The node is not `NULL`, and not linked in the queue. -/
def FreeCall.Unlinked (f : FreeCall) : Prop :=
  f.node ≠ 0 ∧ ∃ L, f.heap.Repr L ∧ f.node ∉ f.heap.front :: L ++ [f.heap.endp]

/-- `evictLoop`, with its calls of `free_node`. -/
def evictLoopLog : ℕ → Cache → Exec (Cache × List FreeCall)
  | 0, _ => .error .fuel
  | fuel + 1, c => do
    if c.cacheLoad > maxCacheSize then
      let (del, c) ← c.dequeue fuel
      let c' ← c.freeNode del
      let (c', frees) ← evictLoopLog fuel c'
      return (c', ⟨c, del⟩ :: frees)
    else return (c, [])

/-- `addCache`, with its calls of `free_node`. -/
def addCacheLog (fuel : ℕ) (c : Cache) (p : Ptr) (junk : List UInt8) (key : Key)
    (payload : List UInt8) (bytesize : ℕ) : Exec (Cache × List FreeCall) := do
  let c ← c.newNode p junk key payload bytesize
  let c ← c.enqueue fuel p
  if c.cacheLoad > maxCacheSize then evictLoopLog fuel c else return (c, [])

theorem evictLoop_eq_log (fuel : ℕ) (c : Cache) :
    c.evictLoop fuel = (c.evictLoopLog fuel >>= fun r => .ok r.1) := by
  induction fuel generalizing c with
  | zero => rfl
  | succ fuel ih =>
    rw [evictLoop, evictLoopLog]
    split_ifs
    · cases c.dequeue fuel with
      | error e => rfl
      | ok r =>
        simp only [ok_bind]
        cases r.2.freeNode r.1 with
        | error e => rfl
        | ok c' =>
          simp only [ok_bind, ih]
          cases c'.evictLoopLog fuel <;> rfl
    · rfl

theorem addCache_eq_log (fuel : ℕ) (c : Cache) (p : Ptr) (junk : List UInt8) (key : Key)
    (payload : List UInt8) (bytesize : ℕ) : c.addCache fuel p junk key payload bytesize =
      (c.addCacheLog fuel p junk key payload bytesize >>= fun r => .ok r.1) := by
  rw [addCache, addCacheLog]
  cases c.newNode p junk key payload bytesize with
  | error e => rfl
  | ok c₁ =>
    simp only [ok_bind]
    cases c₁.enqueue fuel p with
    | error e => rfl
    | ok c₂ =>
      simp only [ok_bind]
      split_ifs
      · exact evictLoop_eq_log fuel c₂
      · rfl

theorem evictLoopLog_of_le {c : Cache} (h : c.cacheLoad ≤ maxCacheSize) {fuel : ℕ} (hf : 0 < fuel) :
    c.evictLoopLog fuel = .ok (c, []) := by
  obtain ⟨fuel, rfl⟩ : ∃ k, fuel = k + 1 := ⟨fuel - 1, by omega⟩
  rw [evictLoopLog, if_neg (by omega)]
  rfl

/-! ## The queue after a call -/

variable {c : Cache} {L : List Ptr} {p : Ptr}

/-- `c'` is the cache `c` with queue `L` after the loop of `add_cache` has made the calls `frees`. -/
structure Evicted (c : Cache) (L : List Ptr) (frees : List FreeCall) (c' : Cache) : Prop where
  split : L = frees.map FreeCall.node ++ Lru.evict c.size maxCacheSize L
  repr : c'.Repr (Lru.evict c.size maxCacheSize L)
  entry : c'.entry = c.entry
  front : c'.front = c.front
  endp : c'.endp = c.endp
  live : ∀ q, c'.live q = (c.live q && decide (q ∉ frees.map FreeCall.node))
  unlinked : ∀ f ∈ frees, f.Unlinked

theorem Evicted.refl (h : c.Repr L) (hload : c.cacheLoad ≤ maxCacheSize) : Evicted c L [] c := by
  have hev : Lru.evict c.size maxCacheSize L = L := Lru.evict_of_le _ _ (by rw [← h.load]; exact hload)
  exact ⟨hev.symm, by rw [hev]; exact h, rfl, rfl, rfl, by simp, by simp⟩

theorem size_congr {c c' : Cache} (h : c'.entry = c.entry) : c'.size = c.size := by
  funext q
  rw [size, size, h]

namespace Repr

variable (h : c.Repr L)

include h

theorem dequeue_cons {ps : List Ptr} (hL : L = p :: ps) :
    ∃ c', c'.Repr ps ∧ SameNodes c c' ∧
      ∀ fuel, ps.length < fuel → c.dequeue fuel = .ok (p, c') := by
  obtain ⟨c', hdeq, hR, hS⟩ := h.dequeueSec_cons hL
  have hp : p ≠ 0 := (h.alloc_mem (p := p) (by rw [hL]; exact List.mem_cons_self)).1
  refine ⟨c', hR, hS, fun fuel hf => ?_⟩
  simp only [Cache.dequeue, hdeq, ok_bind, if_neg hp, hR.cacheCheck_eq hf, pure_eq_ok]

theorem exists_evict {x : Ptr} {xs : List Ptr} (hL : L = x :: xs) :
    ∃ c₁ c₂, FreeCall.Unlinked ⟨c₁, x⟩ ∧ c₂.Repr xs ∧ c₂.entry = c.entry ∧ c₂.front = c.front ∧
      c₂.endp = c.endp ∧ c₂.live = Function.update c.live x false ∧ c₁.freeNode x = .ok c₂ ∧
      ∀ fuel, xs.length < fuel → c.dequeue fuel = .ok (x, c₁) := by
  obtain ⟨c₁, hR₁, hS, hdeq⟩ := h.dequeue_cons hL
  have hx : c₁.Alloc x := (hS.alloc x).mpr (h.alloc_mem (by rw [hL]; exact List.mem_cons_self))
  have hout : x ∉ c₁.front :: xs ++ [c₁.endp] := by
    have hlist := h.list
    rw [hL] at hlist
    rw [hS.front, hS.endp]
    exact hlist.head_not_mem
  obtain ⟨c₂, hfree⟩ : ∃ c₂, c₁.freeNode x = .ok c₂ := ⟨_, by rw [Cache.freeNode, deref_of hx]; rfl⟩
  obtain ⟨hR₂, hf₂, he₂, -, hl₂, hent₂⟩ := hR₁.freeNode hout hfree
  exact ⟨c₁, c₂, ⟨hx.1, xs, hR₁, hout⟩, hR₂, hent₂.trans hS.entry, hf₂.trans hS.front,
    he₂.trans hS.endp, by rw [hl₂, hS.live], hfree, hdeq⟩

/-- **The loop of `add_cache`** evicts nodes from the front. It never finds the queue empty, and no node
that it frees is in the queue any more. -/
theorem evictLoopLog :
    ∃ c' frees, Evicted c L frees c' ∧
      ∀ fuel, L.length < fuel → c.evictLoopLog fuel = .ok (c', frees) := by
  induction L generalizing c with
  | nil =>
    have hload : c.cacheLoad ≤ maxCacheSize := by
      rw [h.load]
      exact Nat.zero_le _
    exact ⟨c, [], .refl h hload, fun fuel hf => evictLoopLog_of_le hload (by omega)⟩
  | cons x xs ih =>
    by_cases hload : c.cacheLoad ≤ maxCacheSize
    · exact ⟨c, [], .refl h hload, fun fuel hf => evictLoopLog_of_le hload (by omega)⟩
    · obtain ⟨c₁, c₂, hun, hR₂, hent, hfront, hendp, hlive, hfree, hdeq⟩ := h.exists_evict rfl
      obtain ⟨c', frees, hE, hloop⟩ := ih hR₂
      have hev : Lru.evict c.size maxCacheSize (x :: xs) = Lru.evict c₂.size maxCacheSize xs := by
        rw [Lru.evict, if_neg (by rw [← h.load]; exact hload), size_congr hent]
      refine ⟨c', ⟨c₁, x⟩ :: frees, ⟨?_, ?_, hE.entry.trans hent, hE.front.trans hfront,
        hE.endp.trans hendp, fun q => ?_, List.forall_mem_cons.mpr ⟨hun, hE.unlinked⟩⟩,
        fun fuel hf => ?_⟩
      · rw [hev, List.map_cons, List.cons_append, ← hE.split]
      · rw [hev]
        exact hE.repr
      · rw [hE.live, hlive]
        by_cases hqx : q = x
        · simp [hqx]
        · simp [hqx]
      · obtain ⟨fuel, rfl⟩ : ∃ k, fuel = k + 1 := ⟨fuel - 1, by omega⟩
        rw [List.length_cons] at hf
        rw [Cache.evictLoopLog, if_pos (by omega), hdeq fuel (by omega), ok_bind]
        simp only [hfree, ok_bind, hloop fuel (by omega), pure_eq_ok]

end Repr

/-- `c'` is the cache `c` with queue `L` after `add_cache` has appended the node `p` and evicted the
nodes `d`. -/
structure Stored (c : Cache) (L : List Ptr) (p : Ptr) (e : Entry) (d : List Ptr) (c' : Cache) :
    Prop where
  split : L ++ [p] = d ++ Lru.evict c'.size maxCacheSize (L ++ [p])
  repr : c'.Repr (Lru.evict c'.size maxCacheSize (L ++ [p]))
  entry : c'.entry = Function.update c.entry p e
  live : ∀ q, c'.live q = ((c.live q || decide (q = p)) && decide (q ∉ d))
  front : c'.front = c.front
  endp : c'.endp = c.endp

theorem Stored.entry_of_mem {c c' : Cache} {L d : List Ptr} {p q : Ptr} {e : Entry}
    (hS : Stored c L p e d c') (hp : p ∉ L) (hq : q ∈ L) : c'.entry q = c.entry q := by
  rw [hS.entry]
  apply Function.update_of_ne
  rintro rfl
  exact hp hq

theorem addCache_ok {c' : Cache} {fuel : ℕ} {junk payload : List UInt8} {key : Key} {bytesize : ℕ}
    (hR : c.Repr L) (hp : p ≠ 0) (hfree : c.live p = false)
    (h : c.addCache fuel p junk key payload bytesize = .ok c') :
    0 ∈ payload ∧ bytesize ≤ (cstr payload).length + 1 ∧ 0 ∈ payload.take bytesize ++ junk := by
  obtain ⟨c₁, hnew, h⟩ := bind_ok_iff.mp h
  obtain ⟨hterm, hle, -⟩ := newNode_eq_ok.mp hnew
  obtain ⟨hR₁, hf₁, he₁, -, hl₁, hent₁⟩ := hR.newNode hfree hnew
  refine ⟨hterm, hle, ?_⟩
  obtain ⟨c₂, h₂, -⟩ := bind_ok_iff.mp h
  obtain ⟨c₃, h₃, -⟩ := bind_ok_iff.mp h₂
  have hout := hR.not_mem_of_free hfree
  rw [← hf₁, ← he₁] at hout
  obtain ⟨hR₃, hS⟩ := hR₁.enqueueSec ⟨hp, by rw [hl₁, Function.update_self]⟩ hout h₃
  have hstr := hR₃.term p (List.mem_append_right _ (List.mem_singleton_self p))
  rwa [hS.entry, hent₁, Function.update_self] at hstr

namespace Repr

variable (h : c.Repr L)

include h

/-- **`add_cache`** of a payload whose copy fits and is a string, and its calls of `free_node`. -/
theorem addCacheLog (hp : p ≠ 0) (hfree : c.live p = false) (junk payload : List UInt8) (key : Key)
    (bytesize : ℕ) (hterm : 0 ∈ payload) (hle : bytesize ≤ (cstr payload).length + 1)
    (hstr : 0 ∈ payload.take bytesize ++ junk) :
    ∃ c' frees, Stored c L p ⟨key, payload.take bytesize ++ junk, bytesize⟩
        (frees.map FreeCall.node) c' ∧ (∀ f ∈ frees, f.Unlinked) ∧
      ∀ fuel, L.length + 1 < fuel →
        c.addCacheLog fuel p junk key payload bytesize = .ok (c', frees) := by
  obtain ⟨c₁, hnew⟩ := c.exists_newNode p junk key payload bytesize hterm hle
  obtain ⟨hR₁, hf₁, he₁, -, hl₁, hent₁⟩ := h.newNode hfree hnew
  have hout := h.not_mem_of_free hfree
  rw [← hf₁, ← he₁] at hout
  have ha : c₁.Alloc p := ⟨hp, by rw [hl₁, Function.update_self]⟩
  obtain ⟨c₂, hlink⟩ := hR₁.exists_enqueueSec ha hout (by rw [hent₁, Function.update_self]; exact hstr)
  obtain ⟨hR₂, hS⟩ := hR₁.enqueueSec ha hout hlink
  obtain ⟨c', frees, hE, hloop⟩ := hR₂.evictLoopLog
  have hsize : c'.size = c₂.size := size_congr hE.entry
  refine ⟨c', frees, ⟨?_, ?_, ?_, fun q => ?_, ?_, ?_⟩, hE.unlinked, fun fuel hf => ?_⟩
  · rw [hsize]
    exact hE.split
  · rw [hsize]
    exact hE.repr
  · rw [hE.entry, hS.entry, hent₁]
  · rw [hE.live, hS.live, hl₁]
    by_cases hqp : q = p
    · simp [hqp]
    · simp [hqp]
  · rw [hE.front, hS.front, hf₁]
  · rw [hE.endp, hS.endp, he₁]
  · have hlen : (L ++ [p]).length = L.length + 1 := by simp
    simp only [Cache.addCacheLog, Cache.enqueue, hnew, ok_bind, hlink, pure_eq_ok,
      hR₂.cacheCheck_eq (show (L ++ [p]).length < fuel by omega), hloop fuel (by omega)]
    split_ifs with hload
    · rfl
    · -- the loop that is not entered would not run either
      rw [← hloop fuel (by omega)]
      exact (evictLoopLog_of_le (by omega) (by omega)).symm

/-- **`add_cache`** of a payload whose copy fits and is a string. -/
theorem addCache (hp : p ≠ 0) (hfree : c.live p = false) (junk payload : List UInt8) (key : Key)
    (bytesize : ℕ) (hterm : 0 ∈ payload) (hle : bytesize ≤ (cstr payload).length + 1)
    (hstr : 0 ∈ payload.take bytesize ++ junk) :
    ∃ c' d, Stored c L p ⟨key, payload.take bytesize ++ junk, bytesize⟩ d c' ∧
      ∀ fuel, L.length + 1 < fuel → c.addCache fuel p junk key payload bytesize = .ok c' := by
  obtain ⟨c', frees, hS, -, hall⟩ := h.addCacheLog hp hfree junk payload key bytesize hterm hle hstr
  refine ⟨c', frees.map FreeCall.node, hS, fun fuel hf => ?_⟩
  rw [addCache_eq_log, hall fuel hf, ok_bind]

/-- **`is_cached`** finds no node. -/
theorem isCached_none {key : Key}
    (hfind : (L.reverse.find? fun q => (c.entry q).key.isMatch key) = none) {fuel : ℕ}
    (hf : L.length < fuel) : c.isCached fuel key = .ok (none, c) := by
  simp only [Cache.isCached, h.findSec_eq key hf, hfind, ok_bind, pure_eq_ok]

/-- **`is_cached`** finds a node and moves it to the end of the queue. -/
theorem isCached_some {key : Key} {ps qs : List Ptr} (hL : L = ps ++ p :: qs)
    (hfind : (L.reverse.find? fun q => (c.entry q).key.isMatch key) = some p) :
    ∃ c', c'.Repr (ps ++ qs ++ [p]) ∧ SameNodes c c' ∧ ∀ fuel, L.length < fuel →
      c.isCached fuel key = c'.copyOut p >>= fun bytes => .ok (some bytes, c') := by
  obtain ⟨c', hup, hR, hS, -, -⟩ := h.updateSec hL
  refine ⟨c', hR, hS, fun fuel hf => ?_⟩
  have hlen : (ps ++ qs ++ [p]).length < fuel := by
    rw [hL] at hf
    simp only [List.length_append, List.length_cons, List.length_nil] at hf ⊢
    omega
  simp only [Cache.isCached, h.findSec_eq key hf, hfind, ok_bind, Cache.update, hup,
    hR.cacheCheck_eq hlen, pure_eq_ok]

theorem stored_of_returns {junk payload : List UInt8} {key : Key} {bytesize : ℕ} {c' : Cache}
    (hp : p ≠ 0) (hfree : c.live p = false)
    (hret : Returns (fun fuel => c.addCache fuel p junk key payload bytesize) c') :
    0 ∈ payload ∧ bytesize ≤ (cstr payload).length + 1 ∧
      ∃ d, Stored c L p ⟨key, payload.take bytesize ++ junk, bytesize⟩ d c' := by
  obtain ⟨n, hn⟩ := hret
  obtain ⟨hterm, hle, hstr⟩ := addCache_ok h hp hfree (hn _ le_rfl)
  obtain ⟨c'', d, hS, hall⟩ := h.addCache hp hfree junk payload key bytesize hterm hle hstr
  cases Except.ok.inj ((hn (n + L.length + 2) (by omega)).symm.trans (hall _ (by omega)))
  exact ⟨hterm, hle, d, hS⟩

theorem isCached_returns {key : Key} {r : Option (List UInt8)} {c' : Cache}
    (hret : Returns (fun fuel => c.isCached fuel key) (r, c')) :
    (r = none ∧ c' = c ∧ (L.reverse.find? fun q => (c.entry q).key.isMatch key) = none) ∨
      ∃ p ps qs bytes, r = some bytes ∧
        (L.reverse.find? fun q => (c.entry q).key.isMatch key) = some p ∧ L = ps ++ p :: qs ∧
        c'.Repr (ps ++ qs ++ [p]) ∧ SameNodes c c' ∧ c'.copyOut p = .ok bytes := by
  obtain ⟨n, hn⟩ := hret
  have hn := hn (n + L.length + 1) (by omega)
  cases hfind : L.reverse.find? fun q => (c.entry q).key.isMatch key with
  | none =>
    cases (h.isCached_none hfind (by omega)).symm.trans hn
    exact .inl ⟨rfl, rfl, rfl⟩
  | some p =>
    obtain ⟨ps, qs, hL⟩ := List.append_of_mem (List.mem_reverse.mp (List.mem_of_find?_eq_some hfind))
    obtain ⟨c'', hR, hS, hall⟩ := h.isCached_some hL hfind
    obtain ⟨bytes, hcopy, hret⟩ := bind_ok_iff.mp ((hall _ (by omega)).symm.trans hn)
    cases hret
    exact .inr ⟨p, ps, qs, bytes, rfl, rfl, hL, hR, hS, hcopy⟩

theorem printLoop_eq {ps : List Ptr} (qs : List Ptr) {e : Ptr} (hL : c.front :: L = qs ++ e :: ps)
    (hps : IsList c.links e ps c.endp) (fuel : ℕ) (hf : ps.length < fuel) :
    c.printLoop fuel (c.links.next e) =
      .ok (ps.map fun q => ((c.entry q).key, (c.entry q).bytesize)) := by
  induction ps generalizing e qs fuel with
  | nil =>
    obtain ⟨fuel, rfl⟩ : ∃ k, fuel = k + 1 := ⟨fuel - 1, by omega⟩
    rw [Cache.printLoop, (isList_nil.mp hps).1]
    simp
  | cons x ps ih =>
    obtain ⟨fuel, rfl⟩ : ∃ k, fuel = k + 1 := ⟨fuel - 1, by omega⟩
    obtain ⟨hx, -, htail⟩ := hps.head
    have hxn : x ≠ c.endp := hps.ne_end (by simp)
    have hxa : c.Alloc x := h.alloc x (List.mem_append_left _ (by rw [hL]; simp))
    rw [List.length_cons] at hf
    have hrec := ih (qs ++ [e]) (by rw [hL]; simp) htail fuel (by omega)
    rw [Cache.printLoop, hx]
    simp only [hxn, ne_eq, not_false_eq_true, if_true, getNext, deref_of hxa, ok_bind, pure_eq_ok,
      hrec, List.map_cons]

/-- **`print_cache`** prints the queue. -/
theorem printCache_eq {fuel : ℕ} (hf : L.length < fuel) :
    c.printCache fuel = .ok (L.map fun q => ((c.entry q).key, (c.entry q).bytesize)) := by
  simp only [Cache.printCache, getNext, deref_of h.alloc_front, ok_bind, pure_eq_ok,
    h.printLoop_eq [] rfl h.list fuel hf]

end Repr

end MiniProxy.Cache

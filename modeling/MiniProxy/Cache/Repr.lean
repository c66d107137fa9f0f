import Mathlib.Algebra.BigOperators.Group.List.Basic
import Mathlib.Tactic.SplitIfs
import MiniProxy.Cache.Model
import MiniProxy.Lib.Lru

/-!
# The queue that the heap represents

`c.Repr L` says that the cache is intact and its queue is `L`: the links from `front` to `end` are
those of the list `L`, all nodes on it are allocated and distinct, `cache_count` is their number and
`cache_load` the sum of the lengths of their payloads.

* `SameNodes`: two heaps that differ in links and counters only;
* `Repr.enqueueSec`, `Repr.dequeueSec_nil`, `Repr.dequeueSec_cons`, `Repr.updateSec`: what the write
  sections do to the queue;
* `Repr.findSec`, `Repr.cacheCheck`: what the read sections find. No `assert` fails.
-/

namespace MiniProxy.Cache

open Clib DList

/-- `strlen` of the payload of the node at `p`. -/
def size (c : Cache) (p : Ptr) : ℕ := (cstr (c.entry p).payload).length

/-- The cache is intact and its queue is `L`. -/
structure Repr (c : Cache) (L : List Ptr) : Prop where
  list : IsList c.links c.front L c.endp
  alloc : ∀ p ∈ c.front :: L ++ [c.endp], c.Alloc p
  term : ∀ p ∈ L, 0 ∈ (c.entry p).payload
  count : c.cacheCount = L.length
  load : c.cacheLoad = (L.map c.size).sum
  ends : c.links.prev c.front = 0 ∧ c.links.next c.endp = 0

/-- Only links and counters differ. -/
structure SameNodes (c c' : Cache) : Prop where
  entry : c'.entry = c.entry
  live : c'.live = c.live
  front : c'.front = c.front
  endp : c'.endp = c.endp

theorem SameNodes.refl (c : Cache) : SameNodes c c := ⟨rfl, rfl, rfl, rfl⟩

theorem SameNodes.size {c c' : Cache} (h : SameNodes c c') : c'.size = c.size := by
  funext p
  rw [Cache.size, Cache.size, h.entry]

theorem SameNodes.alloc {c c' : Cache} (h : SameNodes c c') (p : Ptr) : c'.Alloc p ↔ c.Alloc p := by
  rw [Alloc, Alloc, h.live]

theorem SameNodes.trans {c c' c'' : Cache} (h : SameNodes c c') (h' : SameNodes c' c'') :
    SameNodes c c'' :=
  ⟨h'.entry.trans h.entry, h'.live.trans h.live, h'.front.trans h.front, h'.endp.trans h.endp⟩

variable {c c' : Cache} {L : List Ptr} {p : Ptr}

theorem sameNodes_setNext {q : Ptr} (h : c.setNext p q = .ok c') : SameNodes c c' := by
  obtain ⟨_, -, h⟩ := bind_ok_iff.mp h
  cases h
  exact ⟨rfl, rfl, rfl, rfl⟩

theorem sameNodes_setPrev {q : Ptr} (h : c.setPrev p q = .ok c') : SameNodes c c' := by
  obtain ⟨_, -, h⟩ := bind_ok_iff.mp h
  cases h
  exact ⟨rfl, rfl, rfl, rfl⟩

theorem sameNodes_enqueueSec (h : c.enqueueSec p = .ok c') : SameNodes c c' := by
  obtain ⟨_, -, h⟩ := bind_ok_iff.mp h
  obtain ⟨c₁, h₁, h⟩ := bind_ok_iff.mp h
  obtain ⟨c₂, h₂, h⟩ := bind_ok_iff.mp h
  obtain ⟨c₃, h₃, h⟩ := bind_ok_iff.mp h
  obtain ⟨_, -, h⟩ := bind_ok_iff.mp h
  obtain ⟨c₄, h₄, h⟩ := bind_ok_iff.mp h
  obtain ⟨_, -, h⟩ := bind_ok_iff.mp h
  cases h
  exact (((sameNodes_setPrev h₁).trans (sameNodes_setNext h₂)).trans (sameNodes_setPrev h₃)).trans
    ((sameNodes_setNext h₄).trans ⟨rfl, rfl, rfl, rfl⟩)

theorem sameNodes_dequeueSec (h : c.dequeueSec = .ok (p, c')) : SameNodes c c' := by
  obtain ⟨b, -, h⟩ := bind_ok_iff.mp h
  split_ifs at h
  · cases h
    exact SameNodes.refl c
  · obtain ⟨_, -, h⟩ := bind_ok_iff.mp h
    obtain ⟨_, -, h⟩ := bind_ok_iff.mp h
    obtain ⟨c₁, h₁, h⟩ := bind_ok_iff.mp h
    obtain ⟨_, -, h⟩ := bind_ok_iff.mp h
    obtain ⟨c₂, h₂, h⟩ := bind_ok_iff.mp h
    obtain ⟨_, -, h⟩ := bind_ok_iff.mp h
    cases h
    exact ((sameNodes_setNext h₁).trans (sameNodes_setPrev h₂)).trans ⟨rfl, rfl, rfl, rfl⟩

theorem sameNodes_updateSec (h : c.updateSec p = .ok c') : SameNodes c c' := by
  obtain ⟨_, -, h⟩ := bind_ok_iff.mp h
  obtain ⟨_, -, h⟩ := bind_ok_iff.mp h
  obtain ⟨c₁, h₁, h⟩ := bind_ok_iff.mp h
  obtain ⟨_, -, h⟩ := bind_ok_iff.mp h
  obtain ⟨_, -, h⟩ := bind_ok_iff.mp h
  obtain ⟨c₂, h₂, h⟩ := bind_ok_iff.mp h
  obtain ⟨c₃, h₃, h⟩ := bind_ok_iff.mp h
  obtain ⟨_, -, h⟩ := bind_ok_iff.mp h
  obtain ⟨c₄, h₄, h⟩ := bind_ok_iff.mp h
  obtain ⟨c₅, h₅, h⟩ := bind_ok_iff.mp h
  obtain ⟨_, -, h⟩ := bind_ok_iff.mp h
  exact ((((sameNodes_setNext h₁).trans (sameNodes_setPrev h₂)).trans (sameNodes_setNext h₃)).trans
    (sameNodes_setPrev h₄)).trans ((sameNodes_setPrev h₅).trans (sameNodes_setNext h))

theorem deref_of (h : c.Alloc p) : c.deref p = .ok () := check_of h _

/-- **`new_node`** works exactly when its copy fits. -/
theorem newNode_eq_ok {junk payload : List UInt8} {key : Key} {bytesize : ℕ} :
    c.newNode p junk key payload bytesize = .ok c' ↔
      0 ∈ payload ∧ bytesize ≤ (cstr payload).length + 1 ∧ c' = { c with
        live := Function.update c.live p true
        entry := Function.update c.entry p ⟨key, payload.take bytesize ++ junk, bytesize⟩ } := by
  constructor
  · intro h
    obtain ⟨n, hn, h⟩ := bind_ok_iff.mp h
    obtain ⟨hterm, rfl⟩ := strlen_eq_ok.mp hn
    obtain ⟨_, hle, h⟩ := bind_ok_iff.mp h
    cases h
    exact ⟨hterm, check_eq_ok.mp hle, rfl⟩
  · rintro ⟨hterm, hle, rfl⟩
    rw [newNode, strlen_of_mem hterm, ok_bind, check_of hle]
    rfl

theorem exists_newNode (c : Cache) (p : Ptr) (junk : List UInt8) (key : Key) (payload : List UInt8)
    (bytesize : ℕ) (hterm : 0 ∈ payload) (hle : bytesize ≤ (cstr payload).length + 1) :
    ∃ c', c.newNode p junk key payload bytesize = .ok c' :=
  ⟨_, newNode_eq_ok.mpr ⟨hterm, hle, rfl⟩⟩

theorem repr_cacheInit (links : Links Ptr) (entry : Ptr → Entry) {front endp : Ptr}
    (hf : front ≠ 0) (he : endp ≠ 0) (hne : front ≠ endp) :
    (cacheInit links entry front endp).Repr [] where
  list := isList_nil.mpr ⟨by simp [cacheInit, hne], by simp [cacheInit], hne⟩
  alloc := by simp [cacheInit, hf, he, Alloc]
  term := by simp
  count := rfl
  load := rfl
  ends := ⟨by simp [cacheInit, hne], by simp [cacheInit]⟩

theorem findLoop_mono {key : Key} {fuel fuel' : ℕ} {r : Option Ptr} (hle : fuel ≤ fuel')
    (hr : c.findLoop key fuel p = .ok r) : c.findLoop key fuel' p = .ok r := by
  induction fuel generalizing p fuel' with
  | zero => cases hr
  | succ fuel ih =>
    obtain ⟨fuel', rfl⟩ : ∃ k, fuel' = k + 1 := ⟨fuel' - 1, by omega⟩
    rw [findLoop] at hr ⊢
    split_ifs at hr ⊢
    · obtain ⟨m, hm, hr⟩ := bind_ok_iff.mp hr
      refine bind_ok_iff.mpr ⟨m, hm, ?_⟩
      split_ifs at hr ⊢
      · exact hr
      · obtain ⟨q, hq, hr⟩ := bind_ok_iff.mp hr
        exact bind_ok_iff.mpr ⟨q, hq, ih (by omega) hr⟩
    · exact hr

theorem findSec_mono {key : Key} {fuel fuel' : ℕ} {r : Option Ptr} (hle : fuel ≤ fuel')
    (hr : c.findSec fuel key = .ok r) : c.findSec fuel' key = .ok r := by
  rw [findSec] at hr ⊢
  obtain ⟨b, hb, hr⟩ := bind_ok_iff.mp hr
  refine bind_ok_iff.mpr ⟨b, hb, ?_⟩
  split_ifs at hr ⊢
  · exact hr
  · obtain ⟨q, hq, hr⟩ := bind_ok_iff.mp hr
    exact bind_ok_iff.mpr ⟨q, hq, findLoop_mono hle hr⟩

theorem findLoop_some {key : Key} {fuel : ℕ} {q : Ptr} (hr : c.findLoop key fuel q = .ok (some p)) :
    c.Alloc p ∧ (c.entry p).key.isMatch key = true := by
  induction fuel generalizing q with
  | zero => cases hr
  | succ fuel ih =>
    rw [findLoop] at hr
    split_ifs at hr
    · obtain ⟨m, hm, hr⟩ := bind_ok_iff.mp hr
      split_ifs at hr with hb
      · cases hr
        obtain ⟨_, ha, hm⟩ := bind_ok_iff.mp hm
        cases hm
        exact ⟨check_eq_ok.mp ha, hb⟩
      · obtain ⟨r, -, hr⟩ := bind_ok_iff.mp hr
        exact ih hr
    · cases hr

theorem findSec_some {key : Key} {fuel : ℕ} (hr : c.findSec fuel key = .ok (some p)) :
    c.Alloc p ∧ (c.entry p).key.isMatch key = true := by
  rw [findSec] at hr
  obtain ⟨b, -, hr⟩ := bind_ok_iff.mp hr
  split_ifs at hr
  · cases hr
  · obtain ⟨q, -, hr⟩ := bind_ok_iff.mp hr
    exact findLoop_some hr

/-- `c` is a cache after `cache_init`. -/
inductive IsInit : Cache → Prop
  | mk (links : DList.Links Ptr) (entry : Ptr → Entry) (front endp : Ptr) (hf : front ≠ 0)
      (he : endp ≠ 0) (hne : front ≠ endp) : IsInit (cacheInit links entry front endp)

theorem IsInit.repr {c : Cache} (h : IsInit c) : c.Repr [] := by
  obtain ⟨links, entry, front, endp, hf, he, hne⟩ := h
  exact repr_cacheInit links entry hf he hne

/-- A cache after `cache_init`, with the sentinels at the addresses `1` and `2`. -/
def emptyCache : Cache := cacheInit ⟨fun _ => 0, fun _ => 0⟩ (fun _ => ⟨⟨[], [], []⟩, [], 0⟩) 1 2

theorem isInit_emptyCache : IsInit emptyCache :=
  .mk _ _ 1 2 (by decide) (by decide) (by decide)

namespace Repr

variable (h : c.Repr L)

include h

theorem alloc_front : c.Alloc c.front := h.alloc _ (by simp)

theorem alloc_endp : c.Alloc c.endp := h.alloc _ (by simp)

theorem alloc_mem (hp : p ∈ L) : c.Alloc p := h.alloc _ (by simp [hp])

theorem unique {L' : List Ptr} (h' : c.Repr L') : L = L' := h.list.unique h'.list

theorem isEmpty : c.isEmpty = .ok (decide (L = [])) := by
  have hnil := h.list.eq_nil_iff
  simp only [Cache.isEmpty, getNext, getPrev, deref_of h.alloc_front, deref_of h.alloc_endp, ok_bind,
    pure_eq_ok, hnil]
  split_ifs with hn
  · simp [hn, eq_comm]
  · simp [hn]

/-! ## Write sections -/

theorem relink {L' : List Ptr} {l : Links Ptr} {count : ℤ} {load : ℕ}
    (hlist : IsList l c.front L' c.endp) (halloc : ∀ q ∈ L', c.Alloc q)
    (hterm : ∀ q ∈ L', 0 ∈ (c.entry q).payload) (hcount : count = L'.length)
    (hload : load = (L'.map c.size).sum)
    (hends : l.prev c.front = c.links.prev c.front ∧ l.next c.endp = c.links.next c.endp) :
    Repr { c with links := l, cacheCount := count, cacheLoad := load } L' where
  list := hlist
  alloc := fun q hq => by
    simp only [List.cons_append, List.mem_cons, List.mem_append, List.not_mem_nil, or_false] at hq
    rcases hq with rfl | hq | rfl
    · exact h.alloc_front
    · exact halloc q hq
    · exact h.alloc_endp
  term := hterm
  count := hcount
  load := hload
  ends := ⟨hends.1.trans h.ends.1, hends.2.trans h.ends.2⟩

theorem enqueueSec_eq (hp : c.Alloc p) (hnew : p ∉ c.front :: L ++ [c.endp]) :
    c.enqueueSec p = (strlen (c.entry p).payload >>= fun n => .ok { c with
      links := c.links.linkBefore p c.endp
      cacheCount := c.cacheCount + 1
      cacheLoad := c.cacheLoad + n }) := by
  have hpe : p ≠ c.endp := fun e => hnew (e ▸ by simp)
  have hlast : c.Alloc (c.links.prev c.endp) :=
    h.alloc _ (List.mem_append_left _ h.list.prev_end_mem)
  simp only [Cache.enqueueSec, getPrev, setPrev, setNext, payloadLen, deref, check_of hp, ok_bind,
    check_of h.alloc_endp, pure_eq_ok, Links.setPrev_prev, Links.setNext_prev,
    Function.update_of_ne hpe, Function.update_self, check_of hlast]
  rfl

/-- **`enqueue`** appends a node to the queue. -/
theorem enqueueSec (hp : c.Alloc p) (hnew : p ∉ c.front :: L ++ [c.endp])
    (hs : c.enqueueSec p = .ok c') : c'.Repr (L ++ [p]) ∧ SameNodes c c' := by
  rw [h.enqueueSec_eq hp hnew] at hs
  obtain ⟨n, hn, hs⟩ := bind_ok_iff.mp hs
  obtain ⟨hterm, rfl⟩ := strlen_eq_ok.mp hn
  cases hs
  refine ⟨h.relink (h.list.linkBefore hnew) ?_ ?_ ?_ ?_ (h.list.linkBefore_ends hnew),
    ⟨rfl, rfl, rfl, rfl⟩⟩
  · simp only [List.forall_mem_append, List.forall_mem_singleton]
    exact ⟨fun q hq => h.alloc_mem hq, hp⟩
  · simp only [List.forall_mem_append, List.forall_mem_singleton]
    exact ⟨h.term, hterm⟩
  · rw [h.count, List.length_append]
    rfl
  · rw [h.load, List.map_append, List.sum_append, List.map_singleton, List.sum_singleton]
    rfl

theorem exists_enqueueSec (hp : c.Alloc p) (hnew : p ∉ c.front :: L ++ [c.endp])
    (hterm : 0 ∈ (c.entry p).payload) : ∃ c', c.enqueueSec p = .ok c' :=
  ⟨_, by rw [h.enqueueSec_eq hp hnew, strlen_of_mem hterm]; rfl⟩

/-- **`dequeue`** finds an empty queue. -/
theorem dequeueSec_nil (hL : L = []) : c.dequeueSec = .ok (0, c) := by
  simp [Cache.dequeueSec, h.isEmpty, hL]

theorem dequeueSec_eq {ps : List Ptr} (hL : L = p :: ps) :
    c.dequeueSec = .ok (p, { c with
      links := c.links.unlink p
      cacheCount := c.cacheCount - 1
      cacheLoad := subSize c.cacheLoad (c.size p) }) := by
  subst hL
  obtain ⟨hnext, hprev, -⟩ := h.list.head
  have hp := h.alloc_mem (p := p) List.mem_cons_self
  have hlist : IsList c.links c.front ([] ++ p :: ps) c.endp := h.list
  obtain ⟨-, hmem, -, -, -⟩ := hlist.neighbours
  have hn := h.alloc (c.links.next p) (List.mem_cons_of_mem _ (List.mem_cons_of_mem _ hmem))
  simp only [Cache.dequeueSec, h.isEmpty, ok_bind, getNext, setNext, setPrev, payloadLen, deref,
    check_of h.alloc_front, pure_eq_ok, hnext, check_of hp, check_of hn,
    strlen_of_mem (h.term p List.mem_cons_self), Links.setNext_next, Function.update_self,
    Links.unlink, hprev]
  rfl

/-- **`dequeue`** takes the first node out. -/
theorem dequeueSec_cons {ps : List Ptr} (hL : L = p :: ps) :
    ∃ c', c.dequeueSec = .ok (p, c') ∧ c'.Repr ps ∧ SameNodes c c' := by
  have heq := h.dequeueSec_eq hL
  subst hL
  have hlist : IsList c.links c.front ([] ++ p :: ps) c.endp := h.list
  have hload := h.load
  rw [List.map_cons, List.sum_cons] at hload
  refine ⟨_, heq, h.relink hlist.unlink ?_ ?_ ?_ ?_ hlist.unlink_ends, ⟨rfl, rfl, rfl, rfl⟩⟩
  · exact fun q hq => h.alloc_mem (List.mem_cons_of_mem _ hq)
  · exact fun q hq => h.term q (List.mem_cons_of_mem _ hq)
  · rw [h.count, List.length_cons]
    omega
  · rw [subSize, if_pos (by omega)]
    omega

theorem dequeueSec_some (hs : c.dequeueSec = .ok (p, c')) (hp : p ≠ 0) :
    ∃ ps, L = p :: ps ∧ c'.Repr ps ∧ SameNodes c c' := by
  cases L with
  | nil =>
    rw [h.dequeueSec_nil rfl] at hs
    cases hs
    exact absurd rfl hp
  | cons d ps =>
    obtain ⟨c'', hs', hR, hS⟩ := h.dequeueSec_cons rfl
    cases hs.symm.trans hs'
    exact ⟨ps, rfl, hR, hS⟩

theorem dequeueSec_null (hs : c.dequeueSec = .ok (0, c')) : L = [] ∧ c' = c := by
  cases L with
  | nil =>
    rw [h.dequeueSec_nil rfl] at hs
    cases hs
    exact ⟨rfl, rfl⟩
  | cons d ps =>
    obtain ⟨c'', hs', -, -⟩ := h.dequeueSec_cons rfl
    cases hs.symm.trans hs'
    exact absurd rfl (h.alloc_mem (p := 0) List.mem_cons_self).1

theorem updateSec_eq {ps qs : List Ptr} (hL : L = ps ++ p :: qs) :
    c.updateSec p = .ok { c with links := (c.links.unlink p).linkBefore p c.endp } := by
  subst hL
  have hp := h.alloc_mem (p := p) (by simp)
  obtain ⟨hprev, hnext, hpp, hpn, hout⟩ := h.list.neighbours
  have hpa := h.alloc (c.links.prev p) (by
    rw [nodes_split]
    exact List.mem_append_left _ hprev)
  have hna := h.alloc (c.links.next p) (by
    rw [nodes_split]
    exact List.mem_append_right _ (List.mem_cons_of_mem _ hnext))
  have hpe : p ≠ c.endp := fun e => hout (by rw [e]; simp)
  have hlast : c.Alloc ((c.links.unlink p).prev c.endp) := by
    refine h.alloc _ (List.mem_append_left _ ?_)
    have := h.list.unlink.prev_end_mem
    simp only [List.mem_cons, List.mem_append] at this ⊢
    tauto
  simp only [Links.unlink, Links.setPrev_prev, Links.setNext_prev] at hlast
  simp only [Cache.updateSec, getNext, getPrev, setNext, setPrev, deref, check_of hp, check_of hpa,
    check_of hna, check_of h.alloc_endp, ok_bind, pure_eq_ok, Links.setNext_next,
    Links.setPrev_prev, Links.setNext_prev, Function.update_of_ne hpe,
    Function.update_of_ne (Ne.symm hpp), Function.update_self, check_of hlast]
  rfl

/-- **`update`** moves a node of the queue to its end. -/
theorem updateSec {ps qs : List Ptr} (hL : L = ps ++ p :: qs) :
    ∃ c', c.updateSec p = .ok c' ∧ c'.Repr (ps ++ qs ++ [p]) ∧ SameNodes c c' ∧
      c'.cacheCount = c.cacheCount ∧ c'.cacheLoad = c.cacheLoad := by
  have heq := h.updateSec_eq hL
  subst hL
  obtain ⟨-, -, -, -, hout⟩ := h.list.neighbours
  have hun := h.list.unlink
  have hends := h.list.unlink_ends
  have hends' := hun.linkBefore_ends hout
  have hperm := Lru.perm_touch p ps qs
  refine ⟨_, heq, h.relink (hun.linkBefore hout) ?_ ?_ ?_ ?_
    ⟨hends'.1.trans hends.1, hends'.2.trans hends.2⟩, ⟨rfl, rfl, rfl, rfl⟩, rfl, rfl⟩
  · exact fun q hq => h.alloc_mem (hperm.mem_iff.mp hq)
  · exact fun q hq => h.term q (hperm.mem_iff.mp hq)
  · rw [h.count, hperm.length_eq]
  · rw [h.load, (hperm.map c.size).sum_eq]

/-! ## Read sections -/

theorem findLoop_eq {ps : List Ptr} (qs : List Ptr) {e : Ptr} (hL : L = ps ++ qs)
    (hps : IsList c.links c.front ps e) (key : Key) (fuel : ℕ) (hf : ps.length < fuel) :
    c.findLoop key fuel (c.links.prev e) =
      .ok (ps.reverse.find? fun p => (c.entry p).key.isMatch key) := by
  induction ps using List.reverseRecOn generalizing e qs fuel with
  | nil =>
    obtain ⟨fuel, rfl⟩ : ∃ k, fuel = k + 1 := ⟨fuel - 1, by omega⟩
    rw [Cache.findLoop, (isList_nil.mp hps).2.1]
    simp
  | append_singleton ps x ih =>
    obtain ⟨fuel, rfl⟩ : ∃ k, fuel = k + 1 := ⟨fuel - 1, by omega⟩
    obtain ⟨hx, -, hinit⟩ := hps.last
    have hxf : x ≠ c.front := Ne.symm (hinit.ne_end List.mem_cons_self)
    have hxa : c.Alloc x := h.alloc_mem (by rw [hL]; simp)
    rw [List.length_append, List.length_singleton] at hf
    have hrec := ih (x :: qs) (by rw [hL, List.append_assoc]; rfl) hinit fuel (by omega)
    rw [Cache.findLoop, hx, List.reverse_append, List.reverse_singleton, List.singleton_append,
      List.find?_cons]
    simp only [hxf, ne_eq, not_false_eq_true, if_true, isMatch, getPrev, deref_of hxa, ok_bind,
      pure_eq_ok, hrec]
    cases (c.entry x).key.isMatch key <;> rfl

/-- **`is_cached` finds** the matching node nearest to the end of the queue. -/
theorem findSec_eq (key : Key) {fuel : ℕ} (hf : L.length < fuel) :
    c.findSec fuel key = .ok (L.reverse.find? fun p => (c.entry p).key.isMatch key) := by
  have hloop := h.findLoop_eq [] (List.append_nil L).symm h.list key fuel hf
  simp only [Cache.findSec, h.isEmpty, ok_bind, getPrev, deref_of h.alloc_endp, pure_eq_ok, hloop]
  split_ifs with hL
  · have hnil : L = [] := by simpa using hL
    simp [hnil]
  · rfl

theorem findSec_ok {key : Key} {fuel : ℕ} {r : Option Ptr} (hr : c.findSec fuel key = .ok r) :
    r = L.reverse.find? fun p => (c.entry p).key.isMatch key := by
  have hbig := findSec_mono (Nat.le_add_right fuel (L.length + 1)) hr
  rw [h.findSec_eq key (by omega)] at hbig
  exact (Except.ok.inj hbig).symm

theorem checkLoop_eq {ps : List Ptr} (qs : List Ptr) {e : Ptr} (hL : c.front :: L = qs ++ e :: ps)
    (hps : IsList c.links e ps c.endp) (fuel count : ℕ) (hf : ps.length < fuel) :
    c.checkLoop fuel (c.links.next e) count = .ok (count + ps.length) := by
  induction ps generalizing e qs fuel count with
  | nil =>
    obtain ⟨fuel, rfl⟩ : ∃ k, fuel = k + 1 := ⟨fuel - 1, by omega⟩
    rw [Cache.checkLoop, (isList_nil.mp hps).1]
    simp
  | cons x ps ih =>
    obtain ⟨fuel, rfl⟩ : ∃ k, fuel = k + 1 := ⟨fuel - 1, by omega⟩
    obtain ⟨hx, hxe, htail⟩ := hps.head
    have hxn : x ≠ c.endp := hps.ne_end (by simp)
    have hmem : ∀ q ∈ e :: x :: ps, c.Alloc q := fun q hq =>
      h.alloc q (List.mem_append_left _ (by rw [hL]; exact List.mem_append_right _ hq))
    have hea := hmem e (by simp)
    have hxa := hmem x (by simp)
    rw [List.length_cons] at hf
    have hrec := ih (qs ++ [e]) (by rw [hL]; simp) htail fuel (count + 1) (by omega)
    rw [Cache.checkLoop, hx]
    simp only [hxn, ne_eq, not_false_eq_true, if_true, getPrev, getNext, deref_of hxa, ok_bind,
      pure_eq_ok, hxe, deref_of hea, hx, check_of trivial, hrec, List.length_cons]
    congr 1
    omega

/-- **No `assert` of `cache_check` fails.** -/
theorem cacheCheck_eq {fuel : ℕ} (hf : L.length < fuel) : c.cacheCheck fuel = .ok () := by
  have hloop := h.checkLoop_eq [] rfl h.list fuel 0 hf
  simp only [Cache.cacheCheck, h.isEmpty, getPrev, getNext, deref_of h.alloc_front,
    deref_of h.alloc_endp, ok_bind, pure_eq_ok, h.ends.1, h.ends.2, hloop, h.count]
  by_cases hL : L = []
  · simp [hL, check]
  · simp [hL, check]

/-! ## Nodes outside of the queue -/

theorem of_agree (hl : c'.links = c.links) (hf : c'.front = c.front) (he : c'.endp = c.endp)
    (hc : c'.cacheCount = c.cacheCount) (hload : c'.cacheLoad = c.cacheLoad)
    (halloc : ∀ q ∈ c.front :: L ++ [c.endp], c'.Alloc q)
    (hentry : ∀ q ∈ L, c'.entry q = c.entry q) : c'.Repr L where
  list := by
    rw [hl, hf, he]
    exact h.list
  alloc := by rwa [hf, he]
  term := fun q hq => by
    rw [hentry q hq]
    exact h.term q hq
  count := hc.trans h.count
  load := by
    rw [hload, h.load, List.map_congr_left fun q hq => ?_]
    rw [size, size, hentry q hq]
  ends := by
    rw [hl, hf, he]
    exact h.ends

theorem not_mem_of_free (hp : c.live p = false) : p ∉ c.front :: L ++ [c.endp] := fun hm => by
  have := (h.alloc p hm).2
  rw [hp] at this
  cases this

theorem not_mem (hp : c.live p = false) : p ∉ L := by
  intro hm
  apply h.not_mem_of_free hp
  simp [hm]

/-- **`new_node`** leaves the queue as it is. -/
theorem newNode {junk payload : List UInt8} {key : Key} {bytesize : ℕ} (hp : c.live p = false)
    (hs : c.newNode p junk key payload bytesize = .ok c') :
    c'.Repr L ∧ c'.front = c.front ∧ c'.endp = c.endp ∧ bytesize ≤ (cstr payload).length + 1 ∧
      c'.live = Function.update c.live p true ∧
      c'.entry = Function.update c.entry p ⟨key, payload.take bytesize ++ junk, bytesize⟩ := by
  obtain ⟨-, hle, rfl⟩ := newNode_eq_ok.mp hs
  have hnew := h.not_mem_of_free hp
  refine ⟨h.of_agree rfl rfl rfl rfl rfl (fun q hq => ?_) (fun q hq => ?_), rfl, rfl, hle, rfl, rfl⟩
  · have hqp : q ≠ p := fun e => hnew (e ▸ hq)
    have := h.alloc q hq
    exact ⟨this.1, by simpa [hqp] using this.2⟩
  · have hqp : q ≠ p := fun e => hnew (by simp [← e, hq])
    exact Function.update_of_ne hqp _ _

/-- **`free_node`** of a node outside of the queue. -/
theorem freeNode (hp : p ∉ c.front :: L ++ [c.endp]) (hs : c.freeNode p = .ok c') :
    c'.Repr L ∧ c'.front = c.front ∧ c'.endp = c.endp ∧ c.Alloc p ∧
      c'.live = Function.update c.live p false ∧ c'.entry = c.entry := by
  obtain ⟨_, ha, hs⟩ := bind_ok_iff.mp hs
  cases hs
  refine ⟨h.of_agree rfl rfl rfl rfl rfl (fun q hq => ?_) (fun q hq => rfl), rfl, rfl,
    check_eq_ok.mp ha, rfl, rfl⟩
  have hqp : q ≠ p := fun e => hp (e ▸ hq)
  have := h.alloc q hq
  exact ⟨this.1, by simpa [hqp] using this.2⟩

end Repr

end MiniProxy.Cache

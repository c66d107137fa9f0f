import MiniProxy.Cache.Calls

/-!
# The queue, operation by operation

`enqueue`, `dequeue` and `update` on the doubly linked list are the operations on the abstract queue `L`
that the list represents, and touch nothing else.

* `OnlyLinks`: two heaps that differ in counters and in the links of some nodes only;
* `Repr.enqueue`, `Repr.dequeue_nil`, `Repr.dequeue_head`, `Repr.update`: the functions, each with its
  `cache_check`;
* **`queue_refines`**: the functions on the heap are the operations on the queue.
-/

namespace MiniProxy.Cache

open Clib DList

/-- Only the counters and the links of the nodes `S` differ. -/
structure OnlyLinks (c c' : Cache) (S : List Ptr) : Prop where
  nodes : SameNodes c c'
  links : c.links.AgreeOff S c'.links

variable {c : Cache} {L : List Ptr} {p : Ptr}

theorem erase_append {ps qs : List Ptr} (hL : L = ps ++ p :: qs) (hnd : L.Nodup) :
    L.erase p ++ [p] = ps ++ qs ++ [p] := by
  subst hL
  have hp : p ∉ ps := by
    intro h
    exact (List.nodup_append.mp hnd).2.2 p h p List.mem_cons_self rfl
  rw [List.erase_append_right _ hp, List.erase_cons_head]

namespace Repr

variable (h : c.Repr L)

include h

theorem cacheCheck_returns : Returns (fun fuel => c.cacheCheck fuel) () :=
  ⟨L.length + 1, fun _ hf => h.cacheCheck_eq hf⟩

theorem nodup : L.Nodup :=
  (List.nodup_append.mp (List.nodup_cons.mp h.list.nodup).2).1

/-- **`enqueue`.** -/
theorem enqueue (ha : c.Alloc p) (hterm : 0 ∈ (c.entry p).payload)
    (hnew : p ∉ c.front :: L ++ [c.endp]) :
    ∃ c', Returns (fun fuel => c.enqueue fuel p) c' ∧ c'.Repr (L ++ [p]) ∧
      OnlyLinks c c' [p, c.links.prev c.endp, c.endp] := by
  obtain ⟨c', hs⟩ := h.exists_enqueueSec ha hnew hterm
  obtain ⟨hR, hS⟩ := h.enqueueSec ha hnew hs
  refine ⟨c', ⟨(L ++ [p]).length + 1, fun fuel hf => ?_⟩, hR, hS, ?_⟩
  · simp only [Cache.enqueue, hs, ok_bind, hR.cacheCheck_eq (show (L ++ [p]).length < fuel by omega),
      pure_eq_ok]
  · rw [h.enqueueSec_eq ha hnew] at hs
    obtain ⟨n, -, hs⟩ := bind_ok_iff.mp hs
    cases hs
    exact agreeOff_linkBefore c.links p c.endp

/-- **`dequeue`** of an empty queue. -/
theorem dequeue_nil (hL : L = []) : Returns (fun fuel => c.dequeue fuel) (0, c) :=
  ⟨0, fun fuel _ => by simp only [Cache.dequeue, h.dequeueSec_nil hL, ok_bind, if_true, pure_eq_ok]⟩

/-- **`dequeue`** of a queue with a first node. -/
theorem dequeue_head {ps : List Ptr} (hL : L = p :: ps) :
    ∃ c', Returns (fun fuel => c.dequeue fuel) (p, c') ∧ c'.Repr ps ∧
      OnlyLinks c c' [c.front, c.links.next p] := by
  obtain ⟨c', hR, hS, hall⟩ := h.dequeue_cons hL
  refine ⟨c', ⟨ps.length + 1, fun fuel hf => hall fuel hf⟩, hR, hS, ?_⟩
  have hprev : c.links.prev p = c.front := by
    subst hL
    exact h.list.head.2.1
  obtain ⟨r, hs, hd⟩ := bind_ok_iff.mp (hall (ps.length + 1) (Nat.lt_succ_self _))
  rw [h.dequeueSec_eq hL] at hs
  cases hs
  simp only at hd
  have hp : p ≠ 0 := (h.alloc_mem (p := p) (by rw [hL]; exact List.mem_cons_self)).1
  rw [if_neg hp] at hd
  obtain ⟨_, -, hd⟩ := bind_ok_iff.mp hd
  cases hd
  rw [← hprev]
  exact agreeOff_unlink c.links p

/-- **`update`** of a node of the queue. -/
theorem update (hp : p ∈ L) :
    ∃ c', Returns (fun fuel => c.update fuel p) c' ∧ c'.Repr (L.erase p ++ [p]) ∧
      c'.cacheCount = c.cacheCount ∧ c'.cacheLoad = c.cacheLoad ∧
      OnlyLinks c c' [p, c.links.prev p, c.links.next p, c.links.prev c.endp, c.endp] := by
  obtain ⟨ps, qs, hL⟩ := List.append_of_mem hp
  obtain ⟨c', hs, hR, hS, hcount, hload⟩ := h.updateSec hL
  rw [← erase_append hL h.nodup] at hR
  refine ⟨c', ⟨(L.erase p ++ [p]).length + 1, fun fuel hf => ?_⟩, hR, hcount, hload, hS, ?_⟩
  · simp only [Cache.update, hs, ok_bind, pure_eq_ok,
      hR.cacheCheck_eq (show (L.erase p ++ [p]).length < fuel by omega)]
  · rw [h.updateSec_eq hL] at hs
    cases hs
    exact agreeOff_move c.links p c.endp

end Repr

/-- **The linked list implements the queue.** In a heap that represents the queue `L`, `enqueue` of
another node gives a heap for `L` followed by it; `dequeue` gives `NULL` and the heap itself when `L` is
empty, and else the first node and a heap for the rest; `update` gives a heap for `L` with the node moved
to the end, and leaves the counters; none of them touches a key, a payload or a size, or a link of a node
that is not next to the change; `is_empty` tells whether `L` is empty; and no `assert` of `cache_check`
fails, neither after one of these calls nor otherwise. -/
theorem queue_refines (h : c.Repr L) :
    (∀ p, c.Alloc p → 0 ∈ (c.entry p).payload → p ∉ c.front :: L ++ [c.endp] →
      ∃ c', Returns (fun fuel => c.enqueue fuel p) c' ∧ c'.Repr (L ++ [p]) ∧
        OnlyLinks c c' [p, c.links.prev c.endp, c.endp]) ∧
    (L = [] → Returns (fun fuel => c.dequeue fuel) (0, c)) ∧
    (∀ p ps, L = p :: ps → ∃ c', Returns (fun fuel => c.dequeue fuel) (p, c') ∧ c'.Repr ps ∧
      OnlyLinks c c' [c.front, c.links.next p]) ∧
    (∀ p, p ∈ L → ∃ c', Returns (fun fuel => c.update fuel p) c' ∧ c'.Repr (L.erase p ++ [p]) ∧
      c'.cacheCount = c.cacheCount ∧ c'.cacheLoad = c.cacheLoad ∧
      OnlyLinks c c' [p, c.links.prev p, c.links.next p, c.links.prev c.endp, c.endp]) ∧
    c.isEmpty = .ok (decide (L = [])) ∧ Returns (fun fuel => c.cacheCheck fuel) () :=
  ⟨fun _ ha hterm hnew => h.enqueue ha hterm hnew, h.dequeue_nil, fun _ _ hL => h.dequeue_head hL,
    fun _ hp => h.update hp, h.isEmpty, h.cacheCheck_returns⟩

/-- A heap with the queue `3`, `4`: `dequeue` takes `3`, and `update` moves it behind `4`. -/
theorem queue_refines_two : ∃ c : Cache, c.Repr [3, 4] ∧
    (∃ c', Returns (fun fuel => c.dequeue fuel) (3, c') ∧ c'.Repr [4]) ∧
    ∃ c', Returns (fun fuel => c.update fuel 3) c' ∧ c'.Repr [4, 3] := by
  let c₀ : Cache := { emptyCache with
    live := fun p => decide (p ≤ 4)
    entry := fun _ => ⟨⟨[], [], []⟩, [0], 0⟩ }
  have h₀ : c₀.Repr [] := isInit_emptyCache.repr.of_agree rfl rfl rfl rfl rfl
    (fun q hq => by
      rcases List.mem_pair.mp hq with rfl | rfl <;> exact ⟨by decide, by decide⟩)
    (fun q hq => absurd hq List.not_mem_nil)
  obtain ⟨c₁, -, h₁, hS₁⟩ := h₀.enqueue (p := 3) ⟨by decide, by decide⟩ (by decide) (by decide)
  obtain ⟨c₂, -, h₂, hS₂⟩ := h₁.enqueue (p := 4)
    ((hS₁.nodes.alloc 4).mpr ⟨by decide, by decide⟩)
    (by rw [hS₁.nodes.entry]; decide)
    (by rw [hS₁.nodes.front, hS₁.nodes.endp]; decide)
  obtain ⟨-, -, hdequeue, hupdate, -⟩ := queue_refines h₂
  obtain ⟨c₃, hret₃, hR₃, -⟩ := hdequeue 3 [4] rfl
  obtain ⟨c₄, hret₄, hR₄, -⟩ := hupdate 3 (by decide)
  exact ⟨c₂, h₂, ⟨c₃, hret₃, hR₃⟩, c₄, hret₄, hR₄⟩

end MiniProxy.Cache

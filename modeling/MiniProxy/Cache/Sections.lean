import MiniProxy.Cache.Points
import MiniProxy.Cache.Integrity

/-!
# Write sections, statement by statement

The statements of a write section, one after the other, compute what the section is as one step, and
what they have done to links and counters on the way does not depend on the nodes outside of the queue.

* `run`: statements one after the other; `run_link`, `run_unlink`, `run_promote`: the sections;
* `Sec.Ready`, `exists_run`: before a section that runs to its end;
* `withNodes`, `Access.relink`, **`run_nodes`**: statements on links do the same with other nodes.
-/

namespace MiniProxy.CacheCode

open Clib
open Cache (Repr SameNodes Inv)

/-- The statements `as`, one after the other. -/
def run (as : List Access) (z : Cache × Vars) : Exec (Cache × Vars) :=
  as.foldlM (fun z a => a.eval 0 [] z.1 z.2) z

@[simp] theorem run_nil (z : Cache × Vars) : run [] z = .ok z := rfl

theorem run_cons (a : Access) (as : List Access) (z : Cache × Vars) :
    run (a :: as) z = a.eval 0 [] z.1 z.2 >>= run as := rfl

theorem run_append (as bs : List Access) (z : Cache × Vars) :
    run (as ++ bs) z = run as z >>= run bs := List.foldlM_append

theorem run_single (a : Access) (z : Cache × Vars) : run [a] z = a.eval 0 [] z.1 z.2 := by
  rw [run_cons]
  cases a.eval 0 [] z.1 z.2 <;> rfl

theorem eval_fresh {a : Access} (ha : a ≠ .newNode) (fresh : Ptr) (junk : List UInt8) (c : Cache)
    (x : Vars) : a.eval fresh junk c x = a.eval 0 [] c x := by
  cases a <;> first | rfl | exact absurd rfl ha

/-! ## Sections -/

section Sections

variable (c : Cache) (x : Vars)

theorem run_link : run Sec.link.accesses (c, x) = (do return (← c.enqueueSec x.node, x)) := by
  simp only [Sec.accesses, run_cons, Access.eval, Cache.enqueueSec, bind_assoc, pure_bind]
  rfl

theorem run_promote : run Sec.promote.accesses (c, x) = (do return (← c.updateSec x.tomove, x)) := by
  simp only [Sec.accesses, run_cons, Access.eval, Cache.updateSec, bind_assoc, pure_bind]
  rfl

theorem run_unlink (h : c.isEmpty = .ok false) : run Sec.unlink.accesses (c, x) = (do
    let r ← c.dequeueSec
    return (r.2, { x with del := r.1 })) := by
  simp only [Sec.accesses, run_cons, Access.eval, Cache.dequeueSec, h, ok_bind,
    Bool.false_eq_true, if_false, bind_assoc, pure_bind]
  rfl

end Sections

/-- What a write section needs besides an intact queue. -/
def Sec.Ready (c : Cache) (L : List Ptr) (x : Vars) : Sec → Prop
  | .link => 0 ∈ (c.entry x.node).payload
  | .unlink => L ≠ []
  | .promote => x.tomove = x.p

/-- The place of a thread in the section, where a section is one step. -/
def Sec.pc (x : Vars) : Sec → Cache.Pc
  | .link => .link x.node
  | .unlink => .unlink
  | .promote => .promote x.key x.p

variable {c d : Cache} {x y : Vars} {L : List Ptr} {sec : Sec}

theorem exists_run {ι : Type*} {pc : ι → Cache.Pc} (h : Inv c pc L) {i : ι} (hpc : pc i = sec.pc x)
    (hready : sec.Ready c L x) : ∃ z, run sec.accesses (c, x) = .ok z := by
  cases sec with
  | link =>
    obtain ⟨ha, hout⟩ := h.owned i x.node (by rw [hpc]; rfl)
    obtain ⟨c', hc'⟩ := h.repr.exists_enqueueSec ha hout hready
    exact ⟨_, by rw [run_link, hc']; rfl⟩
  | unlink =>
    obtain ⟨p, ps, rfl⟩ := List.exists_cons_of_ne_nil hready
    obtain ⟨c', hc', -, -⟩ := h.repr.dequeueSec_cons rfl
    exact ⟨_, by rw [run_unlink _ _ (by rw [h.repr.isEmpty]; rfl), hc']; rfl⟩
  | promote =>
    obtain ⟨ps, qs, rfl⟩ := List.append_of_mem (h.found i x.key x.p hpc)
    obtain ⟨c', hc', -, -, -, -⟩ := h.repr.updateSec rfl
    rw [show x.p = x.tomove from Eq.symm hready] at hc'
    exact ⟨_, by rw [run_promote, hc']; rfl⟩

/-! ## Other nodes -/

/-- Other nodes outside of the queue. -/
def withNodes (c : Cache) (l : Ptr → Bool) (e : Ptr → Entry) : Cache := { c with live := l, entry := e }

/-- The statements that touch links and counters only. -/
def Access.links : Access → Bool
  | .nodePrev | .nodeNext | .endPrev | .nodePrevNext | .countInc | .delFirst | .frontNext
  | .frontNextPrev | .countDec | .tomovePrevNext | .tomoveNextPrev | .tomoveNext | .tomovePrev
  | .endPrevTomove => true
  | _ => false

theorem getNext_eq_ok {p q : Ptr} : c.getNext p = .ok q ↔ c.Alloc p ∧ c.links.next p = q := by
  simp [Cache.getNext, Cache.deref, bind_ok_iff]

theorem getPrev_eq_ok {p q : Ptr} : c.getPrev p = .ok q ↔ c.Alloc p ∧ c.links.prev p = q := by
  simp [Cache.getPrev, Cache.deref, bind_ok_iff]

theorem setNext_eq_ok {p q : Ptr} :
    c.setNext p q = .ok d ↔ c.Alloc p ∧ { c with links := c.links.setNext p q } = d := by
  simp [Cache.setNext, Cache.deref, bind_ok_iff]

theorem setPrev_eq_ok {p q : Ptr} :
    c.setPrev p q = .ok d ↔ c.Alloc p ∧ { c with links := c.links.setPrev p q } = d := by
  simp [Cache.setPrev, Cache.deref, bind_ok_iff]

/-- What a statement on links and counters does where it works. -/
def Access.relink (c : Cache) (x : Vars) : Access → Cache × Vars
  | .nodePrev => ({ c with links := c.links.setPrev x.node (c.links.prev c.endp) }, x)
  | .nodeNext => ({ c with links := c.links.setNext x.node c.endp }, x)
  | .endPrev => ({ c with links := c.links.setPrev c.endp x.node }, x)
  | .nodePrevNext => ({ c with links := c.links.setNext (c.links.prev x.node) x.node }, x)
  | .countInc => ({ c with cacheCount := c.cacheCount + 1 }, x)
  | .delFirst => (c, { x with del := c.links.next c.front })
  | .frontNext => ({ c with links := c.links.setNext c.front (c.links.next x.del) }, x)
  | .frontNextPrev => ({ c with links := c.links.setPrev (c.links.next c.front) c.front }, x)
  | .countDec => ({ c with cacheCount := c.cacheCount - 1 }, x)
  | .tomovePrevNext =>
    ({ c with links := c.links.setNext (c.links.prev x.tomove) (c.links.next x.tomove) }, x)
  | .tomoveNextPrev =>
    ({ c with links := c.links.setPrev (c.links.next x.tomove) (c.links.prev x.tomove) }, x)
  | .tomoveNext => ({ c with links := c.links.setNext x.tomove c.endp }, x)
  | .tomovePrev => ({ c with links := c.links.setPrev x.tomove (c.links.prev c.endp) }, x)
  | .endPrevTomove => ({ c with links := c.links.setPrev c.endp x.tomove }, x)
  | _ => (c, x)

theorem relink_eq {a : Access} (ha : a.links = true) {z : Cache × Vars}
    (h : a.eval 0 [] c x = .ok z) : z = a.relink c x := by
  cases a <;> simp only [Access.links, Bool.false_eq_true] at ha <;>
    simp [Access.eval, bind_ok_iff, getNext_eq_ok, getPrev_eq_ok, setNext_eq_ok,
      setPrev_eq_ok] at h <;>
    simp [Access.relink, h]

theorem relink_nodes (a : Access) (c : Cache) (x : Vars) (l : Ptr → Bool) (e : Ptr → Entry) :
    a.relink (withNodes c l e) x = (withNodes (a.relink c x).1 l e, (a.relink c x).2) := by
  cases a <;> rfl

theorem sameNodes_relink (a : Access) (c : Cache) (x : Vars) :
    SameNodes c (a.relink c x).1 ∧ (a.relink c x).1.cacheLoad = c.cacheLoad := by
  cases a <;> exact ⟨⟨rfl, rfl, rfl, rfl⟩, rfl⟩

/-- **Where statements on links work in both heaps, they do the same.** -/
theorem run_nodes {as : List Access} (has : ∀ a ∈ as, a.links = true) {l : Ptr → Bool}
    {e : Ptr → Entry} {z : Cache × Vars} (h : run as (c, x) = .ok (d, y))
    (h' : run as (withNodes c l e, x) = .ok z) : z = (withNodes d l e, y) := by
  induction as generalizing c x with
  | nil =>
    cases h
    cases h'
    rfl
  | cons a as ih =>
    have ha := has a List.mem_cons_self
    obtain ⟨w, hw, h⟩ := bind_ok_iff.mp h
    obtain ⟨w', hw', h'⟩ := bind_ok_iff.mp h'
    obtain rfl := relink_eq ha hw
    obtain rfl := relink_eq ha hw'
    rw [relink_nodes] at h'
    exact ih (fun b hb => has b (List.mem_cons_of_mem a hb)) h h'

theorem links_of_mem_take {k : ℕ} (hk : k < sec.accesses.length) {a : Access}
    (ha : a ∈ sec.accesses.take k) : a.links = true := by
  have hall : ∀ b ∈ sec.accesses.dropLast, b.links = true := by cases sec <;> decide
  refine hall a ?_
  rw [List.dropLast_eq_take]
  exact List.take_subset_take_left _ (by omega) ha

end MiniProxy.CacheCode

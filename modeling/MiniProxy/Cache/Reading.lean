import Mathlib.Data.List.Find
import MiniProxy.Cache.Sections

/-!
# What a thread knows at each point

* `Point.pc`: the place of a thread at a point, where a section is one step;
* `Standing`, `Counting`, `Point.Holds`: what the walks of `is_cached` and `cache_check` have seen, and
  what holds at each point;
* `Point.Holds.outside`, **`Point.Holds.beside`**: other threads do not invalidate it;
* **`read_step`**, **`read_test`**: the statements and tests of the read sections.
-/

namespace MiniProxy.CacheCode

open Clib Code
open Cache (Repr SameNodes Inv)

/-- The place of a thread in the `cache_check` that follows a write section. -/
def Sec.checkPc (x : Vars) : Sec → Cache.Pc
  | .link => .linkCheck
  | .unlink => .unlinkCheck x.del
  | .promote => .promoteCheck x.key x.p

/-- The place of a thread at a point, where a section is one step. -/
def Point.pc (x : Vars) : Point → Cache.Pc
  | .idle => .idle
  | .findWait | .findEmpty | .findLast | .findLoop | .findMatch | .findPrev | .findMissed
  | .findFound => .find x.key
  | .found | .passed | .promoteWait => .promote x.key x.p
  | .copying => .copyOut x.key x.p
  | .newing => .alloc x.key x.payload x.bytesize
  | .linkWait => .link x.node
  | .testIf => .testIf
  | .testWhile => .testWhile
  | .unlinkWait | .unlinkTest | .unlinkNull => .unlink
  | .freeing => .release x.del
  | .write sec _ => sec.pc x
  | .check sec _ => sec.checkPc x

/-- The node that `is_cached` looks for. -/
abbrev sought (c : Cache) (L : List Ptr) (x : Vars) : Option Ptr :=
  L.reverse.find? fun q => (c.entry q).key.isMatch x.key

/-- The loop of `is_cached` is at a node of the queue, or at `front`; no node behind it matches. -/
def Standing (c : Cache) (L : List Ptr) (x : Vars) : Prop :=
  ∃ pre post, c.front :: L = pre ++ x.p :: post ∧
    ∀ q ∈ post, (c.entry q).key.isMatch x.key = false

/-- The loop of `cache_check` is at a node of the queue, or at `end`, with `n` nodes before it. -/
def Counting (c : Cache) (L : List Ptr) (x : Vars) (n : ℕ) : Prop :=
  ∃ pre post, L ++ [c.endp] = pre ++ x.check :: post ∧ pre.length = n

/-- What holds at a point of `cache_check`. -/
def Check.Holds (c : Cache) (L : List Ptr) (x : Vars) : Check → Prop
  | .assertEmpty => L = []
  | .loop => Counting c L x x.count
  | .count => Counting c L x x.count ∧ x.check ≠ c.endp
  | .linked | .next => ∃ n, x.count = n + 1 ∧ Counting c L x n ∧ x.check ≠ c.endp
  | .total => x.count = L.length
  | _ => True

/-- What holds at a point, where the queue of `c` is `L` and the statements of an unfinished write
section have made `d` of it. -/
def Point.Holds (c d : Cache) (L : List Ptr) (x : Vars) : Point → Prop
  | .findLast => L ≠ []
  | .findLoop => Standing c L x
  | .findMatch => Standing c L x ∧ x.p ≠ c.front
  | .findPrev => Standing c L x ∧ x.p ≠ c.front ∧ (c.entry x.p).key.isMatch x.key = false
  | .findMissed => sought c L x = none
  | .findFound => sought c L x = some x.p
  | .passed => x.node = x.p
  | .promoteWait => x.tomove = x.p
  | .linkWait => 0 ∈ (c.entry x.node).payload
  | .unlinkTest => d = c
  | .unlinkNull => False
  | .freeing => x.del ≠ 0
  | .write sec k => sec.Ready c L x ∧ k < sec.accesses.length ∧
      ∃ del, run (sec.accesses.take k) (c, { x with del := del }) = .ok (d, x)
  | .check _ k => k.Holds c L x
  | _ => True

variable {c d : Cache} {x y : Vars} {L : List Ptr} {m m' : Point}

theorem Standing.at (h : Standing c L x) :
    (x.p = c.front ∧ ∀ q ∈ L, (c.entry q).key.isMatch x.key = false) ∨
      ∃ pre post, L = pre ++ x.p :: post ∧ ∀ q ∈ post, (c.entry q).key.isMatch x.key = false := by
  obtain ⟨pre, post, hsplit, hpost⟩ := h
  cases pre with
  | nil =>
    obtain ⟨hp, rfl⟩ := List.cons.inj hsplit
    exact .inl ⟨hp.symm, hpost⟩
  | cons a pre => exact .inr ⟨pre, post, (List.cons.inj hsplit).2, hpost⟩

theorem Standing.mem (h : Standing c L x) (hp : x.p ≠ c.front) :
    ∃ pre post, L = pre ++ x.p :: post ∧ ∀ q ∈ post, (c.entry q).key.isMatch x.key = false :=
  h.at.resolve_left fun hf => hp hf.1

/-! ## Other threads -/

theorem Point.Holds.outside (h : m.Holds c d L x) (hr : m.inRead = false) (hw : m.inWrite = false)
    {c' d' : Cache} {L' : List Ptr} (hent : m = .linkWait → c'.entry x.node = c.entry x.node) :
    m.Holds c' d' L' x := by
  cases m with
  | linkWait =>
    unfold Point.Holds at h ⊢
    rw [hent rfl]
    exact h
  | check sec k => cases k <;> trivial
  | unlinkTest | write => cases hw
  | findEmpty | findLast | findLoop | findMatch | findPrev | findMissed | findFound => cases hr
  | _ => exact h

/-- **Other nodes outside of the queue** change nothing of what a thread knows, if its own node stays.
What an unfinished section has made of the queue, it makes of it beside the other nodes too. -/
theorem Point.Holds.beside (h : m.Holds c d L x) {l : Ptr → Bool} {e : Ptr → Entry} {ι : Type*}
    {pc : ι → Cache.Pc} (hI : Inv (withNodes c l e) pc L) {j : ι} (hpc : pc j = m.pc x)
    (hL : ∀ q ∈ L, e q = c.entry q) (hnode : m.pc x = .link x.node → e x.node = c.entry x.node) :
    m.Holds (withNodes c l e) (withNodes d l e) L x := by
  have hsought : sought (withNodes c l e) L x = sought c L x := by
    refine List.find?_congr fun q hq => ?_
    simp only [withNodes]
    rw [hL q (List.mem_reverse.mp hq)]
  have hstand : Standing c L x → Standing (withNodes c l e) L x := by
    intro hs
    have hrest : ∀ q ∈ L, (c.entry q).key.isMatch x.key = false →
        ((withNodes c l e).entry q).key.isMatch x.key = false := by
      intro q hq hm
      rw [show (withNodes c l e).entry q = c.entry q from hL q hq]
      exact hm
    obtain ⟨hp, hpost⟩ | ⟨pre, post, rfl, hpost⟩ := hs.at
    · exact ⟨[], L, by rw [hp]; rfl, fun q hq => hrest q hq (hpost q hq)⟩
    · exact ⟨c.front :: pre, post, rfl, fun q hq => hrest q (by simp [hq]) (hpost q hq)⟩
  cases m with
  | findLoop => exact hstand h
  | findMatch => exact ⟨hstand h.1, h.2⟩
  | findPrev =>
    obtain ⟨hs, hp, hmatch⟩ := h
    refine ⟨hstand hs, hp, ?_⟩
    obtain ⟨pre, post, hsplit, -⟩ := hs.mem hp
    rw [show (withNodes c l e).entry x.p = c.entry x.p from hL x.p (by simp [hsplit])]
    exact hmatch
  | findMissed => exact hsought.trans h
  | findFound => exact hsought.trans h
  | linkWait =>
    have hx : e x.node = c.entry x.node := hnode rfl
    unfold Point.Holds at h ⊢
    rw [show (withNodes c l e).entry x.node = c.entry x.node from hx]
    exact h
  | unlinkTest =>
    cases h
    rfl
  | write sec k =>
    obtain ⟨hready, hk, del, hrun⟩ := h
    have hready' : sec.Ready (withNodes c l e) L x := by
      cases sec with
      | link =>
        have hx : e x.node = c.entry x.node := hnode rfl
        unfold Sec.Ready at hready ⊢
        rw [show (withNodes c l e).entry x.node = c.entry x.node from hx]
        exact hready
      | unlink | promote => exact hready
    -- in the new heap the whole section works, and so do its first statements
    obtain ⟨z, hz⟩ := exists_run (x := { x with del := del }) hI (hpc.trans (by cases sec <;> rfl))
      (show sec.Ready _ L { x with del := del } by cases sec <;> exact hready')
    rw [← List.take_append_drop k sec.accesses, run_append] at hz
    obtain ⟨w, hw, -⟩ := bind_ok_iff.mp hz
    obtain rfl := run_nodes (fun a ha => links_of_mem_take hk ha) hrun hw
    exact ⟨hready', hk, del, hw⟩
  | check sec k => cases k <;> exact h
  | _ => exact h

/-! ## Read sections -/

theorem getNext_of {p q : Ptr} (ha : c.Alloc p) (h : c.links.next p = q) : c.getNext p = .ok q :=
  getNext_eq_ok.mpr ⟨ha, h⟩

theorem getPrev_of {p q : Ptr} (ha : c.Alloc p) (h : c.links.prev p = q) : c.getPrev p = .ok q :=
  getPrev_eq_ok.mpr ⟨ha, h⟩

theorem standing_last (h : c.Repr L) :
    c.getPrev c.endp = .ok (c.links.prev c.endp) ∧
      Standing c L { x with p := c.links.prev c.endp } := by
  refine ⟨getPrev_of h.alloc_endp rfl, ?_⟩
  obtain ⟨pre, hpre⟩ := h.list.exists_last
  exact ⟨pre, [], hpre, by simp⟩

theorem Standing.prev (h : c.Repr L) (hs : Standing c L x) (hp : x.p ≠ c.front)
    (hmatch : (c.entry x.p).key.isMatch x.key = false) :
    ∃ q, c.getPrev x.p = .ok q ∧ Standing c L { x with p := q } := by
  obtain ⟨pre, post, rfl, hpost⟩ := hs.mem hp
  obtain ⟨as, q, has⟩ : ∃ as q, c.front :: pre = as ++ [q] :=
    ⟨_, _, (List.dropLast_append_getLast (List.cons_ne_nil c.front pre)).symm⟩
  have hsplit : c.front :: (pre ++ x.p :: post) = as ++ q :: x.p :: post := by
    rw [← List.cons_append, has]
    simp
  have hall : c.front :: (pre ++ x.p :: post) ++ [c.endp] = as ++ q :: x.p :: (post ++ [c.endp]) := by
    rw [hsplit]
    simp
  have hlinked := h.list.linked hall
  refine ⟨q, getPrev_of (h.alloc_mem (by simp)) hlinked.2, as, x.p :: post, hsplit, ?_⟩
  exact List.forall_mem_cons.mpr ⟨hmatch, hpost⟩

theorem Standing.missed (h : c.Repr L) (hs : Standing c L x) (hp : x.p = c.front) :
    sought c L x = none := by
  obtain ⟨-, hpost⟩ | ⟨pre, post, rfl, -⟩ := hs.at
  · rw [sought, List.find?_eq_none]
    intro q hq
    simp [hpost q (List.mem_reverse.mp hq)]
  · have hnd := h.list.nodup
    simp [hp] at hnd

theorem Standing.found (hs : Standing c L x) (hp : x.p ≠ c.front)
    (hmatch : (c.entry x.p).key.isMatch x.key = true) : sought c L x = some x.p := by
  obtain ⟨pre, post, rfl, hpost⟩ := hs.mem hp
  have hnone : post.reverse.find? (fun q => (c.entry q).key.isMatch x.key) = none := by
    rw [List.find?_eq_none]
    intro q hq
    simp [hpost q (List.mem_reverse.mp hq)]
  simp [sought, List.find?_append, hnone, hmatch]

theorem counting_first (h : c.Repr L) :
    c.getNext c.front = .ok (c.links.next c.front) ∧
      Counting c L { x with count := 0, check := c.links.next c.front } 0 := by
  refine ⟨getNext_of h.alloc_front rfl, ?_⟩
  obtain ⟨q, post, hq⟩ := List.exists_cons_of_ne_nil (List.append_ne_nil_of_right_ne_nil L
    (List.cons_ne_nil c.endp []))
  have hall : c.front :: L ++ [c.endp] = [] ++ c.front :: q :: post := by
    rw [List.cons_append, hq]
    rfl
  have hlinked := h.list.linked hall
  exact ⟨[], post, by rw [hq, hlinked.1]; rfl, rfl⟩

theorem Counting.linked {n : ℕ} (h : c.Repr L) (hs : Counting c L x n) :
    ∃ q, c.getPrev x.check = .ok q ∧ c.getNext q = .ok x.check := by
  obtain ⟨pre, post, hsplit, -⟩ := hs
  obtain ⟨as, q, has⟩ : ∃ as q, c.front :: pre = as ++ [q] :=
    ⟨_, _, (List.dropLast_append_getLast (List.cons_ne_nil c.front pre)).symm⟩
  have hall : c.front :: L ++ [c.endp] = as ++ q :: x.check :: post := by
    rw [List.cons_append, hsplit, ← List.cons_append, has]
    simp
  have hlinked := h.list.linked hall
  exact ⟨q, getPrev_of (h.alloc _ (by simp [hall])) hlinked.2,
    getNext_of (h.alloc _ (by simp [hall])) hlinked.1⟩

theorem Counting.next {n : ℕ} (h : c.Repr L) (hs : Counting c L x n) (hne : x.check ≠ c.endp) :
    ∃ q, c.getNext x.check = .ok q ∧ Counting c L { x with check := q } (n + 1) := by
  obtain ⟨pre, post, hsplit, rfl⟩ := hs
  cases post with
  | nil =>
    have := (List.append_inj' hsplit rfl).2
    exact absurd (List.cons.inj this).1.symm hne
  | cons q post =>
    have hall : c.front :: L ++ [c.endp] = (c.front :: pre) ++ x.check :: q :: post := by
      rw [List.cons_append, hsplit]
      rfl
    have hlinked := h.list.linked hall
    exact ⟨q, getNext_of (h.alloc _ (by simp [hall])) hlinked.1, pre ++ [x.check], post,
      by simp [hsplit], by simp⟩

theorem Counting.total {n : ℕ} (h : c.Repr L) (hs : Counting c L x n) (he : x.check = c.endp) :
    n = L.length := by
  obtain ⟨pre, post, hsplit, rfl⟩ := hs
  have hnd := h.list.nodup
  obtain rfl | ⟨post, z, rfl⟩ := List.eq_nil_or_concat' post
  · rw [(List.append_inj' hsplit rfl).1]
  · rw [← List.cons_append, ← List.append_assoc] at hsplit
    obtain ⟨rfl, -⟩ := List.append_inj' hsplit rfl
    simp [he, List.nodup_append] at hnd

/-- **The statements of the read sections** go from what holds at one point to what holds at the next
one. They change no memory, and no `assert` fails. -/
theorem read_step (h : c.Repr L) (hm : m.Holds c c L x) (hr : m.inRead = true) {a : Access}
    (ha : a.point m = some m') (fresh : Ptr) (junk : List UInt8) :
    ∃ y, a.eval fresh junk c x = .ok (c, y) ∧ m'.Holds c c L y ∧ m'.pc y = m.pc x := by
  unfold Access.point at ha
  split at ha
  case h_1 =>
    cases ha
    obtain ⟨hq, hs⟩ := standing_last (x := x) h
    exact ⟨_, by simp only [Access.eval, hq]; rfl, hs, rfl⟩
  case h_2 =>
    cases ha
    obtain ⟨hs, hp, hmatch⟩ := hm
    obtain ⟨q, hq, hs'⟩ := hs.prev h hp hmatch
    exact ⟨_, by simp only [Access.eval, hq]; rfl, hs', rfl⟩
  case h_9 =>
    rename_i sec
    cases ha
    have hnil : L = [] := hm
    refine ⟨x, ?_, trivial, rfl⟩
    simp [Access.eval, h.isEmpty, hnil, check_of]
  case h_10 =>
    rename_i sec
    cases ha
    refine ⟨x, ?_, trivial, rfl⟩
    simp [Access.eval, getPrev_of h.alloc_front h.ends.1, getNext_of h.alloc_endp h.ends.2, check_of]
  case h_11 =>
    rename_i sec
    cases ha
    obtain ⟨hq, hs⟩ := counting_first (x := x) h
    exact ⟨_, by simp only [Access.eval, hq]; rfl, hs, by cases sec <;> rfl⟩
  case h_12 =>
    rename_i sec
    cases ha
    exact ⟨_, rfl, ⟨x.count, rfl, hm⟩, by cases sec <;> rfl⟩
  case h_13 =>
    rename_i sec
    cases ha
    obtain ⟨n, hn, hs, hne⟩ := hm
    obtain ⟨q, hq, hr⟩ := hs.linked h
    refine ⟨x, ?_, ⟨n, hn, hs, hne⟩, rfl⟩
    simp [Access.eval, hq, hr, check_of]
  case h_14 =>
    rename_i sec
    cases ha
    obtain ⟨n, hn, hs, hne⟩ := hm
    obtain ⟨q, hq, hs'⟩ := hs.next h hne
    refine ⟨{ x with check := q }, by simp only [Access.eval, hq]; rfl, ?_, by cases sec <;> rfl⟩
    rw [← hn] at hs'
    exact hs'
  case h_15 =>
    rename_i sec
    cases ha
    refine ⟨x, ?_, trivial, rfl⟩
    have hcount : (x.count : ℤ) = c.cacheCount := by
      rw [h.count, show x.count = L.length from hm]
    simp [Access.eval, hcount, check_of]
  all_goals first | cases hr | cases ha

/-- **The tests of the read sections.** -/
theorem read_test (h : c.Repr L) (hm : m.Holds c c L x) (hr : m.inRead = true) {t : Test} {v : Bool}
    (ht : t.point v m = some m') :
    ∃ b, t.eval c x = .ok b ∧ (v = b → m'.Holds c c L x) ∧ m'.pc x = m.pc x := by
  unfold Test.point at ht
  split at ht
  case h_1 =>
    cases ht
    refine ⟨_, h.isEmpty, fun hv => ?_, rfl⟩
    have hnil : L = [] := of_decide_eq_true hv.symm
    simp [Point.Holds, hnil]
  case h_2 =>
    cases ht
    exact ⟨_, h.isEmpty, fun hv => of_decide_eq_false hv.symm, rfl⟩
  case h_3 =>
    cases ht
    exact ⟨_, rfl, fun hv => ⟨hm, of_decide_eq_true hv.symm⟩, rfl⟩
  case h_4 =>
    cases ht
    exact ⟨_, rfl, fun hv => Standing.missed h hm (not_not.mp (of_decide_eq_false hv.symm)), rfl⟩
  case h_5 =>
    cases ht
    obtain ⟨hs, hp⟩ := hm
    obtain ⟨pre, post, hsplit, -⟩ := hs.mem hp
    have ha := h.alloc_mem (p := x.p) (by simp [hsplit])
    refine ⟨(c.entry x.p).key.isMatch x.key, ?_, fun hv => hs.found hp hv.symm, rfl⟩
    simp [Test.eval, Cache.isMatch, Cache.deref_of ha]
  case h_6 =>
    cases ht
    obtain ⟨hs, hp⟩ := hm
    obtain ⟨pre, post, hsplit, -⟩ := hs.mem hp
    have ha := h.alloc_mem (p := x.p) (by simp [hsplit])
    refine ⟨(c.entry x.p).key.isMatch x.key, ?_, fun hv => ⟨hs, hp, hv.symm⟩, rfl⟩
    simp [Test.eval, Cache.isMatch, Cache.deref_of ha]
  case h_13 =>
    cases ht
    refine ⟨_, rfl, fun hv => ?_, rfl⟩
    have hz : c.cacheCount = 0 := of_decide_eq_true hv.symm
    rw [h.count] at hz
    exact List.length_eq_zero_iff.mp (by omega)
  case h_14 =>
    cases ht
    exact ⟨_, rfl, fun _ => trivial, rfl⟩
  case h_15 =>
    cases ht
    exact ⟨_, rfl, fun hv => ⟨hm, of_decide_eq_true hv.symm⟩, rfl⟩
  case h_16 =>
    cases ht
    exact ⟨_, rfl, fun hv =>
      Counting.total h hm (not_not.mp (of_decide_eq_false hv.symm)), rfl⟩
  all_goals first | cases hr | cases ht

end MiniProxy.CacheCode

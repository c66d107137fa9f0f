import Mathlib.Data.List.Chain
import Mathlib.Data.List.Nodup
import Mathlib.Logic.Function.Basic
import Mathlib.Tactic.SplitIfs

/-!
# Doubly linked lists

The nodes of a heap are linked by two functions `next` and `prev`. `IsList l a xs b` says that from
`a` the nodes `xs` follow in this order up to `b`, linked both ways and pairwise distinct.

* `Links`, `setNext`, `setPrev`: the links and their updates;
* `isChain_congr`: a chain only depends on the links along it;
* `Links.linkBefore`, `Links.unlink`: linking a node in before another, and taking one out, and
  **`IsList.linkBefore`**, **`IsList.unlink`**: what they do to a list;
* `Links.AgreeOff`: links that differ at some nodes only, `agreeOff_linkBefore`, `agreeOff_unlink`;
* `IsList.head`, `IsList.last`, `IsList.head_not_mem`, `IsList.eq_nil_iff`: the ends of a list;
  `IsList.linked`: its neighbours.
-/

namespace DList

variable {α : Type*} [DecidableEq α]

/-- The links of all nodes. -/
structure Links (α : Type*) where
  next : α → α
  prev : α → α

/-- `p->next = q`. -/
def Links.setNext (l : Links α) (p q : α) : Links α := { l with next := Function.update l.next p q }

/-- `p->prev = q`. -/
def Links.setPrev (l : Links α) (p q : α) : Links α := { l with prev := Function.update l.prev p q }

@[simp] theorem Links.setNext_prev (l : Links α) (p q : α) : (l.setNext p q).prev = l.prev := rfl

@[simp] theorem Links.setPrev_next (l : Links α) (p q : α) : (l.setPrev p q).next = l.next := rfl

@[simp] theorem Links.setNext_next (l : Links α) (p q : α) :
    (l.setNext p q).next = Function.update l.next p q := rfl

@[simp] theorem Links.setPrev_prev (l : Links α) (p q : α) :
    (l.setPrev p q).prev = Function.update l.prev p q := rfl

omit [DecidableEq α] in
/-- `b` follows `a`. -/
def Links.Linked (l : Links α) (a b : α) : Prop := l.next a = b ∧ l.prev b = a

/-- From `a` the nodes `xs` follow up to `b`, all distinct. -/
structure IsList (l : Links α) (a : α) (xs : List α) (b : α) : Prop where
  chain : List.IsChain l.Linked (a :: xs ++ [b])
  nodup : (a :: xs ++ [b]).Nodup

omit [DecidableEq α] in
theorem isChain_congr {l l' : Links α} {w : List α} (h : w.IsChain l.Linked)
    (hn : ∀ a ∈ w.dropLast, l'.next a = l.next a) (hp : ∀ b ∈ w.tail, l'.prev b = l.prev b) :
    w.IsChain l'.Linked := by
  induction w with
  | nil => exact List.isChain_nil
  | cons a w ih =>
    cases w with
    | nil => exact List.isChain_singleton a
    | cons b w =>
      rw [List.isChain_cons_cons] at h ⊢
      obtain ⟨⟨hab, hba⟩, hw⟩ := h
      refine ⟨⟨?_, ?_⟩, ih hw (fun c hc => hn c ?_) (fun c hc => hp c ?_)⟩
      · rw [hn a List.mem_cons_self, hab]
      · rw [hp b List.mem_cons_self, hba]
      · rw [List.dropLast_cons_of_ne_nil (List.cons_ne_nil b w)]
        exact List.mem_cons_of_mem _ hc
      · exact List.mem_cons_of_mem _ hc

omit [DecidableEq α] in
theorem isChain_halves {l : Links α} (l' : Links α) {as bs : List α} {z e : α} {x : α}
    (h₁ : (as ++ [z]).IsChain l.Linked) (h₂ : (e :: bs).IsChain l.Linked)
    (hnd : (as ++ z :: e :: bs).Nodup) (hx : x ∉ as ++ z :: e :: bs)
    (hn : ∀ p, p ≠ x → p ≠ z → l'.next p = l.next p)
    (hp : ∀ p, p ≠ x → p ≠ e → l'.prev p = l.prev p) :
    (as ++ [z]).IsChain l'.Linked ∧ (e :: bs).IsChain l'.Linked := by
  rw [List.nodup_append] at hnd
  obtain ⟨-, hnd₂, hne⟩ := hnd
  rw [List.mem_append, not_or] at hx
  have hze := (List.nodup_cons.mp hnd₂).1
  have heb := (List.nodup_cons.mp (List.nodup_cons.mp hnd₂).2).1
  refine ⟨isChain_congr h₁ (fun p hpa => ?_) (fun p hpa => ?_),
    isChain_congr h₂ (fun p hpa => ?_) (fun p hpa => ?_)⟩
  · rw [List.dropLast_concat] at hpa
    refine hn p (fun e => hx.1 (e ▸ hpa)) (fun e => ?_)
    exact hne p hpa z List.mem_cons_self e
  · have hpa := List.mem_of_mem_tail hpa
    rw [List.mem_append, List.mem_singleton] at hpa
    rcases hpa with hpa | rfl
    · refine hp p (fun e => hx.1 (e ▸ hpa)) (fun e => ?_)
      exact hne p hpa _ (List.mem_cons_of_mem _ List.mem_cons_self) e
    · exact hp p (fun e => hx.2 (e ▸ List.mem_cons_self)) fun e =>
        hze (e ▸ List.mem_cons_self)
  · have hpa := List.dropLast_subset _ hpa
    refine hn p (fun e => hx.2 (e ▸ List.mem_cons_of_mem _ hpa)) fun e => hze (e ▸ hpa)
  · refine hp p (fun e => hx.2 (e ▸ List.mem_cons_of_mem _ (List.mem_cons_of_mem _ hpa))) fun e =>
      heb (e ▸ hpa)

section IsList

variable {l : Links α} {a b : α} {xs ys : List α} {x : α}

omit [DecidableEq α]

theorem IsList.head (h : IsList l a (x :: xs) b) :
    l.next a = x ∧ l.prev x = a ∧ IsList l x xs b := by
  have hc := List.isChain_cons_cons.mp h.chain
  exact ⟨hc.1.1, hc.1.2, hc.2, (List.nodup_cons.mp h.nodup).2⟩

theorem IsList.last (h : IsList l a (xs ++ [x]) b) :
    l.prev b = x ∧ l.next x = b ∧ IsList l a xs x := by
  have hc := h.chain
  have hnd := h.nodup
  rw [← List.cons_append, List.append_assoc, List.singleton_append] at hc hnd
  obtain ⟨h₁, h₂, -⟩ := List.isChain_append_cons_cons.mp hc
  refine ⟨h₂.2, h₂.1, h₁, ?_⟩
  rw [List.append_cons] at hnd
  exact (List.nodup_append.mp hnd).1

theorem isList_nil : IsList l a [] b ↔ l.next a = b ∧ l.prev b = a ∧ a ≠ b := by
  constructor
  · intro h
    have hc := List.isChain_cons_cons.mp h.chain
    have hnd := List.nodup_cons.mp h.nodup
    exact ⟨hc.1.1, hc.1.2, fun e => hnd.1 (e ▸ List.mem_cons_self)⟩
  · rintro ⟨h₁, h₂, hne⟩
    exact ⟨List.isChain_cons_cons.mpr ⟨⟨h₁, h₂⟩, List.isChain_singleton b⟩, by simp [hne]⟩

theorem IsList.eq_nil_iff (h : IsList l a xs b) : xs = [] ↔ l.next a = b ∧ l.prev b = a := by
  constructor
  · rintro rfl
    exact ⟨(isList_nil.mp h).1, (isList_nil.mp h).2.1⟩
  · rintro ⟨h₁, -⟩
    cases xs with
    | nil => rfl
    | cons x xs =>
      obtain ⟨hx, -, ht⟩ := h.head
      have := (List.nodup_cons.mp ht.nodup).1
      rw [← hx, h₁] at this
      exact absurd (List.mem_append_right xs (List.mem_singleton_self b)) this

theorem IsList.unique (h : IsList l a xs b) (h' : IsList l a ys b) : xs = ys := by
  induction xs generalizing a ys with
  | nil => exact (h'.eq_nil_iff.mpr (h.eq_nil_iff.mp rfl)).symm
  | cons x xs ih =>
    cases ys with
    | nil => exact absurd (h.eq_nil_iff.mpr (h'.eq_nil_iff.mp rfl)) (List.cons_ne_nil x xs)
    | cons y ys =>
      obtain ⟨hx, -, ht⟩ := h.head
      obtain ⟨hy, -, ht'⟩ := h'.head
      obtain rfl := hx.symm.trans hy
      rw [ih ht ht']

theorem IsList.exists_last (h : IsList l a xs b) :
    ∃ as, a :: xs = as ++ [l.prev b] := by
  obtain ⟨as, z, hz⟩ := List.eq_nil_or_concat (a :: xs) |>.resolve_left (List.cons_ne_nil a xs)
  have hc := h.chain
  rw [hz, List.concat_append, List.isChain_append_cons_cons] at hc
  exact ⟨as, by rw [hz, List.concat_eq_append, hc.2.1.2]⟩

theorem IsList.linked (h : IsList l a xs b) {ps qs : List α} {y : α}
    (hsplit : a :: xs ++ [b] = ps ++ x :: y :: qs) : l.next x = y ∧ l.prev y = x := by
  have hc := h.chain
  rw [hsplit, List.isChain_append_cons_cons] at hc
  exact hc.2.1

theorem IsList.ne_end (h : IsList l a xs b) {p : α} (hp : p ∈ a :: xs) : p ≠ b :=
  (List.nodup_append.mp h.nodup).2.2 _ hp _ (List.mem_singleton_self _)

theorem IsList.prev_end_mem (h : IsList l a xs b) : l.prev b ∈ a :: xs := by
  obtain ⟨as, has⟩ := h.exists_last
  rw [has]
  exact List.mem_append_right _ (List.mem_singleton_self _)

end IsList

section Update

variable {l : Links α} {a b : α} {xs ys : List α} {x : α}

/-- `x` is linked in before `b`. -/
def Links.linkBefore (l : Links α) (x b : α) : Links α :=
  (((l.setPrev x (l.prev b)).setNext x b).setPrev b x).setNext (l.prev b) x

/-- The neighbours of `x` are linked to each other. -/
def Links.unlink (l : Links α) (x : α) : Links α :=
  (l.setNext (l.prev x) (l.next x)).setPrev (l.next x) (l.prev x)

/-- **Linking a node in** before the end. -/
theorem IsList.linkBefore (h : IsList l a xs b) (hx : x ∉ a :: xs ++ [b]) :
    IsList (l.linkBefore x b) a (xs ++ [x]) b := by
  have hxb : x ≠ b := fun e => hx (by rw [e]; simp)
  have hxq : x ≠ l.prev b := fun e => hx (by rw [e]; exact List.mem_append_left _ h.prev_end_mem)
  obtain ⟨as, has⟩ := h.exists_last
  have hc := h.chain
  have hnd := h.nodup
  rw [has, List.append_assoc, List.singleton_append] at hc hnd hx
  obtain ⟨hl, -, hr⟩ := List.isChain_append_cons_cons.mp hc
  obtain ⟨hl, hr⟩ := isChain_halves (l.linkBefore x b) hl hr hnd hx
    (fun p hp hp' => by simp [Links.linkBefore, hp, hp'])
    (fun p hp hp' => by simp [Links.linkBefore, hp, hp'])
  constructor
  · rw [← List.cons_append, has, List.append_assoc, List.append_assoc]
    refine List.isChain_append_cons_cons.mpr ⟨hl, ⟨?_, ?_⟩,
      List.isChain_cons_cons.mpr ⟨⟨?_, ?_⟩, hr⟩⟩
    all_goals simp [Links.linkBefore, hxb, hxq]
  · rw [← List.cons_append, has]
    have hperm : (as ++ [l.prev b] ++ [x] ++ [b]).Perm (x :: (as ++ l.prev b :: [b])) := by
      have : (as ++ [l.prev b] ++ x :: [b]).Perm (x :: (as ++ [l.prev b] ++ [b])) := List.perm_middle
      simpa using this
    exact hperm.nodup_iff.mpr (List.nodup_cons.mpr ⟨hx, hnd⟩)

theorem IsList.linkBefore_ends (h : IsList l a xs b) (hx : x ∉ a :: xs ++ [b]) :
    (l.linkBefore x b).prev a = l.prev a ∧ (l.linkBefore x b).next b = l.next b := by
  have hab : a ≠ b := h.ne_end List.mem_cons_self
  have hax : a ≠ x := fun e => hx (by rw [e]; simp)
  have hbx : b ≠ x := fun e => hx (by rw [e]; simp)
  have hbq : b ≠ l.prev b := Ne.symm (h.ne_end h.prev_end_mem)
  simp [Links.linkBefore, hab, hax, hbx, hbq]

omit [DecidableEq α] in
theorem nodes_split (a b : α) (xs ys : List α) (x : α) :
    a :: (xs ++ x :: ys) ++ [b] = a :: xs ++ x :: (ys ++ [b]) := by
  simp

omit [DecidableEq α] in
theorem IsList.exists_split (h : IsList l a (xs ++ x :: ys) b) :
    ∃ as bs, a :: xs = as ++ [l.prev x] ∧ ys ++ [b] = l.next x :: bs := by
  have hc := h.chain
  obtain ⟨as, z, hz⟩ := List.eq_nil_or_concat (a :: xs) |>.resolve_left (List.cons_ne_nil a xs)
  obtain ⟨e, bs, he⟩ := List.exists_cons_of_ne_nil (List.concat_ne_nil b ys)
  rw [List.concat_eq_append] at hz
  rw [nodes_split, hz, he, List.append_assoc, List.singleton_append, List.isChain_append_cons_cons,
    List.isChain_cons_cons] at hc
  exact ⟨as, bs, by rw [hz, hc.2.1.2], by rw [he, hc.2.2.1.1]⟩

/-- **Taking a node out.** -/
theorem IsList.unlink (h : IsList l a (xs ++ x :: ys) b) : IsList (l.unlink x) a (xs ++ ys) b := by
  obtain ⟨as, bs, has, hbs⟩ := h.exists_split
  have hc := h.chain
  have hnd := h.nodup
  rw [nodes_split, has, hbs, List.append_assoc, List.singleton_append] at hc hnd
  have hperm : (as ++ l.prev x :: x :: l.next x :: bs).Perm
      (x :: (as ++ l.prev x :: l.next x :: bs)) := by
    have : (as ++ [l.prev x] ++ x :: l.next x :: bs).Perm
        (x :: (as ++ [l.prev x] ++ l.next x :: bs)) := List.perm_middle
    simpa using this
  obtain ⟨hx, hnd⟩ := List.nodup_cons.mp (hperm.nodup_iff.mp hnd)
  obtain ⟨hl, -, hr⟩ := List.isChain_append_cons_cons.mp hc
  obtain ⟨hl, hr⟩ := isChain_halves (l.unlink x) hl (List.isChain_cons_cons.mp hr).2 hnd hx
    (fun p _ hp => by simp [Links.unlink, hp]) (fun p _ hp => by simp [Links.unlink, hp])
  constructor
  · rw [← List.cons_append, has, List.append_assoc, List.append_assoc, hbs]
    refine List.isChain_append_cons_cons.mpr ⟨hl, ⟨?_, ?_⟩, hr⟩ <;> simp [Links.unlink]
  · rw [← List.cons_append, has, List.append_assoc, List.append_assoc, hbs]
    exact hnd

omit [DecidableEq α] in
theorem IsList.neighbours (h : IsList l a (xs ++ x :: ys) b) :
    l.prev x ∈ a :: xs ∧ l.next x ∈ ys ++ [b] ∧ l.prev x ≠ x ∧ l.next x ≠ x ∧
      x ∉ a :: (xs ++ ys) ++ [b] := by
  obtain ⟨as, bs, has, hbs⟩ := h.exists_split
  have hnd := h.nodup
  have hperm : (a :: (xs ++ x :: ys) ++ [b]).Perm (x :: (a :: (xs ++ ys) ++ [b])) := by
    have : (a :: xs ++ x :: (ys ++ [b])).Perm (x :: (a :: xs ++ (ys ++ [b]))) := List.perm_middle
    simpa using this
  have hx := (List.nodup_cons.mp (hperm.nodup_iff.mp hnd)).1
  have hprev : l.prev x ∈ a :: xs := by rw [has]; simp
  have hnext : l.next x ∈ ys ++ [b] := by rw [hbs]; simp
  refine ⟨hprev, hnext, fun e => hx ?_, fun e => hx ?_, hx⟩
  · rw [e] at hprev
    rcases List.mem_cons.mp hprev with h | h <;> simp [h]
  · rw [e] at hnext
    rcases List.mem_append.mp hnext with h | h
    · simp [h]
    · exact List.mem_append_right _ h

omit [DecidableEq α] in
theorem IsList.head_not_mem (h : IsList l a (x :: xs) b) : x ∉ a :: xs ++ [b] := by
  have hsplit : IsList l a ([] ++ x :: xs) b := h
  obtain ⟨-, -, -, -, hx⟩ := hsplit.neighbours
  exact hx

theorem IsList.unlink_ends (h : IsList l a (xs ++ x :: ys) b) :
    (l.unlink x).prev a = l.prev a ∧ (l.unlink x).next b = l.next b := by
  obtain ⟨hprev, hnext, -, -, -⟩ := h.neighbours
  have hnd := h.nodup
  rw [nodes_split, List.nodup_append] at hnd
  have hax : a ≠ l.next x :=
    hnd.2.2 a List.mem_cons_self _ (List.mem_cons_of_mem _ hnext)
  have hbx : b ≠ l.prev x := fun e =>
    hnd.2.2 _ hprev b (List.mem_cons_of_mem _ (by simp)) e.symm
  simp [Links.unlink, hax, hbx]

/-! ## Frames -/

/-- The links differ at the nodes `S` only. -/
def Links.AgreeOff (S : List α) (l l' : Links α) : Prop :=
  ∀ p, p ∉ S → l'.next p = l.next p ∧ l'.prev p = l.prev p

theorem agreeOff_linkBefore (l : Links α) (x b : α) :
    l.AgreeOff [x, l.prev b, b] (l.linkBefore x b) := by
  intro p hp
  simp only [List.mem_cons, List.not_mem_nil, or_false, not_or] at hp
  obtain ⟨hx, hq, hb⟩ := hp
  simp [Links.linkBefore, hx, hq, hb]

theorem agreeOff_unlink (l : Links α) (x : α) :
    l.AgreeOff [l.prev x, l.next x] (l.unlink x) := by
  intro p hp
  simp only [List.mem_cons, List.not_mem_nil, or_false, not_or] at hp
  obtain ⟨hq, hn⟩ := hp
  simp [Links.unlink, hq, hn]

theorem agreeOff_move (l : Links α) (x b : α) :
    l.AgreeOff [x, l.prev x, l.next x, l.prev b, b] ((l.unlink x).linkBefore x b) := by
  intro p hp
  simp only [List.mem_cons, List.not_mem_nil, or_false, not_or] at hp
  obtain ⟨hx, hq, hn, hl, hb⟩ := hp
  have hlast : p ≠ (l.unlink x).prev b := by
    simp only [Links.unlink, Links.setPrev_prev, Links.setNext_prev, Function.update_apply]
    split_ifs
    · exact hq
    · exact hl
  obtain ⟨hn₁, hp₁⟩ := agreeOff_unlink l x p (by simp [hq, hn])
  obtain ⟨hn₂, hp₂⟩ := agreeOff_linkBefore (l.unlink x) x b p (by simp [hx, hlast, hb])
  exact ⟨hn₂.trans hn₁, hp₂.trans hp₁⟩

end Update

end DList

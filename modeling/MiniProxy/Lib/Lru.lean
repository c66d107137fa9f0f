import Mathlib.Algebra.BigOperators.Group.List.Basic
import Mathlib.Algebra.Order.BigOperators.Group.List
import Mathlib.Algebra.Order.Ring.Nat
import Mathlib.Algebra.Ring.Nat
import Mathlib.Data.List.Dedup
import Mathlib.Data.List.Infix

/-!
# Least recently used first

A queue keeps its entries in the order of their last use, and evicts from its front until what it
holds fits.

* `evict w cap l`: what is left of `l`; **`evict_minimal`**: the shortest prefix is gone whose removal
  brings the weight to at most `cap`;
* `lastUse used p tr`: the time of the last event of the history `tr` that uses `p`;
* `Ordered used tr l`: the entries of `l` stand in the order of their last use;
  **`Ordered.append`**, **`Ordered.touch`**: a new entry, and a use of an old one, go to the end;
* `distinct prs`: the sizes of the different entries of a list; `sum_le_distinct`, `evict_keeps`,
  `split_touch`: an entry is kept while those behind it fit;
* `findLast f l`: the entry nearest to the end with a property; `findLast_append`, `findLast_suffix`,
  `findLast_touch`: how the operations on the queue change it.
-/

namespace Lru

variable {α β : Type*}

theorem perm_touch (p : α) (ps qs : List α) : (ps ++ qs ++ [p]).Perm (ps ++ p :: qs) :=
  (List.perm_append_singleton p (ps ++ qs)).trans List.perm_middle.symm

/-! ## Eviction -/

/-- What is left when entries are taken from the front until the rest fits. -/
def evict (w : α → ℕ) (cap : ℕ) : List α → List α
  | [] => []
  | x :: xs => if ((x :: xs).map w).sum ≤ cap then x :: xs else evict w cap xs

variable (w : α → ℕ) (cap : ℕ)

theorem evict_of_le {l : List α} (h : (l.map w).sum ≤ cap) : evict w cap l = l := by
  cases l with
  | nil => rfl
  | cons x xs => rw [evict, if_pos h]

theorem sum_evict_le (l : List α) : ((evict w cap l).map w).sum ≤ cap := by
  induction l with
  | nil => exact Nat.zero_le _
  | cons x xs ih =>
    rw [evict]
    split_ifs with h
    · exact h
    · exact ih

theorem evict_suffix (l : List α) : evict w cap l <:+ l := by
  induction l with
  | nil => exact List.suffix_rfl
  | cons x xs ih =>
    rw [evict]
    split_ifs
    · exact List.suffix_rfl
    · exact ih.trans (List.suffix_cons x xs)

theorem suffix_evict {l m : List α} (hm : m <:+ l) (h : (m.map w).sum ≤ cap) :
    m <:+ evict w cap l := by
  induction l with
  | nil => exact hm
  | cons x xs ih =>
    rw [evict]
    split_ifs with hc
    · exact hm
    · rcases List.suffix_cons_iff.mp hm with rfl | hm
      · exact absurd h hc
      · exact ih hm

/-- **Eviction is minimal**: what is evicted is a prefix, the rest fits, and no shorter prefix leaves a
rest that fits. -/
theorem evict_minimal (l : List α) :
    ∃ d, l = d ++ evict w cap l ∧ ((evict w cap l).map w).sum ≤ cap ∧
      ∀ d' m, l = d' ++ m → (m.map w).sum ≤ cap → d <+: d' := by
  obtain ⟨d, hd⟩ := evict_suffix w cap l
  refine ⟨d, hd.symm, sum_evict_le w cap l, fun d' m hm hle => ?_⟩
  have hs : m <:+ evict w cap l := suffix_evict w cap ⟨d', hm.symm⟩ hle
  refine List.prefix_of_prefix_length_le ⟨_, hd⟩ ⟨m, hm.symm⟩ ?_
  have h₁ := congrArg List.length hd
  have h₂ := congrArg List.length hm
  have h₃ := hs.length_le
  rw [List.length_append] at h₁ h₂
  omega

/-- **An entry is kept** while it and those behind it fit. -/
theorem evict_keeps {p : α} (ps : List α) {qs : List α} (h : ((p :: qs).map w).sum ≤ cap) :
    ∃ ps', evict w cap (ps ++ p :: qs) = ps' ++ p :: qs := by
  obtain ⟨ps', hps⟩ := suffix_evict w cap (List.suffix_append ps (p :: qs)) h
  exact ⟨ps', hps.symm⟩

theorem split_touch {p q : α} {as bs ps qs : List α} (h : as ++ q :: bs = ps ++ p :: qs) :
    ∃ ps' qs', as ++ bs ++ [q] = ps' ++ p :: qs' ∧ ∀ x ∈ qs', x ∈ qs ∨ x = q := by
  rcases List.append_eq_append_iff.mp h with ⟨_ | ⟨r, t⟩, hps, hqs⟩ | ⟨_ | ⟨r, t⟩, has, hqs⟩
  · cases hqs
    exact ⟨as ++ bs, [], rfl, fun x hx => absurd hx List.not_mem_nil⟩
  · cases hqs
    refine ⟨as ++ t, qs ++ [q], by simp, fun x hx => ?_⟩
    simpa using hx
  · cases hqs
    exact ⟨as ++ bs, [], rfl, fun x hx => absurd hx List.not_mem_nil⟩
  · cases hqs
    refine ⟨ps, t ++ bs ++ [q], by simp [has], fun x hx => ?_⟩
    simp only [List.append_eq, List.mem_append, List.mem_cons, List.not_mem_nil, or_false] at hx ⊢
    tauto

/-- The sizes of the different entries of a list. -/
def distinct [DecidableEq α] (prs : List (α × ℕ)) : ℕ := (prs.dedup.map Prod.snd).sum

theorem sum_le_distinct [DecidableEq α] {l : List α} {prs : List (α × ℕ)} (hnd : l.Nodup)
    (h : ∀ x ∈ l, (x, w x) ∈ prs) : (l.map w).sum ≤ distinct prs := by
  have hpairs : (l.map fun x => (x, w x)).Nodup :=
    hnd.map fun x y hxy => (Prod.mk.inj hxy).1
  have hsub : (l.map fun x => (x, w x)) ⊆ prs.dedup := fun a ha => by
    obtain ⟨x, hx, rfl⟩ := List.mem_map.mp ha
    exact List.mem_dedup.mpr (h x hx)
  obtain ⟨m, hperm, hle⟩ := List.subperm_of_subset hpairs hsub
  calc (l.map w).sum = ((l.map fun x => (x, w x)).map Prod.snd).sum := by
        rw [List.map_map]
        rfl
    _ = (m.map Prod.snd).sum := (hperm.map Prod.snd).sum_eq.symm
    _ ≤ distinct prs := (hle.map Prod.snd).sum_le_sum fun _ _ => Nat.zero_le _

theorem distinct_le_append [DecidableEq α] (prs prs' : List (α × ℕ)) :
    distinct prs ≤ distinct (prs ++ prs') := by
  obtain ⟨m, hperm, hle⟩ := List.subperm_of_subset (List.nodup_dedup prs)
    (fun a ha => List.mem_dedup.mpr (List.mem_append_left prs' (List.mem_dedup.mp ha)))
  calc distinct prs = (m.map Prod.snd).sum := (hperm.map Prod.snd).sum_eq.symm
    _ ≤ distinct (prs ++ prs') := (hle.map Prod.snd).sum_le_sum fun _ _ => Nat.zero_le _

/-! ## Lookups from the end -/

/-- The last entry with the property `f`. -/
def findLast (f : α → Bool) (l : List α) : Option α := l.reverse.find? f

theorem findLast_append (f : α → Bool) (l : List α) (x : α) :
    findLast f (l ++ [x]) = if f x then some x else findLast f l := by
  unfold findLast
  rw [List.reverse_append, List.reverse_singleton, List.singleton_append, List.find?_cons]
  cases f x <;> rfl

theorem findLast_none {f : α → Bool} {l : List α} : findLast f l = none ↔ ∀ x ∈ l, f x = false := by
  simp [findLast, List.find?_eq_none]

theorem findLast_congr {f g : α → Bool} {l : List α} (h : ∀ x ∈ l, f x = g x) :
    findLast f l = findLast g l := by
  induction l using List.reverseRecOn with
  | nil => rfl
  | append_singleton l x ih =>
    rw [findLast_append, findLast_append, h x (by simp), ih fun y hy => h y (by simp [hy])]

theorem mem_of_findLast {f : α → Bool} {l : List α} {x : α} (h : findLast f l = some x) :
    x ∈ l ∧ f x = true :=
  ⟨List.mem_reverse.mp (List.mem_of_find?_eq_some h), List.find?_some h⟩

theorem findLast_suffix {f : α → Bool} {l m : List α} {x : α} (hm : m <:+ l)
    (h : findLast f m = some x) : findLast f l = some x := by
  obtain ⟨d, rfl⟩ := hm
  unfold findLast at h ⊢
  rw [List.reverse_append, List.find?_append, h]
  rfl

theorem findLast_touch {f : α → Bool} {ps qs : List α} {x : α} (hx : f x = false) :
    findLast f (ps ++ qs ++ [x]) = findLast f (ps ++ x :: qs) := by
  rw [findLast_append, hx]
  simp [findLast, List.find?_append, hx]

/-! ## The time of the last use -/

variable [DecidableEq α] (used : β → Option α)

/-- The time of the last use of `p` in a history, counted from `1`; `0` without any use. -/
def lastUse (p : α) (tr : List β) : ℕ :=
  tr.length - tr.reverse.findIdx fun b => decide (used b = some p)

theorem lastUse_le (p : α) (tr : List β) : lastUse used p tr ≤ tr.length := Nat.sub_le _ _

theorem lastUse_append_used {p : α} {b : β} (h : used b = some p) (tr : List β) :
    lastUse used p (tr ++ [b]) = tr.length + 1 := by
  simp [lastUse, List.findIdx_cons, h]

theorem lastUse_append_other {p : α} {b : β} (h : used b ≠ some p) (tr : List β) :
    lastUse used p (tr ++ [b]) = lastUse used p tr := by
  simp [lastUse, List.findIdx_cons, h]

/-- The entries stand in the order of their last use. -/
def Ordered (tr : List β) (l : List α) : Prop :=
  l.Pairwise fun p q => lastUse used p tr < lastUse used q tr

variable {used} {tr : List β} {l : List α} {b : β}

theorem Ordered.sublist {m : List α} (h : Ordered used tr l) (hm : m.Sublist l) :
    Ordered used tr m :=
  List.Pairwise.sublist hm h

theorem Ordered.other (h : Ordered used tr l) (hb : ∀ p ∈ l, used b ≠ some p) :
    Ordered used (tr ++ [b]) l := by
  refine List.Pairwise.imp_of_mem (fun hp hq hlt => ?_) h
  rwa [lastUse_append_other used (hb _ hp), lastUse_append_other used (hb _ hq)]

/-- **A use of a new entry** puts it at the end. -/
theorem Ordered.append {p : α} (h : Ordered used tr l) (hp : p ∉ l) (hb : used b = some p) :
    Ordered used (tr ++ [b]) (l ++ [p]) := by
  have hne : ∀ q ∈ l, used b ≠ some q := fun q hq e => by
    rw [hb, Option.some.injEq] at e
    exact hp (e ▸ hq)
  refine List.pairwise_append.mpr ⟨h.other hne, List.pairwise_singleton _ _, fun q hq r hr => ?_⟩
  rw [List.mem_singleton.mp hr, lastUse_append_used used hb, lastUse_append_other used (hne q hq)]
  exact Nat.lt_succ_of_le (lastUse_le used q tr)

/-- **A use of an old entry** moves it to the end. -/
theorem Ordered.touch {p : α} {xs ys : List α} (h : Ordered used tr (xs ++ p :: ys))
    (hp : p ∉ xs ++ ys) (hb : used b = some p) : Ordered used (tr ++ [b]) (xs ++ ys ++ [p]) :=
  (h.sublist (List.Sublist.append_left (List.sublist_cons_self p ys) xs)).append hp hb

end Lru

import Mathlib.Data.List.Infix

/-!
# Lines of bounded length

A stream of symbols is cut into lines: each is the shortest prefix of what remains that ends with the
delimiter `d` or has `cap` symbols, or all that remains.

* `takeLine`, `dropLine`: the first line and what follows it; `takeLine_append_dropLine`;
* `IsLine`, `isLine_takeLine`: what makes the first line the first line; `Cuts`: lines cut off one after
  the other;
* `splitLines`: all lines, and `flatten_splitLines`: they are the stream;
* **`terminated_iff`**: every line ends with the delimiter exactly when the stream ends with it and
  any `cap` consecutive symbols contain it; **`innerTerminated_iff`**: so for the lines but the last.
-/

namespace Lines

variable {α : Type*} [DecidableEq α]

/-- The first line. -/
def takeLine (d : α) : ℕ → List α → List α
  | 0, _ => []
  | _ + 1, [] => []
  | k + 1, c :: cs => if c = d then [c] else c :: takeLine d k cs

/-- What follows the first line. -/
def dropLine (d : α) : ℕ → List α → List α
  | 0, cs => cs
  | _ + 1, [] => []
  | k + 1, c :: cs => if c = d then cs else dropLine d k cs

variable (d : α)

@[simp] theorem takeLine_nil (k : ℕ) : takeLine d k [] = [] := by
  cases k <;> rfl

@[simp] theorem dropLine_nil (k : ℕ) : dropLine d k [] = [] := by
  cases k <;> rfl

@[simp] theorem takeLine_append_dropLine (k : ℕ) (l : List α) :
    takeLine d k l ++ dropLine d k l = l := by
  induction k generalizing l with
  | zero => rfl
  | succ k ih =>
    cases l with
    | nil => rfl
    | cons c cs =>
      rw [takeLine, dropLine]
      split
      · rfl
      · rw [List.cons_append, ih]

/-- The first line of a stream that a delimiter ends. -/
theorem line_append {s : List α} (hs : d ∉ s) {k : ℕ} (hk : s.length < k) (t : List α) :
    takeLine d k (s ++ d :: t) = s ++ [d] ∧ dropLine d k (s ++ d :: t) = t := by
  induction s generalizing k with
  | nil =>
    obtain ⟨k, rfl⟩ : ∃ j, k = j + 1 := ⟨k - 1, by rw [List.length_nil] at hk; omega⟩
    simp [takeLine, dropLine]
  | cons c s ih =>
    obtain ⟨k, rfl⟩ : ∃ j, k = j + 1 := ⟨k - 1, by rw [List.length_cons] at hk; omega⟩
    rw [List.mem_cons, not_or] at hs
    obtain ⟨htake, hdrop⟩ := ih hs.2 (Nat.lt_of_succ_lt_succ hk)
    rw [List.cons_append, takeLine, dropLine, if_neg (Ne.symm hs.1), if_neg (Ne.symm hs.1), htake,
      hdrop]
    exact ⟨rfl, rfl⟩

theorem length_takeLine_le (k : ℕ) (l : List α) : (takeLine d k l).length ≤ k := by
  induction k generalizing l with
  | zero => exact le_rfl
  | succ k ih =>
    cases l with
    | nil => exact Nat.zero_le _
    | cons c cs =>
      rw [takeLine]
      split
      · exact Nat.le_add_left 1 k
      · exact Nat.succ_le_succ (ih cs)

theorem takeLine_ne_nil {k : ℕ} (hk : 0 < k) {l : List α} (hl : l ≠ []) : takeLine d k l ≠ [] := by
  cases k with
  | zero => exact absurd hk (lt_irrefl 0)
  | succ k =>
    cases l with
    | nil => exact absurd rfl hl
    | cons c cs =>
      rw [takeLine]
      split <;> exact List.cons_ne_nil _ _

theorem length_dropLine_lt {k : ℕ} (hk : 0 < k) {l : List α} (hl : l ≠ []) :
    (dropLine d k l).length < l.length := by
  have h := congrArg List.length (takeLine_append_dropLine d k l)
  rw [List.length_append] at h
  have := List.length_pos_iff.mpr (takeLine_ne_nil d hk hl)
  omega

/-- The delimiter ends a line and stands nowhere else in it. -/
theorem not_mem_dropLast_takeLine (k : ℕ) (l : List α) : d ∉ (takeLine d k l).dropLast := by
  induction k generalizing l with
  | zero => exact List.not_mem_nil
  | succ k ih =>
    cases l with
    | nil => exact List.not_mem_nil
    | cons c cs =>
      rw [takeLine]
      split_ifs with hc
      · exact List.not_mem_nil
      · intro hm
        cases ht : takeLine d k cs with
        | nil =>
          rw [ht] at hm
          exact absurd hm List.not_mem_nil
        | cons x xs =>
          rw [ht, List.dropLast_cons_of_ne_nil (List.cons_ne_nil _ _), ← ht] at hm
          rcases List.mem_cons.mp hm with h | h
          · exact hc h.symm
          · exact ih cs h

/-- A line that the delimiter does not end is as long as a line can be, or is all there is. -/
theorem takeLine_cut {k : ℕ} {l : List α} (h : d ∉ takeLine d k l) :
    (takeLine d k l).length = k ∨ takeLine d k l = l := by
  induction k generalizing l with
  | zero => exact Or.inl rfl
  | succ k ih =>
    cases l with
    | nil => exact Or.inr rfl
    | cons c cs =>
      rw [takeLine] at h ⊢
      split_ifs at h ⊢ with hc
      · exact absurd (List.mem_singleton.mpr hc.symm) h
      · rcases ih fun hm => h (List.mem_cons_of_mem _ hm) with h' | h'
        · exact Or.inl (by rw [List.length_cons, h'])
        · exact Or.inr (by rw [h'])

/-- Whether the delimiter ends the first line. -/
theorem mem_takeLine_iff {k : ℕ} {l : List α} : d ∈ takeLine d k l ↔ d ∈ l.take k := by
  induction k generalizing l with
  | zero => exact Iff.rfl
  | succ k ih =>
    cases l with
    | nil => exact Iff.rfl
    | cons c cs =>
      rw [takeLine, List.take_succ_cons]
      split_ifs with hc
      · rw [hc]
        exact iff_of_true List.mem_cons_self List.mem_cons_self
      · rw [List.mem_cons, List.mem_cons, ih]

/-- A delimiter at the start. -/
theorem line_of_cons {k : ℕ} (hk : 0 < k) (l : List α) :
    takeLine d k (d :: l) = [d] ∧ dropLine d k (d :: l) = l := by
  cases k with
  | zero => exact absurd hk (lt_irrefl 0)
  | succ k => exact ⟨if_pos rfl, if_pos rfl⟩

/-- A line that the delimiter does not end. -/
theorem takeLine_of_not_mem {k : ℕ} {l : List α} (h : d ∉ l.take k) :
    takeLine d k l = l.take k := by
  induction k generalizing l with
  | zero => rfl
  | succ k ih =>
    cases l with
    | nil => rfl
    | cons c cs =>
      rw [List.take_succ_cons, List.mem_cons, not_or] at h
      rw [takeLine, if_neg (Ne.symm h.1), ih h.2, List.take_succ_cons]

theorem drop_length_takeLine (k : ℕ) (l : List α) :
    l.drop (takeLine d k l).length = dropLine d k l := by
  have h := @List.drop_left _ (takeLine d k l) (dropLine d k l)
  rwa [takeLine_append_dropLine] at h

omit [DecidableEq α] in
/-- `line` is the shortest prefix of `l` that ends with the delimiter or has `k` symbols, or all of
`l`. -/
structure IsLine (k : ℕ) (l line : List α) : Prop where
  pre : line <+: l
  ends : line.getLast? = some d ∨ line.length = k ∨ line = l
  shortest : ∀ p, p <+: line → p ≠ line → p.getLast? ≠ some d ∧ p.length ≠ k

omit [DecidableEq α] in
theorem prefix_dropLast {p l : List α} (h : p <+: l) (hne : p ≠ l) : p <+: l.dropLast := by
  have hlt : p.length < l.length := by
    refine lt_of_le_of_ne h.length_le ?_
    intro he
    exact hne (h.eq_of_length he)
  rw [List.prefix_iff_eq_take.mp h, List.dropLast_eq_take]
  exact List.take_prefix_take_left (by omega)

/-- **The first line** is what it should be. -/
theorem isLine_takeLine (k : ℕ) (l : List α) : IsLine d k l (takeLine d k l) where
  pre := ⟨dropLine d k l, takeLine_append_dropLine d k l⟩
  ends := by
    by_cases hm : d ∈ takeLine d k l
    · left
      have hne : takeLine d k l ≠ [] := List.ne_nil_of_mem hm
      have hcat := List.dropLast_append_getLast hne
      rw [← hcat, List.mem_append, List.mem_singleton] at hm
      have hlast := hm.resolve_left (not_mem_dropLast_takeLine d k l)
      rw [List.getLast?_eq_some_getLast hne, ← hlast]
    · right
      exact takeLine_cut d hm
  shortest := by
    intro p hp hne
    have hd := prefix_dropLast hp hne
    constructor
    · intro hlast
      exact not_mem_dropLast_takeLine d k l (hd.subset (List.mem_of_getLast? hlast))
    · have hlt : p.length < (takeLine d k l).length :=
        lt_of_le_of_ne hp.length_le fun he => hne (hp.eq_of_length he)
      have := length_takeLine_le d k l
      omega

omit [DecidableEq α] in
/-- From `l` the lines are cut off one after the other. -/
def Cuts (k : ℕ) : List α → List (List α) → Prop
  | _, [] => True
  | l, line :: lines => IsLine d k l line ∧ Cuts k (l.drop line.length) lines

/-! ## All lines -/

/-- The lines of a stream, of at most `k + 1` symbols each. -/
def splitLines (k : ℕ) (l : List α) : List (List α) :=
  if h : l = [] then [] else takeLine d (k + 1) l :: splitLines k (dropLine d (k + 1) l)
termination_by l.length
decreasing_by exact length_dropLine_lt d (Nat.succ_pos k) h

@[simp] theorem splitLines_nil (k : ℕ) : splitLines d k [] = [] := by
  rw [splitLines, dif_pos rfl]

theorem splitLines_of_ne_nil (k : ℕ) {l : List α} (h : l ≠ []) :
    splitLines d k l = takeLine d (k + 1) l :: splitLines d k (dropLine d (k + 1) l) := by
  rw [splitLines, dif_neg h]

/-- Induction over the lines of a stream. -/
theorem line_induction (k : ℕ) {P : List α → Prop} (nil : P [])
    (line : ∀ l, l ≠ [] → P (dropLine d (k + 1) l) → P l) (l : List α) : P l := by
  induction hn : l.length using Nat.strong_induction_on generalizing l with
  | _ n ih =>
    by_cases hl : l = []
    · exact hl ▸ nil
    · exact line l hl (ih _ (hn ▸ length_dropLine_lt d (Nat.succ_pos k) hl) _ rfl)

@[simp] theorem flatten_splitLines (k : ℕ) (l : List α) : (splitLines d k l).flatten = l := by
  induction l using line_induction d k with
  | nil => rw [splitLines_nil, List.flatten_nil]
  | line l hl ih =>
    rw [splitLines_of_ne_nil d k hl, List.flatten_cons, ih, takeLine_append_dropLine]

theorem length_le_of_mem_splitLines {k : ℕ} {l p : List α} (h : p ∈ splitLines d k l) :
    p.length ≤ k + 1 := by
  induction l using line_induction d k with
  | nil =>
    rw [splitLines_nil] at h
    cases h
  | line l hl ih =>
    rw [splitLines_of_ne_nil d k hl] at h
    rcases List.mem_cons.mp h with rfl | h
    · exact length_takeLine_le d (k + 1) l
    · exact ih h

theorem splitLines_ne_nil (k : ℕ) {l : List α} (h : l ≠ []) : splitLines d k l ≠ [] := by
  rw [splitLines_of_ne_nil d k h]
  exact List.cons_ne_nil _ _

/-! ## Terminated lines -/

/-- Every line ends with the delimiter. -/
def Terminated (k : ℕ) (l : List α) : Prop := ∀ p ∈ splitLines d k l, d ∈ p

/-- Every line but the last ends with the delimiter. -/
def InnerTerminated (k : ℕ) (l : List α) : Prop := ∀ p ∈ (splitLines d k l).dropLast, d ∈ p

/-- Any `k + 1` consecutive symbols contain the delimiter. -/
def Dense (k : ℕ) (l : List α) : Prop := ∀ w, w <:+: l → w.length = k + 1 → d ∈ w

variable {d}

theorem terminated_nil (k : ℕ) : Terminated d k [] := fun p hp => by
  rw [splitLines_nil] at hp
  exact absurd hp List.not_mem_nil

theorem terminated_iff_of_ne_nil {k : ℕ} {l : List α} (h : l ≠ []) :
    Terminated d k l ↔ d ∈ takeLine d (k + 1) l ∧ Terminated d k (dropLine d (k + 1) l) := by
  rw [Terminated, splitLines_of_ne_nil d k h, List.forall_mem_cons]
  rfl

omit [DecidableEq α] in
theorem Dense.infix {k : ℕ} {l m : List α} (h : Dense d k l) (hm : m <:+: l) : Dense d k m :=
  fun w hw => h w (hw.trans hm)

omit [DecidableEq α] in
theorem dense_of_length {k : ℕ} {l : List α} (h : l.length ≤ k) : Dense d k l := fun w hw hk => by
  have := hw.length_le
  omega

omit [DecidableEq α] in
/-- A window that begins inside a terminated line of at most its length contains the delimiter. -/
theorem mem_of_infix_append {p r w : List α} (h : w <:+: p ++ d :: r) (hp : p.length < w.length) :
    d ∈ w ∨ w <:+: r := by
  obtain ⟨s, t, h⟩ := h
  rw [List.append_assoc] at h
  rcases List.append_eq_append_iff.mp h with ⟨a, rfl, hw⟩ | ⟨a, rfl, hr⟩
  · left
    rw [List.length_append] at hp
    rcases List.append_eq_append_iff.mp hw with ⟨b, rfl, -⟩ | ⟨b, rfl, hb⟩
    · rw [List.length_append] at hp
      omega
    · cases b with
      | nil =>
        rw [List.append_nil] at hp
        omega
      | cons x b =>
        rw [List.cons_append, List.cons.injEq] at hb
        exact List.mem_append_right _ (hb.1 ▸ List.mem_cons_self)
  · cases a with
    | nil =>
      left
      cases w with
      | nil => exact absurd hp (Nat.not_lt_zero _)
      | cons x w =>
        rw [List.nil_append, List.cons_append, List.cons.injEq] at hr
        exact hr.1 ▸ List.mem_cons_self
    | cons x a =>
      right
      rw [List.cons_append, List.cons.injEq] at hr
      exact ⟨a, t, by rw [List.append_assoc, ← hr.2]⟩

/-- A terminated first line ends with the delimiter. -/
theorem takeLine_eq_of_mem {k : ℕ} {l : List α} (h : d ∈ takeLine d k l) :
    takeLine d k l = (takeLine d k l).dropLast ++ [d] := by
  have hne : takeLine d k l ≠ [] := List.ne_nil_of_mem h
  have hlast : (takeLine d k l).getLast hne = d := by
    by_contra hc
    rw [← List.dropLast_append_getLast hne, List.mem_append, List.mem_singleton] at h
    rcases h with h | h
    · exact not_mem_dropLast_takeLine d k l h
    · exact hc h.symm
  conv_lhs => rw [← List.dropLast_append_getLast hne, hlast]

/-- Behind a terminated first line nothing but the rest can be free of delimiters for long. -/
theorem dense_append_iff {k : ℕ} {l r : List α} (h : d ∈ takeLine d (k + 1) l) :
    Dense d k (takeLine d (k + 1) l ++ r) ↔ Dense d k r := by
  refine ⟨fun hd => hd.infix ⟨takeLine d (k + 1) l, [], by simp⟩, fun hd w hw hk => ?_⟩
  have hlen := length_takeLine_le d (k + 1) l
  rw [takeLine_eq_of_mem h] at hw hlen
  rw [List.length_append, List.length_singleton] at hlen
  rw [List.append_assoc, List.singleton_append] at hw
  rcases mem_of_infix_append hw (by omega) with hm | hr
  · exact hm
  · exact hd w hr hk

/-- Where the first line is cut at its greatest length, the stream is not dense. -/
theorem not_dense_append {k : ℕ} {l r : List α} (h : d ∉ takeLine d (k + 1) l)
    (hk : (takeLine d (k + 1) l).length = k + 1) : ¬ Dense d k (takeLine d (k + 1) l ++ r) :=
  fun hd => h (hd _ ⟨[], r, by simp⟩ hk)

/-- **Every line but the last is terminated exactly when** any `k + 1` consecutive symbols before the
last one contain the delimiter. -/
theorem innerTerminated_iff {k : ℕ} {l : List α} :
    InnerTerminated d k l ↔ Dense d k l.dropLast := by
  induction l using line_induction d k with
  | nil =>
    refine iff_of_true (fun p hp => ?_) (dense_of_length (by simp))
    simp at hp
  | line l hl ih =>
    have happ := takeLine_append_dropLine d (k + 1) l
    have hlen := length_takeLine_le d (k + 1) l
    rw [InnerTerminated, splitLines_of_ne_nil d k hl]
    by_cases hr : dropLine d (k + 1) l = []
    · rw [hr, List.append_nil] at happ
      refine iff_of_true (fun p hp => ?_) (dense_of_length ?_)
      · rw [hr] at hp
        simp at hp
      · rw [← happ, List.length_dropLast]
        omega
    · rw [List.dropLast_cons_of_ne_nil (splitLines_ne_nil d k hr), List.forall_mem_cons]
      have hdrop : l.dropLast = takeLine d (k + 1) l ++ (dropLine d (k + 1) l).dropLast := by
        conv_lhs => rw [← happ, List.dropLast_append_of_ne_nil hr]
      rw [hdrop]
      by_cases hm : d ∈ takeLine d (k + 1) l
      · rw [dense_append_iff hm]
        exact ⟨fun h => ih.mp h.2, fun h => ⟨hm, ih.mpr h⟩⟩
      · refine iff_of_false (fun h => hm h.1) (not_dense_append hm ?_)
        rcases takeLine_cut d hm with h | h
        · exact h
        · rw [h, List.append_right_eq_self] at happ
          exact absurd happ hr

/-- The last line is terminated when the stream is. -/
theorem mem_last_splitLines {k : ℕ} {l p : List α} (h : (splitLines d k l).getLast? = some p) :
    d ∈ p ↔ l.getLast? = some d := by
  induction l using line_induction d k with
  | nil => simp at h
  | line l hl ih =>
    have happ := takeLine_append_dropLine d (k + 1) l
    rw [splitLines_of_ne_nil d k hl] at h
    by_cases hr : dropLine d (k + 1) l = []
    · rw [hr, splitLines_nil, List.getLast?_singleton, Option.some.injEq] at h
      rw [hr, List.append_nil] at happ
      subst h
      refine ⟨fun hm => ?_, fun hm => ?_⟩
      · rw [← happ, takeLine_eq_of_mem hm, List.getLast?_concat]
      · rw [happ]
        exact List.mem_of_getLast? hm
    · rw [List.getLast?_cons_of_ne_nil (splitLines_ne_nil d k hr)] at h
      rw [ih h, ← List.getLast?_append_of_ne_nil (takeLine d (k + 1) l) hr, happ]

/-- **Every line is terminated exactly when** the stream is, and any `k + 1` consecutive symbols
before the last one contain the delimiter. -/
theorem terminated_iff {k : ℕ} {l : List α} :
    Terminated d k l ↔ (l = [] ∨ l.getLast? = some d) ∧ Dense d k l.dropLast := by
  rw [← innerTerminated_iff]
  by_cases hl : l = []
  · subst hl
    simp [Terminated, InnerTerminated]
  · have hne := splitLines_ne_nil d k hl
    have hlast := mem_last_splitLines (List.getLast?_eq_some_getLast hne)
    rw [Terminated, InnerTerminated]
    conv_lhs => rw [← List.dropLast_append_getLast hne]
    rw [List.forall_mem_append, List.forall_mem_singleton, hlast, and_comm]
    simp only [hl, false_or]

end Lines

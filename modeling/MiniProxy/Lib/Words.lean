import Mathlib.Data.List.TakeWhile
import Mathlib.Tactic.SplitIfs

/-!
# Words

A text is split at its separators, and what is not empty between them are its words.

* `words p l`: the words of `l` between the symbols with the property `p`;
* `words_cons_sep`, `words_append`: a separator in front, and a word in front;
* **`words_eq`**: the first word and the words behind it, as two scans find them.
-/

namespace Words

variable {α : Type*} (p : α → Bool)

/-- The words of `l`. -/
def words (l : List α) : List (List α) := (l.splitOnP p).filter (· ≠ [])

@[simp] theorem words_nil : words p [] = [] := by
  simp [words]

variable {p}

theorem words_cons_sep {c : α} (hc : p c = true) (l : List α) : words p (c :: l) = words p l := by
  rw [words, List.splitOnP_cons_eq_if_modifyHead, if_pos hc, List.filter_cons]
  simp [words]

theorem words_append {w l : List α} (hw : w ≠ []) (hp : ∀ c ∈ w, p c = false)
    (hl : ∀ c ∈ l.head?, p c = true) : words p (w ++ l) = w :: words p l := by
  cases l with
  | nil =>
    rw [List.append_nil, words_nil, words, List.splitOnP_eq_singleton hp]
    simp [hw]
  | cons c l =>
    have hc := hl c rfl
    rw [words_cons_sep hc, words, List.splitOnP_append_cons_of_forall_mem hp c hc, List.filter_cons]
    simp [hw, words]

theorem words_dropWhile (l : List α) : words p (l.dropWhile p) = words p l := by
  induction l with
  | nil => rfl
  | cons c l ih =>
    rw [List.dropWhile_cons]
    split_ifs with hc
    · rw [ih, words_cons_sep hc]
    · rfl

/-- **The words**: there is none when only separators are left; else the first is scanned, and the others
follow. -/
theorem words_eq (l : List α) : words p l =
    if l.dropWhile p = [] then []
    else (l.dropWhile p).takeWhile (fun c => !p c) ::
      words p ((l.dropWhile p).dropWhile fun c => !p c) := by
  rw [← words_dropWhile l]
  split_ifs with hnil
  · rw [hnil, words_nil]
  · have hhead := List.head?_dropWhile_not p l
    generalize l.dropWhile p = m at *
    obtain ⟨c, m, rfl⟩ := List.exists_cons_of_ne_nil hnil
    have hc : p c = false := by simpa using hhead
    have hfirst := words_append (p := p) (w := (c :: m).takeWhile fun c => !p c)
      (l := (c :: m).dropWhile fun c => !p c) ?_ ?_ ?_
    · rwa [List.takeWhile_append_dropWhile] at hfirst
    · rw [List.takeWhile_cons, hc]
      exact List.cons_ne_nil c _
    · intro d hd
      simpa using List.mem_takeWhile_imp hd
    · intro d hd
      have hstop := List.head?_dropWhile_not (fun c => !p c) (c :: m)
      rw [Option.mem_def.mp hd] at hstop
      simpa using hstop

end Words

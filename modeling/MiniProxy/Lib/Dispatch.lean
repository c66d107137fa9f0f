import Mathlib.Data.List.Count
import Mathlib.Data.List.Range
import Mathlib.Data.Finset.Card
import MiniProxy.Lib.Threads

/-!
# Jobs and workers

Jobs are numbered as they arrive. They wait in a queue of capacity `n` until a worker takes them, and
a worker has one job at a time. Jobs that have been finished never come back.

* `State`, `Op`, `Step`: the dispatcher, what happens to a job, and one such operation;
* **`path_taken`**: along a run, the jobs that were taken, those that wait and the one on its way into
  the queue are `0, 1, 2, …`, in this order;
* **`path_count`**: a job was taken as often as it was finished or is in some worker's hands;
* `busy_inj`, `not_mem_waiting`, `not_arriving`: a job is in one place only;
* `card_le_of_held`: at most `n + 1` jobs, and one for each worker, are not finished.
-/

namespace Dispatch

variable {ω : Type*}

/-- The number of jobs so far, the one on its way into the queue, those in the queue, and the workers'. -/
structure State (ω : Type*) where
  arrived : ℕ
  arriving : Option ℕ
  waiting : List ℕ
  busy : ω → Option ℕ

/-- No job has arrived. -/
def init : State ω := ⟨0, none, [], fun _ => none⟩

/-- What happens to a job. -/
inductive Op (ω : Type*) where
  | arrive
  | put
  | take (w : ω)
  | finish (w : ω)

/-- One operation, and the job that it is about. -/
inductive Step [DecidableEq ω] (n : ℕ) : State ω → Op ω × ℕ → State ω → Prop
  | arrive (t : State ω) (h : t.arriving = none) :
      Step n t (.arrive, t.arrived) { t with arrived := t.arrived + 1, arriving := some t.arrived }
  | put (t : State ω) (k : ℕ) (h : t.arriving = some k) (hlt : t.waiting.length < n) :
      Step n t (.put, k) { t with arriving := none, waiting := t.waiting ++ [k] }
  | take (t : State ω) (w : ω) (k : ℕ) (q : List ℕ) (h : t.waiting = k :: q)
      (hw : t.busy w = none) :
      Step n t (.take w, k) { t with waiting := q, busy := Function.update t.busy w (some k) }
  | finish (t : State ω) (w : ω) (k : ℕ) (h : t.busy w = some k) :
      Step n t (.finish w, k) { t with busy := Function.update t.busy w none }

/-- A worker takes the job. -/
def Op.isTake : Op ω → Bool
  | .take _ => true
  | _ => false

/-- A worker finishes the job. -/
def Op.isFinish : Op ω → Bool
  | .finish _ => true
  | _ => false

/-- The jobs of the operations of a kind, in order. -/
def jobs (f : Op ω → Bool) (tr : List (Op ω × ℕ)) : List ℕ := (tr.filter fun a => f a.1).map Prod.snd

/-- The jobs that workers have taken along a run. -/
abbrev taken (tr : List (Op ω × ℕ)) : List ℕ := jobs Op.isTake tr

/-- The jobs that workers have finished along a run. -/
abbrev finished (tr : List (Op ω × ℕ)) : List ℕ := jobs Op.isFinish tr

theorem jobs_snoc (f : Op ω → Bool) (tr : List (Op ω × ℕ)) (a : Op ω × ℕ) :
    jobs f (tr ++ [a]) = jobs f tr ++ if f a.1 then [a.2] else [] := by
  rw [jobs, List.filter_append, List.map_append]
  by_cases h : f a.1 = true <;> simp [jobs, h]

/-- The number of jobs of a kind is the number of operations of this kind. -/
theorem length_jobs (f : Op ω → Bool) (tr : List (Op ω × ℕ)) :
    (jobs f tr).length = ((tr.map Prod.fst).filter f).length := by
  rw [jobs, List.length_map, List.filter_map, List.length_map]
  rfl

variable [DecidableEq ω] {n : ℕ} {tr : List (Op ω × ℕ)} {t : State ω}

/-- **No job is lost, doubled or overtaken** on its way to a worker. -/
theorem path_taken (h : Lts.Path (Step n) init tr t) :
    taken tr ++ t.waiting ++ t.arriving.toList = List.range t.arrived := by
  refine Lts.Path.invariant
    (fun tr t => taken tr ++ t.waiting ++ t.arriving.toList = List.range t.arrived) rfl ?_ h
  intro tr t a t' ht hs
  rw [taken, jobs_snoc]
  cases hs with
  | arrive hnone =>
    rw [hnone, Option.toList_none, List.append_nil] at ht
    simp [Op.isTake, List.range_succ, ← ht]
  | put k hk hlt =>
    rw [hk] at ht
    simpa [Op.isTake] using ht
  | take w k q hq hw =>
    rw [hq] at ht
    simpa [Op.isTake] using ht
  | finish w k hk => simpa [Op.isTake] using ht

theorem path_waiting_le (h : Lts.Path (Step n) init tr t) : t.waiting.length ≤ n := by
  refine Lts.Path.invariant_state (fun t : State ω => t.waiting.length ≤ n) ?_ ?_ h
  · exact Nat.zero_le n
  intro t a t' ht hs
  cases hs with
  | arrive | finish => exact ht
  | put k hk hlt =>
    rw [List.length_append, List.length_singleton]
    omega
  | take w k q hq hw =>
    rw [hq, List.length_cons] at ht
    show q.length ≤ n
    omega

/-- The job that is taken next has the number of those taken before. -/
theorem head_waiting (h : Lts.Path (Step n) init tr t) {k : ℕ} {q : List ℕ}
    (hq : t.waiting = k :: q) : k = (taken tr).length := by
  have ht := congrArg (·[(taken tr).length]?) (path_taken h)
  simp only [hq, List.append_assoc, List.getElem?_append_right le_rfl, Nat.sub_self,
    List.cons_append, List.getElem?_cons_zero] at ht
  obtain ⟨hlt, hk⟩ := List.getElem?_eq_some_iff.mp ht.symm
  rw [← hk, List.getElem_range]

theorem nodup_taken (h : Lts.Path (Step n) init tr t) :
    (taken tr ++ t.waiting ++ t.arriving.toList).Nodup := by
  rw [path_taken h]
  exact List.nodup_range

/-! ## The workers -/

section Workers

variable [Fintype ω]

/-- One if the worker has the job. -/
def holds (k : ℕ) (b : Option ℕ) : ℕ := if b = some k then 1 else 0

/-- **A job was taken as often as it was finished**, or it is in the hands of a worker. -/
theorem path_count (h : Lts.Path (Step n) init tr t) (k : ℕ) :
    (taken tr).count k = (finished tr).count k + Threads.total (holds k) t.busy := by
  refine Lts.Path.invariant
    (fun tr t => (taken tr).count k = (finished tr).count k + Threads.total (holds k) t.busy)
    ?_ ?_ h
  · simp [init, jobs, Threads.total_const (holds k) none rfl]
  intro tr t a t' ht hs
  rw [taken, finished] at ht ⊢
  rw [jobs_snoc, jobs_snoc, List.count_append, List.count_append]
  cases hs with
  | arrive | put => simpa [Op.isTake, Op.isFinish] using ht
  | take w j q hq hw =>
    have hu := Threads.total_update (holds k) t.busy w (some j)
    have h₀ : holds k (t.busy w) = 0 := by simp [holds, hw]
    have h₁ : holds k (some j) = [j].count k := by
      by_cases hjk : j = k <;> simp [holds, hjk]
    simp only [Op.isTake, Op.isFinish, if_true, Bool.false_eq_true, if_false, List.count_nil]
    omega
  | finish w j hj =>
    have hu := Threads.total_update (holds k) t.busy w none
    have h₀ : holds k none = 0 := rfl
    have h₁ : holds k (t.busy w) = [j].count k := by
      by_cases hjk : j = k <;> simp [holds, hj, hjk]
    simp only [Op.isTake, Op.isFinish, if_true, Bool.false_eq_true, if_false, List.count_nil]
    omega

/-- A job in the hands of a worker was taken, and is not finished. -/
theorem mem_taken_of_busy (h : Lts.Path (Step n) init tr t) {w : ω} {k : ℕ}
    (hw : t.busy w = some k) : k ∈ taken tr ∧ k ∉ finished tr := by
  have hc := path_count h k
  have hle := Threads.le_total (holds k) t.busy w
  have hone : holds k (t.busy w) = 1 := if_pos hw
  have hnodup : (taken tr).count k ≤ 1 :=
    List.nodup_iff_count_le_one.mp (nodup_taken h).of_append_left.of_append_left k
  exact ⟨List.count_pos_iff.mp (by omega), List.count_eq_zero.mp (by omega)⟩

/-- A job that is finished was taken, and no job is finished twice. -/
theorem finished_of_taken (h : Lts.Path (Step n) init tr t) :
    finished tr ⊆ taken tr ∧ (finished tr).Nodup := by
  have hle : ∀ k, (finished tr).count k ≤ (taken tr).count k := fun k => by
    have := path_count h k
    omega
  refine ⟨fun k hk => ?_, List.nodup_iff_count_le_one.mpr fun k => ?_⟩
  · exact List.count_pos_iff.mp ((List.count_pos_iff.mpr hk).trans_le (hle k))
  · exact (hle k).trans
      (List.nodup_iff_count_le_one.mp (nodup_taken h).of_append_left.of_append_left k)

/-- **No two workers have the same job.** -/
theorem busy_inj (h : Lts.Path (Step n) init tr t) {w w' : ω} {k : ℕ} (hw : t.busy w = some k)
    (hw' : t.busy w' = some k) : w = w' := by
  by_contra hne
  have hc := path_count h k
  have hle := Threads.add_le_total (holds k) t.busy hne
  have hone : holds k (t.busy w) = 1 := if_pos hw
  have hone' : holds k (t.busy w') = 1 := if_pos hw'
  have hnodup : (taken tr).count k ≤ 1 :=
    List.nodup_iff_count_le_one.mp (nodup_taken h).of_append_left.of_append_left k
  omega

/-- The job of a worker does not wait. -/
theorem not_mem_waiting (h : Lts.Path (Step n) init tr t) {w : ω} {k : ℕ}
    (hw : t.busy w = some k) : k ∉ t.waiting := fun hk =>
  (List.disjoint_of_nodup_append (nodup_taken h).of_append_left) (mem_taken_of_busy h hw).1 hk

/-- The job of a worker is not on its way into the queue. -/
theorem not_arriving (h : Lts.Path (Step n) init tr t) {w : ω} {k : ℕ} (hw : t.busy w = some k) :
    t.arriving ≠ some k := fun hk =>
  (List.disjoint_of_nodup_append (nodup_taken h))
    (List.mem_append_left _ (mem_taken_of_busy h hw).1) (by simp [hk])

/-- The job has arrived and is not finished. -/
def State.Held (t : State ω) (k : ℕ) : Prop :=
  t.arriving = some k ∨ k ∈ t.waiting ∨ ∃ w, t.busy w = some k

theorem lt_of_held (h : Lts.Path (Step n) init tr t) {k : ℕ} (hk : t.Held k) : k < t.arrived := by
  have hmem : k ∈ taken tr ++ t.waiting ++ t.arriving.toList := by
    simp only [List.mem_append, Option.mem_toList]
    rcases hk with ha | hq | ⟨w, hw⟩
    · exact .inr ha
    · exact .inl (.inr hq)
    · exact .inl (.inl (mem_taken_of_busy h hw).1)
  rw [path_taken h] at hmem
  exact List.mem_range.mp hmem

omit [DecidableEq ω] [Fintype ω] in
/-- Everything is finished. -/
theorem not_held {k : ℕ} (ha : t.arriving = none) (hq : t.waiting = []) (hb : ∀ w, t.busy w = none) :
    ¬ t.Held k := by
  rintro (h | h | ⟨w, h⟩)
  · rw [ha] at h
    cases h
  · rw [hq] at h
    cases h
  · rw [hb w] at h
    cases h

/-- **How many jobs are not finished.** -/
theorem card_le_of_held (h : Lts.Path (Step n) init tr t) {S : Finset ℕ} (hS : ∀ k ∈ S, t.Held k) :
    S.card ≤ n + Fintype.card ω + 1 := by
  have hsub : S ⊆ t.arriving.toFinset ∪ t.waiting.toFinset ∪
      Finset.univ.biUnion fun w => (t.busy w).toFinset := by
    intro k hk
    simp only [Finset.mem_union, Finset.mem_biUnion, Finset.mem_univ, true_and, List.mem_toFinset,
      Option.mem_toFinset, Option.mem_def]
    rcases hS k hk with ha | hq | hb
    · exact .inl (.inl ha)
    · exact .inl (.inr hq)
    · exact .inr hb
  have ha : t.arriving.toFinset.card ≤ 1 := by cases t.arriving <;> simp
  have hq : t.waiting.toFinset.card ≤ n := (List.toFinset_card_le _).trans (path_waiting_le h)
  have hb : (Finset.univ.biUnion fun w => (t.busy w).toFinset).card ≤ Fintype.card ω * 1 :=
    Finset.card_biUnion_le_card_mul _ _ _ fun w _ => by cases t.busy w <;> simp
  calc S.card ≤ _ := Finset.card_le_card hsub
    _ ≤ t.arriving.toFinset.card + t.waiting.toFinset.card + _ :=
      (Finset.card_union_le _ _).trans (Nat.add_le_add_right (Finset.card_union_le _ _) _)
    _ ≤ n + Fintype.card ω + 1 := by omega

end Workers

end Dispatch

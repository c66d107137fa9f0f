import MiniProxy.Cache.Code
import MiniProxy.Cache.Repr

/-!
# The functions of the cache keep the discipline of the lock

"Release lock at every exit point, do not nest critical sections." The places of the readers-writer
lock are the modes of the code: every body is checked once, and a run of the code is then a run of the
lock.

* `discipline`, `checked`: how each statement moves a thread in the lock, and that all bodies fit;
* `Own.of`: what a thread at a place of the lock has taken;
* `act_step`, `lock_step`: a statement, and a step, of the code as a step of the lock;
* `Locked`, `simulates`: the code simulates the lock;
* **`lock_discipline`**: every function returns with nothing taken, no section is entered inside
  another one, and while a call is unfinished some thread can go on.
-/

namespace MiniProxy.CacheCode

open Code Code.Discipline
open RwLock (Lock lockInit Blocked)

/-- How a statement of a function moves a thread in the lock. -/
def actMode : Fn → Act → RwLock.Pc → Option RwLock.Pc
  | .preRead, .P .mutex, .preReadP => some .preReadInc
  | .preRead, .readcntInc, .preReadInc => some .preReadTest
  | .preRead, .P .w, .preReadW => some .preReadV
  | .preRead, .V .mutex, .preReadV => some .reading
  | .postRead, .P .mutex, .postReadP => some .postReadDec
  | .postRead, .readcntDec, .postReadDec => some .postReadTest
  | .postRead, .V .w, .postReadW => some .postReadV
  | .postRead, .V .mutex, .postReadV => some .out
  | .preWrite, .P .w, .preWrite => some .writing
  | .postWrite, .V .w, .postWrite => some .out
  | _, .access _, m => some m
  | _, _, _ => none

/-- How a condition moves a thread in the lock. -/
def condMode : Cond → Bool → RwLock.Pc → Option RwLock.Pc
  | .readcnt 1, true, .preReadTest => some .preReadW
  | .readcnt 1, false, .preReadTest => some .preReadV
  | .readcnt 0, true, .postReadTest => some .postReadW
  | .readcnt 0, false, .postReadTest => some .postReadV
  | .queue _, _, m => some m
  | _, _, _ => none

/-- `pre_read` and `pre_write` are called outside of every section, `post_read` and `post_write` inside
of one, and all other functions leave no trace. -/
def discipline : Discipline Act Cond Fn RwLock.Pc where
  act := actMode
  test := condMode
  pre
    | .postRead => .reading
    | .postWrite => .writing
    | _ => .out
  entry
    | .preRead => .preReadP
    | .postRead => .postReadP
    | .preWrite => .preWrite
    | .postWrite => .postWrite
    | _ => .out
  post
    | .preRead => .reading
    | .preWrite => .writing
    | _ => .out
  idle := .out

/-- **Every body keeps the discipline**, on each of its paths. -/
theorem checked : discipline.Checked body Fn.Api where
  body f := by
    cases f with
    | preRead | postRead | preWrite | postWrite | cacheCheck | enqueue | update | addCache
    | cacheDestroy => exact fits_of_flow rfl
    | dequeue | isCached | sigtermHandler => exact fits_of_returns rfl
  api f hf := by
    cases f <;> first | exact ⟨rfl, rfl⟩ | exact hf.elim

/-- What a thread at a place of the lock has taken. -/
def Own.of (p : RwLock.Pc) : Own := ⟨p.inMutex.toNat, p.counted.toNat, p.inWrite.toNat⟩

theorem Own.of_out : Own.of .out = .none := rfl

/-- The functions of the lock. -/
def Fn.isLock : Fn → Bool
  | .preRead | .postRead | .preWrite | .postWrite => true
  | _ => false

/-- The steps that the lock takes part in. -/
def locks : Label Act Cond Fn → Bool
  | .act _ (.access _) | .test (.queue _) _ | .tau | .ret _ => false
  | .act _ _ | .test (.readcnt _) _ => true
  | .start f | .call f => f.isLock

/-! ## Steps -/

section Steps

variable {D V : Type*} {I : Data D V} {l : Label Act Cond Fn} {p p' : RwLock.Pc}

theorem own_after (h : discipline.after l p = some p') : (Own.of p).after l = Own.of p' := by
  cases l with
  | tau =>
    cases h
    rfl
  | act f a =>
    simp only [after, discipline] at h
    unfold actMode at h
    split at h <;> cases h <;> rfl
  | test b v =>
    simp only [after, discipline] at h
    unfold condMode at h
    split at h <;> cases h <;> rfl
  | start f | call f =>
    simp only [after] at h
    split_ifs at h with hp
    cases h
    subst hp
    cases f <;> rfl
  | ret f =>
    simp only [after] at h
    split_ifs at h
    cases h
    rfl

theorem call_step (l : Lock) (f : Fn) :
    (f.isLock = false ∧ discipline.entry f = discipline.pre f) ∨
      (f.isLock = true ∧ RwLock.TStep l (discipline.pre f) () l (discipline.entry f)) := by
  cases f with
  | preRead => exact .inr ⟨rfl, .preRead l⟩
  | postRead => exact .inr ⟨rfl, .postRead l⟩
  | preWrite => exact .inr ⟨rfl, .preWrite l⟩
  | postWrite => exact .inr ⟨rfl, .postWrite l⟩
  | _ => exact .inl ⟨rfl, rfl⟩

theorem act_step {f : Fn} {a : Act} {lk : Lock} (h : actMode f a p = some p')
    (ha : ∀ b, a ≠ .access b) (hready : a.Ready lk) : RwLock.TStep lk p () (a.onLock lk) p' := by
  unfold actMode at h
  split at h <;> cases h
  · exact .preReadP lk hready
  · exact .preReadInc lk
  · exact .preReadW lk hready
  · exact .preReadV lk
  · exact .postReadP lk hready
  · exact .postReadDec lk
  · exact .postReadW lk
  · exact .postReadV lk
  · exact .preWriteP lk hready
  · exact .postWriteV lk
  · exact absurd rfl (ha _)

theorem eq_of_actMode_access {f : Fn} {b : Access} (h : actMode f (.access b) p = some p') :
    p' = p := by
  unfold actMode at h
  split at h <;> cases h <;> first | rfl | (rename_i heq; cases heq)

theorem ready_of_not_blocked {f : Fn} {a : Act} {lk : Lock} (h : actMode f a p = some p')
    (hfree : ¬ Blocked lk p) : a.Ready lk := by
  unfold actMode at h
  split at h <;> cases h <;> first | trivial | exact Nat.pos_of_ne_zero fun h0 => hfree h0

theorem lock_step {m m' : Mem D} {x y : V} (he : Effect I m x l m' y)
    (h : discipline.after l p = some p') :
    (locks l = false ∧ m'.lock = m.lock ∧ p' = p) ∨
      (locks l = true ∧ RwLock.TStep m.lock p () m'.lock p') := by
  cases he with
  | tau =>
    cases h
    exact .inl ⟨rfl, rfl, rfl⟩
  | start _ _ _ f =>
    simp only [after] at h
    split_ifs at h with hp
    cases h
    subst hp
    exact (call_step m.lock f).imp_left fun hf => ⟨hf.1, rfl, hf.2⟩
  | call _ _ f =>
    simp only [after] at h
    split_ifs at h with hp
    cases h
    subst hp
    exact (call_step m.lock f).imp_left fun hf => ⟨hf.1, rfl, hf.2⟩
  | ret =>
    simp only [after] at h
    split_ifs at h
    cases h
    exact .inl ⟨rfl, rfl, rfl⟩
  | access => exact .inl ⟨rfl, rfl, eq_of_actMode_access h⟩
  | queue =>
    cases h
    exact .inl ⟨rfl, rfl, rfl⟩
  | readcnt _ _ n =>
    refine .inr ⟨rfl, ?_⟩
    simp only [after, discipline] at h
    generalize hv : decide (m.lock.readcnt = n) = v at h
    unfold condMode at h
    split at h <;> cases h <;> rename_i heq <;> cases heq
    · exact .preReadFirst _ (of_decide_eq_true hv)
    · exact .preReadLater _ (of_decide_eq_false hv)
    · exact .postReadLast _ (of_decide_eq_true hv)
    · exact .postReadOther _ (of_decide_eq_false hv)
  | pMutex lk d _ f hpos => exact .inr ⟨rfl, act_step h (by simp) hpos⟩
  | pW lk d _ f hpos => exact .inr ⟨rfl, act_step h (by simp) hpos⟩
  | vMutex => exact .inr ⟨rfl, act_step h (by simp) trivial⟩
  | vW => exact .inr ⟨rfl, act_step h (by simp) trivial⟩
  | readcntInc => exact .inr ⟨rfl, act_step h (by simp) trivial⟩
  | readcntDec => exact .inr ⟨rfl, act_step h (by simp) trivial⟩

end Steps

/-! ## Runs -/

section Runs

variable {ι D V : Type*} [DecidableEq ι] {I : Data D V}

/-- Every thread stands in the lock where its calls have brought it. -/
structure Locked (s : State ι D V) (t : RwLock.State ι) : Prop where
  lock : t.mem = s.mem.lock
  fine : ∀ i, discipline.Fine (s.pc i).stack (t.pc i)
  own : ∀ i, (s.pc i).own = Own.of (t.pc i)

/-- The step of the lock that a step of the code is. -/
def obs (a : ι × Label Act Cond Fn) : Option (ι × Unit) := if locks a.2 then some (a.1, ()) else none

omit [DecidableEq ι] in
theorem locked_init (d : D) (x : ι → V) : Locked (init d x) (RwLock.init : RwLock.State ι) where
  lock := rfl
  fine _ := rfl
  own _ := rfl

theorem Locked.update {s : State ι D V} {t : RwLock.State ι} (h : Locked s t) (i : ι) (m : Mem D)
    (th : Thread V) {p : RwLock.Pc} (hfine : discipline.Fine th.stack p) (hown : th.own = Own.of p) :
    Locked ⟨m, Function.update s.pc i th⟩ ⟨m.lock, Function.update t.pc i p⟩ where
  lock := rfl
  fine j := by
    by_cases hj : j = i
    · subst hj
      simpa using hfine
    · simpa [hj] using h.fine j
  own j := by
    by_cases hj : j = i
    · subst hj
      simpa using hown
    · simpa [hj] using h.own j

/-- **The code simulates the lock.** -/
theorem simulates : Lts.Simulates (Step (ι := ι) I) RwLock.Step obs Locked := by
  intro s a s' t hR hs
  obtain ⟨⟨hmove, heff⟩⟩ := hs
  rename_i i l m st y
  obtain ⟨p, hafter, hfine⟩ := Fine.move checked (hR.fine i) hmove
  have hown : (s.pc i).own.after l = Own.of p := by
    rw [hR.own i]
    exact own_after hafter
  have hR' := hR.update i m ⟨st, y, (s.pc i).own.after l⟩ hfine hown
  rcases lock_step heff hafter with ⟨hl, hlock, rfl⟩ | ⟨hl, hstep⟩
  · refine .inl ⟨if_neg (by simp [hl]), ?_⟩
    rw [hlock, ← hR.lock, Function.update_eq_self] at hR'
    exact hR'
  · refine .inr ⟨(i, ()), _, if_pos hl, ?_, hR'⟩
    rw [← hR.lock] at hstep
    exact Threads.Step.mk hstep

variable [Fintype ι] {d : D} {x : ι → V} {tr : List (ι × Label Act Cond Fn)} {s : State ι D V}

theorem exists_locked (h : Lts.Path (Step I) (init d x) tr s) :
    ∃ t g, Locked s t ∧ RwLock.Inv t g := by
  obtain ⟨t, hpath, hR⟩ := simulates.path (locked_init d x) h
  obtain ⟨g, hI⟩ := RwLock.path_inv hpath
  exact ⟨t, g, hR, hI⟩

omit [Fintype ι] in
theorem Locked.exists_step {t : RwLock.State ι} (h : Locked s t) {i : ι}
    (hi : (s.pc i).stack ≠ []) (hfree : ¬ Blocked t.mem (t.pc i)) :
    ∃ l s', Step I s (i, l) s' := by
  obtain ⟨m, pc⟩ := s
  obtain ⟨fr, r, hst⟩ := List.exists_cons_of_ne_nil hi
  have hgo : ∀ l st m' y, Move body Fn.Api (fr :: r) l st → Effect I m (pc i).vars l m' y →
      ∃ l s', Step I ⟨m, pc⟩ (i, l) s' := by
    intro l st m' y hmove heff
    rw [← hst] at hmove
    exact ⟨l, _, Threads.Step.mk (TStep.mk hmove heff)⟩
  rcases exists_move body Fn.Api fr r with ⟨a, st, hm⟩ | ⟨b, hm⟩ | ⟨g, st, hm⟩ | ⟨st, hm⟩ | ⟨st, hm⟩
  · -- an action: a semaphore is free where the lock does not wait
    have hfine := h.fine i
    rw [show (pc i).stack = fr :: r from hst] at hfine
    obtain ⟨p, hafter, -⟩ := Fine.move checked hfine hm
    obtain ⟨lk, dat⟩ := m
    have hlock : t.mem = lk := h.lock
    simp only [after, discipline] at hafter
    rw [hlock] at hfree
    by_cases ha : ∃ b, a = .access b
    · obtain ⟨b, rfl⟩ := ha
      obtain ⟨⟨d', y⟩, hrun⟩ := I.run_total b (dat, (pc i).vars)
      exact hgo _ _ _ _ hm (.access lk dat d' _ y fr.fn b hrun)
    · rw [not_exists] at ha
      exact hgo _ _ _ _ hm (effect_onLock I ha (ready_of_not_blocked hafter hfree) _ _ _)
  · cases b with
    | readcnt n =>
      obtain ⟨st, hm⟩ := hm (decide (m.lock.readcnt = n))
      exact hgo _ _ _ _ hm (.readcnt m _ n)
    | queue q =>
      obtain ⟨v, hv⟩ := I.test_total q (m.data, (pc i).vars)
      obtain ⟨st, hm⟩ := hm v
      exact hgo _ _ _ _ hm (.queue m _ q v hv)
  · exact hgo _ _ _ _ hm (.call m _ g)
  · exact hgo _ _ _ _ hm (.ret m _ fr.fn)
  · exact hgo _ _ _ _ hm (.tau m _)

/-- **The discipline of the lock**, whatever the statements on the queue do: when a function other than
`pre_read` and `pre_write` returns, its thread has taken nothing of the lock; `pre_read` and `pre_write`
are called only with nothing taken; and while a call is unfinished, a thread with an unfinished call
takes a step. -/
theorem lock_discipline (h : Lts.Path (Step I) (init d x) tr s) :
    (∀ i f s', Step I s (i, .ret f) s' → f ≠ .preRead → f ≠ .preWrite →
        (s.pc i).own = .none ∧ (s'.pc i).own = .none) ∧
      (∀ i f s', Step I s (i, .call f) s' → f = .preRead ∨ f = .preWrite → (s.pc i).own = .none) ∧
      ((∃ i, (s.pc i).stack ≠ []) → ∃ j l s', (s.pc j).stack ≠ [] ∧ Step I s (j, l) s') := by
  obtain ⟨t, g, hL, hI⟩ := exists_locked h
  refine ⟨?_, ?_, ?_⟩
  · intro i f s' hs hr hw
    obtain ⟨⟨hmove, -⟩⟩ := hs
    obtain ⟨p, hafter, -⟩ := Fine.move checked (hL.fine i) hmove
    simp only [after] at hafter
    split_ifs at hafter with hp
    have hpost : discipline.post f = .out := by cases f <;> first | rfl | contradiction
    have hown : (s.pc i).own = .none := by rw [hL.own i, hp, hpost, Own.of_out]
    exact ⟨hown, by simpa [Own.after] using hown⟩
  · intro i f s' hs hf
    obtain ⟨⟨hmove, -⟩⟩ := hs
    obtain ⟨p, hafter, -⟩ := Fine.move checked (hL.fine i) hmove
    simp only [after] at hafter
    split_ifs at hafter with hp
    have hpre : discipline.pre f = .out := by
      rcases hf with rfl | rfl <;> rfl
    rw [hL.own i, hp, hpre, Own.of_out]
  · rintro ⟨i, hi⟩
    by_cases hb : Blocked t.mem (t.pc i)
    · obtain ⟨j, hj, hfree⟩ := hI.exists_unblocked hb
      have hst : (s.pc j).stack ≠ [] := by
        intro h0
        have hfine := hL.fine j
        rw [h0] at hfine
        exact hj hfine
      obtain ⟨l, s', hs⟩ := hL.exists_step hst hfree
      exact ⟨j, l, s', hst, hs⟩
    · obtain ⟨l, s', hs⟩ := hL.exists_step hi hb
      exact ⟨i, l, s', hi, hs⟩

end Runs

/-- The variables of a thread that asks for `key`. -/
def askFor (key : Key) : Vars :=
  { key := key, payload := [], bytesize := 0, node := 0, del := 0, tomove := 0, p := 0, out := [],
    check := 0, count := 0, cur := 0, nxt := 0 }

/-- The discipline in a run in which a thread is about to enter the read section of `is_cached`. -/
theorem lock_discipline_isCached :
    ∃ (tr : List (Fin 2 × Label Act Cond Fn)) (s s' : State (Fin 2) Cache Vars),
      Lts.Path (Step cacheData) (init Cache.emptyCache fun _ => askFor ⟨[104], [56, 48], [47]⟩) tr s ∧
        Step cacheData s (0, .call .preRead) s' ∧ (s.pc 0).own = .none ∧
        ∃ j l s', (s.pc j).stack ≠ [] ∧ Step cacheData s (j, l) s' := by
  have hent : cacheData.enter .isCached (askFor ⟨[104], [56, 48], [47]⟩)
      (askFor ⟨[104], [56, 48], [47]⟩) := rfl
  have hstart : Threads.Solo (TStep cacheData)
      (⟨lockInit, Cache.emptyCache⟩, ⟨[], askFor ⟨[104], [56, 48], [47]⟩, .none⟩) (.start .isCached)
      (⟨lockInit, Cache.emptyCache⟩,
        ⟨[⟨Fn.isCached, [body .isCached]⟩], askFor ⟨[104], [56, 48], [47]⟩, .none⟩) :=
    .mk (.mk (.start Fn.isCached trivial) (.start _ _ _ _ hent))
  have hseq : Threads.Solo (TStep cacheData)
      (⟨lockInit, Cache.emptyCache⟩,
        ⟨[⟨Fn.isCached, [body .isCached]⟩], askFor ⟨[104], [56, 48], [47]⟩, .none⟩) .tau _ :=
    .mk (.mk (.seq Fn.isCached _ _ [] []) (.tau _ _))
  have hrun := Threads.path_solo (((Lts.Path.nil _).snoc hstart).snoc hseq)
    (fun _ => ⟨[], askFor ⟨[104], [56, 48], [47]⟩, .none⟩) (0 : Fin 2) rfl
  refine ⟨_, _, _, hrun, Threads.Step.mk (.mk (.call Fn.isCached Fn.preRead _ []) (.call _ _ _)), ?_, ?_⟩
  · exact (lock_discipline hrun).2.1 0 .preRead _
      (Threads.Step.mk (.mk (.call Fn.isCached Fn.preRead _ []) (.call _ _ _))) (.inl rfl)
  · exact (lock_discipline hrun).2.2 ⟨0, by simp⟩

end MiniProxy.CacheCode

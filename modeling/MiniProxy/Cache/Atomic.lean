import MiniProxy.Cache.Whole

/-!
# The sections of the cache are atomic

Threads that call `is_cached` and `add_cache` run as if every section were one step, for as long as no
section pulls a node out from under another thread.

* `Sound`: the steps of the threads; `sound_step`; `AddsOnly`, `path_two_evictions`;
* `commitOf`, `Simulated`: the sections that the steps complete;
* **`sections_atomic`**: a run of the code is a run of sections, in the order of their last statements,
  or a race has come before;
* **`add_cache_sound`**: threads that only call `add_cache` never race.
-/

namespace MiniProxy.CacheCode

open Clib Code
open Cache (Repr SameNodes Inv Held IsInit InRange)

variable {ι : Type*} [DecidableEq ι]

/-- Any thread takes such a step. -/
abbrev Sound : State ι Cache Vars → ι × Label Act Cond Fn → State ι Cache Vars → Prop :=
  Threads.Step TSound

/-- The threads only call `add_cache`. -/
def AddsOnly (_ : State ι Cache Vars) (a : ι × Label Act Cond Fn) : Prop :=
  ∀ f, a.2 = .start f → f = .addCache

variable [Fintype ι] {s s' : State ι Cache Vars} {t : Cache.State ι} {pt : ι → Mode} {L : List Ptr}

/-- The step `a` races with another thread: it completes a section that takes out or frees a node which
another thread has found, or its `dequeue` finds the queue empty. -/
def Race (t : Cache.State ι) (a : ι × Label Act Cond Fn) : Prop :=
  (commits a.2 = true ∧ Pulls t a.1) ∨ (a.2 = .test (.queue .isEmpty) true ∧ Underflows t a.1)

/-- **A step of the code** completes a step of the sections or leaves them where they are, unless it is
a race. -/
theorem sound_step (hF : Follows s pt) (hA : Agrees s t pt L) {i : ι} {l : Label Act Cond Fn}
    (hs : Sound s (i, l) s') :
    ∃ z, outline.after l (pt i) = some z ∧ Follows s' (Function.update pt i z) ∧
      (Race t (i, l) ∨ Advances t i (commits l) s' (Function.update pt i z)) := by
  obtain ⟨hstep, hstarts, hmakes⟩ := hs
  obtain ⟨z, hz, hF'⟩ := hF.step (Threads.Step.mk hstep) hstarts
  refine ⟨z, hz, hF', ?_⟩
  obtain ⟨hmove, heff⟩ := hstep
  rename_i m st y
  have hidle : ∀ f, l = .start f → pt i = (.idle, .out) := by
    rintro f rfl
    have hst : (s.pc i).stack = [] := by
      generalize (s.pc i).stack = st₀ at hmove
      cases hmove
      rfl
    have hfine := hF.fine i
    rw [hst] at hfine
    exact hfine
  have hstay : ∀ (lk : RwLock.Lock) (own : Own), z.1 = (pt i).1 →
      Advances t i false ⟨⟨lk, s.mem.data⟩, Function.update s.pc i ⟨st, (s.pc i).vars, own⟩⟩
        (Function.update pt i z) := fun lk own hm =>
    advances_silent (hA.silent (by rw [hm]) (by rw [hm]; exact hA.holds i) (SameNodes.refl _) rfl
      (.inl ⟨rfl, by rw [hm]; exact id⟩))
  obtain ⟨⟨lk, d⟩, pc⟩ := s
  simp only at heff hmakes hmove hF' hstay ⊢
  cases heff with
  | tau | ret =>
    cases hz
    exact .inr (hstay _ _ rfl)
  | call _ _ f => exact .inr (hstay _ _ (point_of_call hz))
  | start _ _ _ f =>
    have hm := hidle f rfl
    have hpc := hA.pc i
    rw [hm] at hpc
    have hw : (pt i).1.inWrite = false := by rw [hm]; rfl
    rcases hstarts f rfl with rfl | rfl
    · cases hz
      have hstep := Cache.TStep.callIsCached t.mem y.key
      rw [show Cache.Pc.idle = t.pc i from hpc.symm] at hstep
      exact .inr (advances_commit (hA.commit_read hstep rfl trivial hw))
    · cases hz
      have hstep := Cache.TStep.callAddCache t.mem y.key y.payload y.bytesize
      rw [show Cache.Pc.idle = t.pc i from hpc.symm] at hstep
      exact .inr (advances_commit (hA.commit_read hstep rfl trivial hw))
  | readcnt _ _ n => exact .inr (hstay _ _ (Option.some.inj (point_of_test hz)).symm)
  | queue _ _ q v hv =>
    obtain ⟨b, heval, hadv⟩ := test_step hA hF lk st ((pc i).own.after (.test (.queue q) v))
      (point_of_test hz)
    refine (hadv (hv b heval)).imp_left ?_
    rintro ⟨rfl, rfl, hU⟩
    exact .inr ⟨rfl, hU⟩
  | access _ _ d' _ _ f a hrun =>
    have ha : a.point (pt i).1 = some z.1 := by
      have := point_of_act hz
      cases f <;> exact this
    rw [commits_access]
    by_cases hne : a = .newNode
    · subst hne
      obtain ⟨hm, hz⟩ := newing_of_newNode ha
      exact .inr (newNode_step hA hm hz (hmakes f rfl))
    · obtain ⟨w, heval, hadv⟩ := access_step hA hF lk st ((pc i).own.after (.act f (.access a)))
        ha hne
      cases run_eq hrun hne heval
      exact .inr hadv
  | pMutex _ _ _ f | pW _ _ _ f | vMutex _ _ _ f | vW _ _ _ f | readcntInc _ _ _ f
  | readcntDec _ _ _ f => exact .inr (lock_act_step hA (by simp) (point_of_act hz) hF')

/-! ## Runs -/

/-- The thread whose section a step completes. -/
def commitOf (a : ι × Label Act Cond Fn) : Option ι := if commits a.2 then some a.1 else none

/-- What every thread runs next is defined: a statement on the queue, other than `new_node`, touches no
freed node and no `NULL`, no `assert` fails, and a test comes out. -/
structure Defined (s : State ι Cache Vars) : Prop where
  access : ∀ i f a st, Move body Fn.Api (s.pc i).stack (.act f (.access a)) st → a ≠ .newNode →
    ∃ w, a.eval 0 [] s.mem.data (s.pc i).vars = .ok w
  test : ∀ i q v st, Move body Fn.Api (s.pc i).stack (.test (.queue q) v) st →
    ∃ b, q.eval s.mem.data (s.pc i).vars = .ok b

theorem Agrees.defined (hF : Follows s pt) (hA : Agrees s t pt L) : Defined s where
  access i f a st hm hne := by
    obtain ⟨z, hz, -⟩ := (hF.fine i).move outlined hm nofun
    have ha : a.point (pt i).1 = some z.1 := by
      have := point_of_act hz
      cases f <;> exact this
    obtain ⟨w, hw, -⟩ := access_step hA hF s.mem.lock st (s.pc i).own ha hne
    exact ⟨w, hw⟩
  test i q v st hm := by
    obtain ⟨z, hz, -⟩ := (hF.fine i).move outlined hm nofun
    obtain ⟨b, hb, -⟩ := test_step hA hF s.mem.lock st (s.pc i).own (point_of_test hz)
    exact ⟨b, hb⟩

/-- What the state `s` of the code and the state `t` of the sections have in common: the heap, while no
thread is inside of a write section, the queue, and which threads have no call in progress. -/
structure Same (s : State ι Cache Vars) (t : Cache.State ι) : Prop where
  queue : ∃ L, t.mem.Repr L
  heap : (∀ i, (s.pc i).own.write = 0) → s.mem.data = t.mem
  load : s.mem.data.cacheLoad = t.mem.cacheLoad
  idle : ∀ i, (s.pc i).stack = [] → t.pc i = .idle

omit [DecidableEq ι] in
theorem Agrees.toSame (hF : Follows s pt) (hA : Agrees s t pt L) : Same s t where
  queue := ⟨L, hA.inv.repr⟩
  heap hw := by
    refine hA.quiet fun i => ?_
    by_contra hin
    have hp := (hF.placed i).write (by simpa using hin)
    have := hw i
    rw [hF.own i, hp] at this
    cases this
  load := hA.load
  idle i hi := by
    have hfine := hF.fine i
    rw [hi] at hfine
    rw [hA.pc i, show pt i = (.idle, .out) from hfine]
    rfl

theorem small_init {c₀ : Cache} (h₀ : IsInit c₀) (p : Ptr) (hp : c₀.live p = true) : Small c₀ p where
  bytesize := by
    obtain ⟨links, entry, front, endp, -, -, hne⟩ := h₀
    rcases of_decide_eq_true hp with rfl | rfl
    · simp [cacheInit, hne]
    · simp [cacheInit]
  size := Cache.small_init h₀ p hp

omit [Fintype ι] [DecidableEq ι] in
theorem agrees_init {c₀ : Cache} (h₀ : IsInit c₀) (x : ι → Vars) :
    Agrees (init c₀ x) (Cache.init c₀) (fun _ => (.idle, .out)) [] where
  pc _ := rfl
  holds _ := trivial
  same := SameNodes.refl c₀
  load := rfl
  quiet _ := rfl
  inv := Cache.inv_init h₀
  held := fun _ _ _ hp => by cases hp
  small := small_init h₀

omit [Fintype ι] in
theorem sound_path {tr : List (ι × Label Act Cond Fn)} (h : Lts.Path (Step cacheData) s tr s')
    (hstarts : ∀ a ∈ tr, Starts a) (hnew : ∀ a ∈ tr, ∀ f, a.2 ≠ .act f (.access .newNode)) :
    Lts.Path Sound s tr s' := by
  induction h with
  | nil => exact .nil _
  | @snoc _ _ tr a _ hs ih =>
    have ha : a ∈ tr ++ [a] := List.mem_append_right _ (List.mem_singleton_self a)
    obtain ⟨hs⟩ := hs
    exact (ih (fun b hb => hstarts b (List.mem_append_left _ hb))
      fun b hb => hnew b (List.mem_append_left _ hb)).snoc
        (.mk ⟨hs, hstarts _ ha, fun f hf => absurd hf (hnew _ ha f)⟩)

/-- A thread that has just called `is_cached`. -/
def lookingThread : Thread Vars :=
  ⟨[⟨.isCached, [body .isCached]⟩], askFor ⟨[104], [56, 48], [47]⟩, .none⟩

/-- It finds nothing in an empty cache. -/
abbrev missRun : List (Label Act Cond Fn) × Mem Cache × Thread Vars :=
  exec 60 (⟨RwLock.lockInit, Cache.emptyCache⟩, lookingThread)

/-- Neither `new_node` nor a test of `cache_load`. -/
def looks : Label Act Cond Fn → Bool
  | .act _ (.access .newNode) | .test (.queue .overLoad) _ => false
  | _ => true

/-- One of two threads looks an object up in an empty cache. -/
theorem path_miss : ∃ (tr : List (Fin 2 × Label Act Cond Fn)) (s : State (Fin 2) Cache Vars),
    Lts.Path (Step cacheData) (init Cache.emptyCache fun _ => lookingThread.vars) tr s ∧
      (s.pc 0).stack = [] ∧ (∀ a ∈ tr, Starts a) ∧ ∀ a ∈ tr, looks a.2 = true := by
  have hstart : Threads.Solo (TStep cacheData)
      (⟨RwLock.lockInit, Cache.emptyCache⟩, ⟨[], lookingThread.vars, .none⟩) (.start .isCached)
      (⟨RwLock.lockInit, Cache.emptyCache⟩, lookingThread) :=
    .mk (.mk (.start _ trivial) (.start _ _ _ _ rfl))
  have hrun := (Lts.Path.single hstart).append
    (exec_path 60 (⟨RwLock.lockInit, Cache.emptyCache⟩, lookingThread)).1
  have hlooks : missRun.1.all looks = true := by decide
  have hend : missRun.2.2.stack.isEmpty = true := by decide
  refine ⟨_, _, Threads.path_solo hrun (fun _ => ⟨[], lookingThread.vars, .none⟩) 0 rfl, ?_, ?_, ?_⟩
  · simpa using hend
  · simp only [List.forall_mem_map, List.forall_mem_append, List.forall_mem_singleton]
    refine ⟨fun f hf => .inl (by cases hf; rfl), fun l hl f hf => ?_⟩
    exact absurd hf ((exec_path 60 _).2 l hl f)
  · simp only [List.forall_mem_map, List.forall_mem_append, List.forall_mem_singleton]
    exact ⟨rfl, List.all_eq_true.mp hlooks⟩

/-- The arguments of the calls that store objects of 102399 bytes. -/
def storingVars : Vars :=
  { askFor ⟨[104], [56, 48], [47]⟩ with payload := List.replicate 102399 97 ++ [0], bytesize := 102400 }

omit [Fintype ι] in
/-- A thread fills the cache. It and another one add an object each, both see the cache over its limit,
and both take a node out and free it. -/
theorem path_two_evictions {i j : ι} (hij : j ≠ i) :
    ∃ (tr : List (ι × Label Act Cond Fn)) (s : State ι Cache Vars),
      Lts.Path (Lts.Guarded Sound AddsOnly) (init Cache.emptyCache fun _ => storingVars) tr s ∧
        (i, .act .addCache (.access .freeDel)) ∈ tr ∧ (j, .act .addCache (.access .freeDel)) ∈ tr ∧
        ∀ k, (s.pc k).stack = [] := by
  have hn : 102399 < maxObjectSize := by decide
  have hx : Stores 102399 storingVars := ⟨rfl, rfl⟩
  obtain ⟨c₀, x₀, L₀, ls₀, hfill, hx₀, h₀⟩ := path_fill hx hn 10 (by decide)
  obtain ⟨c₁, x₁, ls₁, hadd₁, hx₁, h₁⟩ := path_add h₀ (by decide) hx₀ hn
  obtain ⟨ls₁', hover₁⟩ := path_over (x := x₁) h₁ (by decide)
  obtain ⟨c₂, x₂, ls₂, hadd₂, hx₂, h₂⟩ := path_add h₁ (by decide) hx hn
  obtain ⟨ls₂', hover₂⟩ := path_over (x := x₂) h₂ (by decide)
  -- twelve objects are two more than fit
  obtain ⟨c₃, x₃, L₃, ls₃, ls₃', hevict₃, -, h₃⟩ := path_evict h₂ hx₁
  obtain ⟨c₄, x₄, L₄, ls₄, ls₄', hevict₄, -, h₄⟩ := path_evict h₃ hx₂
  obtain ⟨ls₅, hexit₅⟩ := path_exit (x := x₃) h₄ (by decide)
  obtain ⟨ls₆, hexit₆⟩ := path_exit (x := x₄) h₄ (by decide)
  have hrun {x y : Mem Cache × Thread Vars} {ls : List (Label Act Cond Fn)} (h : Lts.Path AddStep x ls y)
      (pc : ι → Thread Vars) (k : ι) (hk : pc k = x.2) :=
    Threads.path_solo_guarded (G := AddsOnly) h pc k hk fun _ _ _ hl => hl
  have hi {pc : ι → Thread Vars} {a b : Thread Vars} :
      Function.update (Function.update pc i a) j b i = a := by simp [hij.symm]
  have hj {pc : ι → Thread Vars} {a b : Thread Vars} :
      Function.update (Function.update pc j b) i a j = b := by simp [hij]
  have hboth := (hrun ((hfill.append hadd₁).append hover₁) (fun _ => ⟨[], storingVars, .none⟩) i rfl).append
    (hrun (hadd₂.append hover₂) _ j (Function.update_of_ne hij _ _))
  have hevict := (hboth.append (hrun hevict₃ _ i hi)).append (hrun hevict₄ _ j hj)
  have hend := (hevict.append (hrun hexit₅ _ i hi)).append (hrun hexit₆ _ j hj)
  refine ⟨_, _, hend, by simp, by simp, fun k => ?_⟩
  by_cases hj : k = j
  · simp [hj, Here.with]
  · by_cases hi : k = i
    · simp [hi, hij.symm, Here.with]
    · simp [hi, hj]

section Closed

variable {P : Point → Prop} {l : Label Act Cond Fn} {y z : Mode}

theorem closed_after (h : outline.after l y = some z)
    (hstart : ∀ f x, l = .start f → f.starts = some x → P x.1)
    (haccess : ∀ (a : Access) m m', a.point m = some m' → P m → P m')
    (htest : ∀ q v m m', l = .test (.queue q) v → q.point v m = some m' → P m → P m')
    (hlock : ∀ m m', m.enterRead = some m' ∨ m.leaveRead = some m' ∨ m.enterWrite = some m' →
      P m → P m') (hy : P y.1) : P z.1 := by
  cases l with
  | tau | ret =>
    cases h
    exact hy
  | call f =>
    rw [point_of_call h]
    exact hy
  | start f => exact hstart f z rfl h
  | test b v =>
    have hz := point_of_test h
    cases b with
    | readcnt n =>
      rw [← Option.some.inj hz]
      exact hy
    | queue q => exact htest q v _ _ rfl hz hy
  | act f b =>
    have hz := point_of_act h
    by_cases hb : ∃ a, b = .access a
    · obtain ⟨a, rfl⟩ := hb
      exact haccess a _ _ (by cases f <;> exact hz) hy
    · rw [not_exists] at hb
      rcases point_of_lock hb hz with ⟨hm, -⟩ | ⟨hm, -⟩ | ⟨hm, -⟩ | ⟨hm, -⟩
      · rw [hm]
        exact hy
      · exact hlock _ _ (.inl hm) hy
      · exact hlock _ _ (.inr (.inl hm)) hy
      · exact hlock _ _ (.inr (.inr hm)) hy

/-- The points of `add_cache`. -/
def Point.Adds : Point → Prop
  | .idle | .newing | .linkWait | .testIf | .testWhile | .unlinkWait | .unlinkTest | .unlinkNull
  | .freeing => True
  | .write sec _ | .check sec _ => sec ≠ .promote
  | _ => False

/-- The points of threads that never see the cache over its limit. -/
def Point.Resides : Point → Prop
  | .testWhile | .unlinkWait | .unlinkTest | .unlinkNull | .freeing => False
  | .write sec _ | .check sec _ => sec ≠ .unlink
  | _ => True

theorem adds_after (h : outline.after l y = some z) (hl : ∀ f, l = .start f → f = .addCache)
    (hy : y.1.Adds) : z.1.Adds := by
  refine closed_after h ?_ ?_ ?_ ?_ hy
  · rintro f x rfl hx
    obtain rfl := hl f rfl
    cases hx
    trivial
  · intro a m m' ha hm
    unfold Access.point at ha
    split at ha
    case h_16 =>
      unfold Sec.point at ha
      split_ifs at ha <;> cases ha <;> exact hm
    all_goals cases ha <;> first | exact hm | trivial
  · intro q v m m' _ hq hm
    unfold Test.point at hq
    split at hq <;> cases hq <;> first | exact hm | trivial | exact nofun
  · intro m m' h hm
    rcases h with h | h | h
    · obtain ⟨rfl, rfl⟩ | ⟨sec, rfl, rfl⟩ := enterRead_eq h <;> exact hm
    · obtain ⟨rfl, rfl⟩ | ⟨rfl, rfl⟩ | ⟨sec, rfl, rfl⟩ := leaveRead_eq h
      · cases hm
      · cases hm
      · cases sec <;> trivial
    · obtain ⟨rfl, rfl⟩ | ⟨rfl, rfl⟩ | ⟨rfl, rfl⟩ := enterWrite_eq h <;>
        first | trivial | exact nofun

theorem resides_after (h : outline.after l y = some z)
    (hl : ∀ v, l = .test (.queue .overLoad) v → v = false) (hy : y.1.Resides) : z.1.Resides := by
  refine closed_after h ?_ ?_ ?_ ?_ hy
  · intro f x _ hx
    cases f <;> cases hx <;> trivial
  · intro a m m' ha hm
    unfold Access.point at ha
    split at ha
    case h_16 =>
      unfold Sec.point at ha
      split_ifs at ha <;> cases ha <;> exact hm
    all_goals cases ha <;> exact hm
  · intro q v m m' hlab hq hm
    unfold Test.point at hq
    split at hq <;> cases hq <;>
      first | exact hm | trivial | cases hl _ hlab
  · intro m m' h hm
    rcases h with h | h | h
    · obtain ⟨rfl, rfl⟩ | ⟨sec, rfl, rfl⟩ := enterRead_eq h <;> exact hm
    · obtain ⟨rfl, rfl⟩ | ⟨rfl, rfl⟩ | ⟨sec, rfl, rfl⟩ := leaveRead_eq h
      · trivial
      · trivial
      · cases sec <;> trivial
    · obtain ⟨rfl, rfl⟩ | ⟨rfl, rfl⟩ | ⟨rfl, rfl⟩ := enterWrite_eq h
      · exact nofun
      · exact hm
      · exact nofun

end Closed

section Safe

variable {c₀ : Cache} {x : ι → Vars} {tr : List (ι × Label Act Cond Fn)}

/-- No thread sees the cache over its limit. -/
def NeverOver (_ : State ι Cache Vars) (a : ι × Label Act Cond Fn) : Prop :=
  ∀ v, a.2 = .test (.queue .overLoad) v → v = false

omit [DecidableEq ι] [Fintype ι] in
theorem points_update {P : Point → Prop} (h : ∀ i, P (pt i).1) [DecidableEq ι] {i : ι} {z : Mode}
    (hz : P z.1) (j : ι) : P (Function.update pt i z j).1 := by
  by_cases hj : j = i
  · subst hj
    simpa using hz
  · simpa [hj] using h j

theorem not_race_of_adds (hA : Agrees s t pt L) (hE : Cache.Evicting t.mem t.pc)
    (a : ι × Label Act Cond Fn) : ¬ Race t a := by
  rintro (⟨-, e, t', -, hK⟩ | ⟨-, hpc, hempty⟩)
  · refine hK ⟨?_, ?_⟩
    · intro del _ j key hj
      have := hE.adds j
      rw [hj] at this
      cases this
    · intro del _ j key hj
      have := hE.adds j
      generalize t.pc j = q at hj this
      cases q <;> simp [Cache.Pc.held, Cache.Pc.adding] at hj this
  · have hne := hE.nonempty hA.inv.repr hpc
    rw [hA.inv.repr.isEmpty] at hempty
    exact hne (of_decide_eq_true (Except.ok.inj hempty))

omit [Fintype ι] in
theorem addStep_of_adds {i : ι} {e : Cache.Ev} {t' : Cache.State ι} (hs : Cache.Step t (i, e) t')
    (hA : Agrees s t' pt L) (hadds : (pt i).1.Adds) : Threads.Step Cache.AddStep t (i, e) t' := by
  have hpc := hA.pc i
  have hholds := hA.holds i
  have hown := hA.inv.owned i
  obtain ⟨hs⟩ := hs
  rename_i m a
  simp only [Function.update_self] at hpc hown
  refine Threads.Step.mk ⟨hs, ?_, ?_⟩
  · rintro key rfl
    generalize (pt i).1 = m at hpc hadds
    cases m with
    | write sec | check sec => cases sec <;> cases hpc
    | _ => first | exact hadds.elim | cases hpc
  · rintro p rfl
    have hlive := (hown p rfl).1.2
    refine ⟨?_, (hA.small p hlive).size⟩
    generalize (pt i).1 = m at hpc hholds
    cases m with
    | linkWait =>
      cases hpc
      exact hholds
    | write sec =>
      cases sec <;> cases hpc
      exact hholds.1
    | check sec => cases sec <;> cases hpc
    | _ => cases hpc

/-- **`add_cache` is safe on its own.** At most `NTHREADS` threads that only call `add_cache`, in any
interleaving of their statements, run as if sections were atomic: every statement that comes next is
defined, so that nothing is freed twice or read after it is freed and no `assert` fails, and with no
call in progress the queue is intact and `cache_load` is at most `MAX_CACHE_SIZE`. -/
theorem add_cache_sound (h₀ : IsInit c₀) (hcard : Fintype.card ι ≤ Cache.nthreads)
    (h : Lts.Path (Lts.Guarded Sound AddsOnly) (init c₀ x) tr s) :
    (∃ btr t, Lts.Path Cache.Step (Cache.init c₀) btr t ∧
        btr.map Prod.fst = tr.filterMap commitOf ∧ Same s t) ∧ Defined s ∧
      ((∀ i, (s.pc i).stack = []) →
        (∃ L, s.mem.data.Repr L) ∧ s.mem.data.cacheLoad ≤ maxCacheSize) := by
  have hsim : Lts.SimulatesUntil (Lts.Guarded Sound AddsOnly) Cache.Step commitOf Prod.fst
      (fun _ _ => False) fun (s : State ι Cache Vars) t => ∃ pt L, Follows s pt ∧
        Agrees s t pt L ∧ Cache.Evicting t.mem t.pc ∧ ∀ i, (pt i).1.Adds := by
    rintro s ⟨i, l⟩ s' t ⟨pt, L, hF, hA, hE, hadds⟩ ⟨hs, hstart⟩
    obtain ⟨z, hz, hF', hadv⟩ := sound_step hF hA hs
    have hz' := adds_after hz hstart (hadds i)
    have hadds' : ∀ j, (Function.update pt i z j).1.Adds := points_update hadds hz'
    rcases hadv with hrace | ⟨hc, hpulls⟩ | ⟨hc, L', hA'⟩ | ⟨hc, e, t', L', hstep, hA'⟩
    · exact absurd hrace (not_race_of_adds hA hE _)
    · exact absurd (.inl ⟨hc, hpulls⟩) (not_race_of_adds hA hE (i, l))
    · exact .inr (.inl ⟨by simp [commitOf, hc], _, L', hF', hA', hE, hadds'⟩)
    · have hadd := addStep_of_adds hstep hA' (hadds' i)
      exact .inr (.inr ⟨(i, e), t', by simp [commitOf, hc], hstep, _, L', hF', hA',
        (Cache.evicting_step hcard hA.inv hE hadd).2, hadds'⟩)
  have hrun := hsim.path ⟨_, [], follows_init c₀ x, agrees_init h₀ x, Cache.evicting_init h₀,
    fun _ => trivial⟩ h
  rcases hrun with ⟨_, _, _, _, -, -, -, hbad⟩ | ⟨btr, t, hpath, hview, pt, L, hF, hA, hE, hadds⟩
  · exact hbad.elim
  · have hsame := hA.toSame hF
    refine ⟨⟨btr, t, hpath, hview, hsame⟩, hA.defined hF, fun hidle => ?_⟩
    have hd : s.mem.data = t.mem := hsame.heap fun i => by
      have hfine := hF.fine i
      rw [hidle i] at hfine
      rw [hF.own i, show pt i = (.idle, .out) from hfine]
      rfl
    rw [hd]
    refine ⟨⟨L, hA.inv.repr⟩, ?_⟩
    by_contra hover
    obtain ⟨i, hi⟩ := hE.watched (Nat.lt_of_not_le hover)
    rw [hsame.idle i (hidle i)] at hi
    cases hi

/-- Eight threads, two of which evict on one observation: nothing is undefined, and the cache fits when
they are done. -/
theorem add_cache_sound_two :
    ∃ (tr : List (Fin 8 × Label Act Cond Fn)) (s : State (Fin 8) Cache Vars),
      Lts.Path (Lts.Guarded Sound AddsOnly) (init Cache.emptyCache fun _ => storingVars) tr s ∧
        (0, .act .addCache (.access .freeDel)) ∈ tr ∧ (1, .act .addCache (.access .freeDel)) ∈ tr ∧
        Defined s ∧ (∃ L, s.mem.data.Repr L) ∧ s.mem.data.cacheLoad ≤ maxCacheSize := by
  obtain ⟨tr, s, h, hi, hj, hidle⟩ := path_two_evictions (i := (0 : Fin 8)) (j := 1) (by decide)
  obtain ⟨-, hdef, hfits⟩ := add_cache_sound Cache.isInit_emptyCache (by simp [Cache.nthreads]) h
  exact ⟨tr, s, h, hi, hj, hdef, hfits hidle⟩

omit [Fintype ι] in
theorem not_race_of_resides (hA : Agrees s t pt L) (hres : ∀ i, (pt i).1.Resides)
    (a : ι × Label Act Cond Fn) : ¬ Race t a := by
  have hpc : ∀ i, t.pc i ≠ .unlink ∧ ∀ del, t.pc i ≠ .release del := by
    intro i
    rw [hA.pc i]
    have := hres i
    generalize (pt i).1 = m at this
    cases m with
    | write sec => cases sec <;> first | exact absurd rfl this | exact ⟨nofun, nofun⟩
    | check sec => cases sec <;> exact ⟨nofun, nofun⟩
    | _ => first | exact this.elim | exact ⟨nofun, nofun⟩
  rintro (⟨-, e, t', hs, hK⟩ | ⟨-, hun, -⟩)
  · obtain ⟨hs⟩ := hs
    rename_i m q
    have hi := hpc a.1
    generalize t.pc a.1 = q₀ at hs hi
    cases hs with
    | unlink => exact hi.1 rfl
    | release => exact hi.2 _ rfl
    | _ => exact hK ⟨nofun, nofun⟩
  · exact (hpc a.1).1 hun

/-- **Without evictions everything is safe.** Threads that call `is_cached` and `add_cache` in any
interleaving of their statements run as if sections were atomic, and every statement that comes next is
defined, for as long as none of them sees the cache over its limit. -/
theorem resident_sound (h₀ : IsInit c₀)
    (h : Lts.Path (Lts.Guarded Sound NeverOver) (init c₀ x) tr s) :
    (∃ btr t, Lts.Path Cache.Step (Cache.init c₀) btr t ∧
      btr.map Prod.fst = tr.filterMap commitOf ∧ Same s t) ∧ Defined s := by
  have hsim : Lts.SimulatesUntil (Lts.Guarded Sound NeverOver) Cache.Step commitOf Prod.fst
      (fun _ _ => False) fun (s : State ι Cache Vars) t => ∃ pt L, Follows s pt ∧
        Agrees s t pt L ∧ ∀ i, (pt i).1.Resides := by
    rintro s ⟨i, l⟩ s' t ⟨pt, L, hF, hA, hres⟩ ⟨hs, hover⟩
    obtain ⟨z, hz, hF', hadv⟩ := sound_step hF hA hs
    have hres' : ∀ j, (Function.update pt i z j).1.Resides :=
      points_update hres (resides_after hz hover (hres i))
    rcases hadv with hrace | ⟨hc, hpulls⟩ | ⟨hc, L', hA'⟩ | ⟨hc, e, t', L', hstep, hA'⟩
    · exact absurd hrace (not_race_of_resides hA hres _)
    · exact absurd (.inl ⟨hc, hpulls⟩) (not_race_of_resides hA hres (i, l))
    · exact .inr (.inl ⟨by simp [commitOf, hc], _, L', hF', hA', hres'⟩)
    · exact .inr (.inr ⟨(i, e), t', by simp [commitOf, hc], hstep, _, L', hF', hA', hres'⟩)
  have hrun := hsim.path ⟨_, [], follows_init c₀ x, agrees_init h₀ x, fun _ => trivial⟩ h
  rcases hrun with ⟨_, _, _, _, -, -, -, hbad⟩ | ⟨btr, t, hpath, hview, pt, L, hF, hA, hres⟩
  · exact hbad.elim
  · exact ⟨⟨btr, t, hpath, hview, hA.toSame hF⟩, hA.defined hF⟩

/-- A lookup in an empty cache is defined to its end. -/
theorem resident_sound_miss :
    ∃ (tr : List (Fin 2 × Label Act Cond Fn)) (s : State (Fin 2) Cache Vars),
      Lts.Path (Lts.Guarded Sound NeverOver) (init Cache.emptyCache fun _ => lookingThread.vars) tr s ∧
        (s.pc 0).stack = [] ∧ Defined s := by
  obtain ⟨tr, s, h, hend, hstarts, hlooks⟩ := path_miss
  have hsound := sound_path h hstarts fun a ha f hf => by
    have := hlooks a ha
    rw [hf] at this
    cases this
  have hguarded : Lts.Path (Lts.Guarded Sound NeverOver) _ tr s := hsound.guarded fun _ a ha v hv => by
    have := hlooks a ha
    rw [hv] at this
    cases this
  exact ⟨tr, s, hguarded, hend, (resident_sound Cache.isInit_emptyCache hguarded).2⟩

end Safe

end MiniProxy.CacheCode

import MiniProxy.Cache.Discipline

/-!
# The end of the cache

`sigterm_handler` runs `cache_destroy` in whatever thread the signal is delivered to, prints that the
proxy exits, and returns.

* `Process`, `Event`, `Process.Step`: the code of the cache with `SIGTERM` delivered to any thread;
* `Safe`: no call touches the cache after `cache_destroy`, and `cache_destroy` does not wait for the
  thread that it interrupts;
* `silent`, `Calm`, `Spared`: what may be left of the calls when the signal comes and when
  `cache_destroy` has `w`;
* `Early`, `Ending`: the invariant; `ending_step`: every step keeps it;
* **`destroyed_safe`**: a run in which the signal comes and the cache goes only in calm, and no call
  follows, is safe;
* **`not_destroyed_safe`**: after `cache_destroy` the next `is_cached` tests the freed sentinels, and a
  thread that the signal interrupts in `enqueue` waits for itself.
-/

namespace MiniProxy.CacheCode

open Code Code.Discipline
open RwLock (lockInit)

/-! ## Signals -/

/-- The threads, and whether a `cache_destroy` has taken `w` and whether one has returned. -/
structure Process (ι D V : Type*) where
  sys : State ι D V
  begun : Bool
  destroyed : Bool

/-- A thread takes a step, or `SIGTERM` is delivered to it. -/
inductive Event (ι : Type*)
  | run (i : ι) (l : Label Act Cond Fn)
  | sigterm (i : ι)

/-- The step is the `P(&w)` of `cache_destroy`. -/
def takesCache : List (Frame Act Cond Fn) → Label Act Cond Fn → Bool
  | _ :: ⟨.cacheDestroy, _⟩ :: _, .act .preWrite (.P .w) => true
  | _, _ => false

/-- The step is the return from `cache_destroy`. -/
def endsDestroy : Label Act Cond Fn → Bool
  | .ret .cacheDestroy => true
  | _ => false

/-- The thread runs `sigterm_handler` before it goes on. -/
def Thread.interrupt {V : Type*} (t : Thread V) : Thread V :=
  { t with stack := ⟨.sigtermHandler, [body .sigtermHandler]⟩ :: t.stack }

section Steps

variable {ι D V : Type*} [DecidableEq ι] (I : Data D V)

/-- The steps of the threads, and deliveries. A thread that runs the handler has `SIGTERM` blocked. -/
inductive Process.Step : Process ι D V → Event ι → Process ι D V → Prop
  | run {s s' : State ι D V} {b d : Bool} {i : ι} {l : Label Act Cond Fn}
      (h : CacheCode.Step I s (i, l) s') :
      Step ⟨s, b, d⟩ (.run i l) ⟨s', b || takesCache (s.pc i).stack l, d || endsDestroy l⟩
  | sigterm {s : State ι D V} {b d : Bool} {i : ι}
      (hmask : ∀ fr ∈ (s.pc i).stack, fr.fn ≠ .sigtermHandler) :
      Step ⟨s, b, d⟩ (.sigterm i)
        ⟨⟨s.mem, Function.update s.pc i (s.pc i).interrupt⟩, b, d⟩

end Steps

/-- Before any call and any signal. -/
def Process.init {ι D V : Type*} (d : D) (x : ι → V) : Process ι D V :=
  ⟨CacheCode.init d x, false, false⟩

/-- The step is a statement or a test on the cache. -/
def onCache : Label Act Cond Fn → Bool
  | .act _ (.access _) | .test (.queue _) _ => true
  | _ => false

/-- **The destroyed cache is left alone.** After `cache_destroy` no step of another function is one on
the cache; and where `cache_destroy` waits for `w`, the thread that it runs in has no part in a
section. -/
structure Safe {ι D V : Type*} (p : Process ι D V) : Prop where
  untouched : p.destroyed = true → ∀ i fr r l st, (p.sys.pc i).stack = fr :: r →
    Move body Fn.Api (fr :: r) l st → onCache l = true → fr.fn = .cacheDestroy
  released : ∀ i k k' r, (p.sys.pc i).stack =
      ⟨.preWrite, .act (.P .w) :: k⟩ :: ⟨.cacheDestroy, k'⟩ :: r → p.sys.mem.lock.w = 0 →
    (p.sys.pc i).own.write = 0 ∧ (p.sys.pc i).own.readcnt = 0

/-! ## Calm -/

/-- A statement that neither touches the cache, nor takes a semaphore, nor calls a function. -/
def silent : Stmt Act Cond Fn → Bool
  | .skip | .ret | .act (.V _) | .act .readcntDec => true
  | .seq s t | .ite (.readcnt _) s t => silent s && silent t
  | .loop (.readcnt _) s => silent s
  | _ => false

/-- The functions that the handler runs. -/
def Fn.ofHandler : Fn → Bool
  | .sigtermHandler | .cacheDestroy | .preWrite | .postWrite => true
  | _ => false

/-- A statement as the functions of the handler have them: only `cache_destroy` touches the cache. -/
def tidy (f : Fn) : Stmt Act Cond Fn → Bool
  | .act (.access _) => f == .cacheDestroy
  | .seq s t | .ite (.readcnt _) s t => tidy f s && tidy f t
  | .ite (.queue _) s t => f == .cacheDestroy && tidy f s && tidy f t
  | .loop (.readcnt _) s => tidy f s
  | .loop (.queue _) s => f == .cacheDestroy && tidy f s
  | .call g => g.ofHandler
  | .skip | .ret | .act _ => true

/-- Nothing is left to do on the cache in a call, unless it is one of the handler. -/
def Calm (fr : Frame Act Cond Fn) : Prop :=
  (∀ s ∈ fr.todo, silent s = true) ∨
    fr.fn.ofHandler = true ∧ ∀ s ∈ fr.todo, tidy fr.fn s = true

/-- **The condition on a step.** `SIGTERM` is delivered to a thread that has taken nothing of the lock
and whose calls have nothing left to do; when `cache_destroy` takes `w`, this holds of all calls; and
no call is started afterwards. -/
def Spared {ι D V : Type*} (p : Process ι D V) : Event ι → Prop
  | .sigterm i => (p.sys.pc i).own = .none ∧
      ∀ fr ∈ (p.sys.pc i).stack, ∀ s ∈ fr.todo, silent s = true
  | .run _ (.start _) => p.begun = false
  | .run i l => takesCache (p.sys.pc i).stack l = true → ∀ j, ∀ fr ∈ (p.sys.pc j).stack, Calm fr

theorem tidy_body {f : Fn} (h : f.ofHandler = true) : tidy f (body f) = true := by
  cases f <;> first | rfl | cases h

section Calm

variable {f : Fn} {k k' : List (Stmt Act Cond Fn)}

theorem Calm.of_parts (h : Calm ⟨f, k⟩)
    (hs : (∀ s ∈ k, silent s = true) → ∀ s ∈ k', silent s = true)
    (ht : (∀ s ∈ k, tidy f s = true) → ∀ s ∈ k', tidy f s = true) : Calm ⟨f, k'⟩ := by
  rcases h with h | ⟨hf, h⟩
  · exact .inl (hs h)
  · exact .inr ⟨hf, ht h⟩

theorem Calm.tidy_head {s : Stmt Act Cond Fn} (h : Calm ⟨f, s :: k⟩) (hs : silent s = false) :
    tidy f s = true := by
  rcases h with h | ⟨-, h⟩
  · exact absurd (h s List.mem_cons_self) (by simp [hs])
  · exact h s List.mem_cons_self

/-- **What is left of calm calls stays calm.** -/
theorem calm_move {st st' : List (Frame Act Cond Fn)} {l : Label Act Cond Fn}
    (h : ∀ fr ∈ st, Calm fr) (hm : Move body Fn.Api st l st') (hl : ∀ f, l ≠ .start f) :
    ∀ fr ∈ st', Calm fr := by
  cases hm with
  | start f hf => exact absurd rfl (hl f)
  | skip f k r =>
    rw [List.forall_mem_cons] at h ⊢
    exact ⟨h.1.of_parts (by simp) (by simp), h.2⟩
  | act f a k r =>
    rw [List.forall_mem_cons] at h ⊢
    exact ⟨h.1.of_parts (by simp) (by simp), h.2⟩
  | seq f s t k r =>
    rw [List.forall_mem_cons] at h ⊢
    exact ⟨h.1.of_parts (by simp +contextual [silent]) (by simp +contextual [tidy]), h.2⟩
  | ite f b v s t k r =>
    rw [List.forall_mem_cons] at h ⊢
    refine ⟨h.1.of_parts ?_ ?_, h.2⟩
    · cases b <;> cases v <;> simp +contextual [silent]
    · cases b <;> cases v <;> simp +contextual [tidy]
  | loop f b s k r =>
    rw [List.forall_mem_cons] at h ⊢
    refine ⟨h.1.of_parts ?_ ?_, h.2⟩
    · cases b <;> simp +contextual [silent]
    · cases b <;> simp +contextual [tidy]
  | exit f b s k r =>
    rw [List.forall_mem_cons] at h ⊢
    exact ⟨h.1.of_parts (by simp) (by simp), h.2⟩
  | call f g k r =>
    rw [List.forall_mem_cons] at h
    rw [List.forall_mem_cons, List.forall_mem_cons]
    have hg : g.ofHandler = true := h.1.tidy_head rfl
    refine ⟨.inr ⟨hg, ?_⟩, h.1.of_parts (by simp) (by simp), h.2⟩
    rw [List.forall_mem_singleton]
    exact tidy_body hg
  | ret f k r => exact fun fr hfr => h fr (List.mem_cons_of_mem _ hfr)
  | done f r => exact fun fr hfr => h fr (List.mem_cons_of_mem _ hfr)

theorem eq_of_onCache {fr : Frame Act Cond Fn} {r st : List (Frame Act Cond Fn)}
    {l : Label Act Cond Fn} (h : Calm fr) (hm : Move body Fn.Api (fr :: r) l st)
    (hc : onCache l = true) : fr.fn = .cacheDestroy := by
  cases hm with
  | skip | seq | call | ret | done => cases hc
  | act f a k r =>
    cases a with
    | access a => simpa [tidy] using h.tidy_head rfl
    | _ => cases hc
  | ite f b v s t k r =>
    cases b with
    | readcnt n => cases hc
    | queue q =>
      have ht := h.tidy_head rfl
      simp only [tidy, Bool.and_eq_true, beq_iff_eq] at ht
      exact ht.1.1
  | loop f b s k r | exit f b s k r =>
    cases b with
    | readcnt n => cases hc
    | queue q =>
      have ht := h.tidy_head rfl
      simp only [tidy, Bool.and_eq_true, beq_iff_eq] at ht
      exact ht.1

end Calm

/-! ## Before `cache_destroy` has `w` -/

/-- What follows `pre_write` in `cache_destroy`. -/
def destroyRest : Stmt Act Cond Fn := .block
  [acc .destroyFront,
    .loop (.queue .notNull) (.block [acc .destroyNext, acc .destroyFree, acc .destroyMove]),
    acc .loadZero, acc .countZero, .call .postWrite]

/-- No `cache_destroy` has come past its `P(&w)`. -/
inductive Early : List (Frame Act Cond Fn) → Prop
  | nil : Early []
  | other {fr : Frame Act Cond Fn} {r : List (Frame Act Cond Fn)} (h : fr.fn ≠ .cacheDestroy)
      (hr : Early r) : Early (fr :: r)
  | first {r : List (Frame Act Cond Fn)} (hr : Early r) :
      Early (⟨.cacheDestroy, [.seq (.call .preWrite) destroyRest]⟩ :: r)
  | second {r : List (Frame Act Cond Fn)} (hr : Early r) :
      Early (⟨.cacheDestroy, [.call .preWrite, destroyRest]⟩ :: r)
  | entering {r : List (Frame Act Cond Fn)} (hr : Early r) :
      Early (⟨.preWrite, [.act (.P .w)]⟩ :: ⟨.cacheDestroy, [destroyRest]⟩ :: r)

theorem early_move {st st' : List (Frame Act Cond Fn)} {l : Label Act Cond Fn} (h : Early st)
    (hm : Move body Fn.Api st l st') (hl : takesCache st l = false) :
    Early st' ∧ endsDestroy l = false := by
  cases h with
  | nil =>
    cases hm with
    | start f hf =>
      have hne : f ≠ .cacheDestroy := by
        rintro rfl
        exact hf
      exact ⟨.other hne .nil, rfl⟩
  | other hne hr =>
    cases hm with
    | skip | act | seq | ite | loop | exit => exact ⟨.other hne hr, rfl⟩
    | call f g k r =>
      refine ⟨?_, rfl⟩
      by_cases hg : g = .cacheDestroy
      · subst hg
        exact .first (.other hne hr)
      · exact .other hg (.other hne hr)
    | ret f k r =>
      refine ⟨hr, ?_⟩
      cases f <;> first | rfl | exact absurd rfl hne
    | done f r =>
      refine ⟨hr, ?_⟩
      cases f <;> first | rfl | exact absurd rfl hne
  | first hr =>
    cases hm with
    | seq => exact ⟨.second hr, rfl⟩
  | second hr =>
    cases hm with
    | call => exact ⟨.entering hr, rfl⟩
  | entering hr =>
    cases hm with
    | act => cases hl

/-! ## The invariant -/

/-- The invariant: no `cache_destroy` has `w` yet, or all calls are calm; and every thread has taken of
the lock what the code before it takes. -/
structure Ending {ι D V : Type*} (p : Process ι D V) : Prop where
  early : p.begun = false → ∀ i, Early (p.sys.pc i).stack
  calm : p.begun = true → ∀ i, ∀ fr ∈ (p.sys.pc i).stack, Calm fr
  order : p.destroyed = true → p.begun = true
  fine : ∀ i, ∃ m, discipline.Fine (p.sys.pc i).stack m ∧ (p.sys.pc i).own = Own.of m

/-! ### Delivery -/

section Entry

variable {f : Fn} {m : RwLock.Pc} (hm : m = .preReadP ∨ m = .preWrite)

include hm

theorem actMode_entry {a : Act} (ha : silent (.act a) = true) : actMode f a m = none := by
  cases a with
  | P s | readcntInc | access a => cases ha
  | V s => rcases hm with rfl | rfl <;> cases f <;> cases s <;> rfl
  | readcntDec => rcases hm with rfl | rfl <;> cases f <;> rfl

theorem condMode_entry (n : ℤ) (v : Bool) : condMode (.readcnt n) v m = none := by
  unfold condMode
  rcases hm with rfl | rfl <;> split <;> simp_all

theorem post_ne_entry (f : Fn) : m ≠ discipline.post f := by
  rcases hm with rfl | rfl <;> cases f <;> exact fun h => by cases h

theorem flow_silent {s : Stmt Act Cond Fn} (hs : silent s = true) {o : Option RwLock.Pc}
    (h : discipline.flow f s m = some o) : o = some m := by
  induction s generalizing o with
  | skip =>
    cases h
    rfl
  | act a =>
    obtain ⟨m', hm', -⟩ := Option.map_eq_some_iff.mp h
    exact absurd ((actMode_entry hm hs).symm.trans hm') (by simp)
  | seq s t ihs iht =>
    simp only [silent, Bool.and_eq_true] at hs
    obtain ⟨o₁, h₁, h₂⟩ := Option.bind_eq_some_iff.mp h
    rw [ihs hs.1 h₁] at h₂
    exact iht hs.2 h₂
  | ite b s t | loop b s =>
    obtain ⟨m₁, h₁, -⟩ := Option.bind_eq_some_iff.mp h
    cases b with
    | queue q => cases hs
    | readcnt n => exact absurd ((condMode_entry hm n true).symm.trans h₁) (by simp)
  | call g => cases hs
  | ret =>
    unfold flow at h
    rw [if_neg (post_ne_entry hm f)] at h
    cases h

theorem not_fits_silent {k : List (Stmt Act Cond Fn)} (hk : ∀ s ∈ k, silent s = true) :
    ¬ discipline.Fits f k m := by
  intro h
  induction k with
  | nil => exact post_ne_entry hm f h
  | cons s k ih =>
    obtain ⟨o, ho, hrest⟩ := h
    rw [List.forall_mem_cons] at hk
    exact ih hk.2 (hrest m (flow_silent hm hk.1 ho))

end Entry

theorem Own.eq_of_none {m : RwLock.Pc} (h : Own.of m = .none) :
    m = .out ∨ m = .preReadP ∨ m = .preWrite := by
  cases m <;> first | exact .inl rfl | exact .inr (.inl rfl) | exact .inr (.inr rfl) | cases h

theorem out_of_silent {st : List (Frame Act Cond Fn)} {m : RwLock.Pc} (h : discipline.Fine st m)
    (hst : ∀ fr ∈ st, ∀ s ∈ fr.todo, silent s = true) (hown : Own.of m = .none) : m = .out := by
  rcases Own.eq_of_none hown with rfl | hm
  · rfl
  · cases st with
    | nil => exact h
    | cons fr r => exact absurd h.1 (not_fits_silent hm (hst fr List.mem_cons_self))

/-! ### Steps -/

section Steps

variable {ι D V : Type*} {I : Data D V}

theorem ending_init (d : D) (x : ι → V) : Ending (Process.init d x) where
  early _ _ := .nil
  calm h := by cases h
  order h := by cases h
  fine _ := ⟨.out, rfl, rfl⟩

theorem Spared.run {p : Process ι D V} {i : ι} {l : Label Act Cond Fn} (h : Spared p (.run i l)) :
    (p.begun = true → ∀ f, l ≠ .start f) ∧ (takesCache (p.sys.pc i).stack l = true →
      ∀ j, ∀ fr ∈ (p.sys.pc j).stack, Calm fr) := by
  cases l with
  | start f =>
    refine ⟨fun hb => absurd (hb.symm.trans h) (by simp), fun ht => ?_⟩
    unfold takesCache at ht
    split at ht <;> simp_all
  | _ => exact ⟨fun _ f => by simp, h⟩

theorem Ending.safe {p : Process ι D V} (h : Ending p) : Safe p where
  untouched hd i fr r l st hst hmove hc := by
    refine eq_of_onCache (h.calm (h.order hd) i fr ?_) hmove hc
    rw [hst]
    exact List.mem_cons_self
  released i k k' r hst _ := by
    obtain ⟨m, hfine, hown⟩ := h.fine i
    rw [hst] at hfine
    obtain ⟨⟨o, ho, -⟩, -⟩ := hfine
    obtain ⟨m', hm', -⟩ := Option.map_eq_some_iff.mp ho
    have hm : m = .preWrite := by
      simp only [discipline] at hm'
      unfold actMode at hm'
      split at hm' <;> simp_all
    rw [hown, hm]
    exact ⟨rfl, rfl⟩

variable [DecidableEq ι]

/-- **Every step keeps the invariant** if it meets the condition. -/
theorem ending_step {p p' : Process ι D V} {ev : Event ι} (h : Ending p)
    (hs : Process.Step I p ev p') (hG : Spared p ev) : Ending p' := by
  cases hs with
  | sigterm hmask =>
    rename_i s b d i
    obtain ⟨hown, hsilent⟩ := hG
    constructor
    · intro hb
      refine (Function.forall_update_iff s.pc fun _ (t : Thread V) => Early t.stack).mpr ?_
      exact ⟨.other (by simp) (h.early hb i), fun j _ => h.early hb j⟩
    · intro hb
      refine (Function.forall_update_iff s.pc
        fun _ (t : Thread V) => ∀ fr ∈ t.stack, Calm fr).mpr ?_
      refine ⟨?_, fun j _ => h.calm hb j⟩
      rw [Thread.interrupt, List.forall_mem_cons]
      refine ⟨.inr ⟨rfl, ?_⟩, h.calm hb i⟩
      rw [List.forall_mem_singleton]
      exact tidy_body rfl
    · exact h.order
    · refine (Function.forall_update_iff s.pc
        fun _ (t : Thread V) => ∃ m, discipline.Fine t.stack m ∧ t.own = Own.of m).mpr ?_
      refine ⟨?_, fun j _ => h.fine j⟩
      obtain ⟨m, hfine, hm⟩ := h.fine i
      obtain rfl := out_of_silent hfine hsilent (hm.symm.trans hown)
      exact ⟨.out, ⟨checked.body .sigtermHandler, hfine⟩, hm⟩
  | run hs =>
    rename_i s s' b d i l
    obtain ⟨hstart, htakes⟩ := hG.run
    obtain ⟨⟨hmove, -⟩⟩ := hs
    constructor
    · intro hb
      rw [Bool.or_eq_false_iff] at hb
      refine (Function.forall_update_iff s.pc fun _ (t : Thread V) => Early t.stack).mpr ?_
      exact ⟨(early_move (h.early hb.1 i) hmove hb.2).1, fun j _ => h.early hb.1 j⟩
    · intro hb
      have hcalm : (∀ j, ∀ fr ∈ (s.pc j).stack, Calm fr) ∧ ∀ f, l ≠ .start f := by
        rw [Bool.or_eq_true] at hb
        rcases hb with hb | ht
        · exact ⟨h.calm hb, hstart hb⟩
        · refine ⟨htakes ht, ?_⟩
          rintro f rfl
          unfold takesCache at ht
          split at ht <;> simp_all
      refine (Function.forall_update_iff s.pc
        fun _ (t : Thread V) => ∀ fr ∈ t.stack, Calm fr).mpr ?_
      exact ⟨calm_move (hcalm.1 i) hmove hcalm.2, fun j _ => hcalm.1 j⟩
    · intro hd
      by_contra hb
      rw [Bool.not_eq_true, Bool.or_eq_false_iff] at hb
      have hl := (early_move (h.early hb.1 i) hmove hb.2).2
      rw [hl, Bool.or_false] at hd
      exact absurd (hb.1.symm.trans (h.order hd)) (by simp)
    · refine (Function.forall_update_iff s.pc
        fun _ (t : Thread V) => ∃ m, discipline.Fine t.stack m ∧ t.own = Own.of m).mpr ?_
      refine ⟨?_, fun j _ => h.fine j⟩
      obtain ⟨m, hfine, hm⟩ := h.fine i
      obtain ⟨m', hafter, hfine'⟩ := Fine.move checked hfine hmove
      exact ⟨m', hfine', by rw [hm, own_after hafter]⟩

/-- **The destroyed cache is never touched** in a run in which `SIGTERM` is delivered only to a thread
that has taken nothing of the lock and whose calls have nothing left to do, `cache_destroy` takes `w`
only when this holds of all calls, and no call is started afterwards; and no `cache_destroy` waits for
the thread that it runs in. -/
theorem destroyed_safe {d : D} {x : ι → V} {tr : List (Event ι)} {p : Process ι D V}
    (h : Lts.Path (Lts.Guarded (Process.Step I) Spared) (Process.init d x) tr p) : Safe p := by
  have hinv : Ending p :=
    Lts.Path.invariant_state Ending (ending_init d x) (fun _ _ _ hI hs => ending_step hI hs.1 hs.2) h
  exact hinv.safe

/-- What the threads do, the process does. -/
theorem path_run {s s' : State ι D V} {tr : List (ι × Label Act Cond Fn)}
    (h : Lts.Path (CacheCode.Step I) s tr s') (b d : Bool) :
    ∃ b', Lts.Path (Process.Step I) ⟨s, b, d⟩ (tr.map fun a => .run a.1 a.2)
      ⟨s', b', d || tr.any fun a => endsDestroy a.2⟩ := by
  induction h with
  | nil =>
    rw [List.any_nil, Bool.or_false]
    exact ⟨b, .nil _⟩
  | snoc _ hs ih =>
    obtain ⟨b', ih⟩ := ih
    rw [List.map_append, List.any_append, ← Bool.or_assoc, List.any_cons, List.any_nil, Bool.or_false]
    exact ⟨_, ih.snoc (.run hs)⟩

/-- Calm calls keep the condition as long as no call is started. -/
theorem path_spared {p p' : Process ι D V} {tr : List (ι × Label Act Cond Fn)}
    (h : Lts.Path (Process.Step I) p (tr.map fun a => .run a.1 a.2) p')
    (hcalm : ∀ j, ∀ fr ∈ (p.sys.pc j).stack, Calm fr) (hstart : ∀ a ∈ tr, ∀ f, a.2 ≠ .start f) :
    Lts.Path (Lts.Guarded (Process.Step I) Spared) p (tr.map fun a => .run a.1 a.2) p' := by
  refine (Lts.Path.guarded_of (fun p => ∀ j, ∀ fr ∈ (p.sys.pc j).stack, Calm fr) hcalm ?_ ?_ h).2
  · intro p ev hev p' hp hs
    obtain ⟨⟨i, l⟩, ha, rfl⟩ := List.mem_map.mp hev
    cases hs with
    | run hs =>
      obtain ⟨⟨hmove, -⟩⟩ := hs
      refine (Function.forall_update_iff _ fun _ (t : Thread V) => ∀ fr ∈ t.stack, Calm fr).mpr ?_
      exact ⟨calm_move (hp i) hmove (hstart _ ha), fun j _ => hp j⟩
  · intro p ev hev hp
    obtain ⟨⟨i, l⟩, ha, rfl⟩ := List.mem_map.mp hev
    have hl := hstart _ ha
    cases l with
    | start f => exact absurd rfl (hl f)
    | _ => exact fun _ => hp

end Steps

/-! ## Runs -/

/-- A thread that will ask for an object, before any call. -/
def idleThread : Thread Vars := ⟨[], askFor ⟨[104], [56, 48], [47]⟩, .none⟩

/-- A thread that has just called `is_cached`. -/
def askingThread : Thread Vars := { idleThread with stack := [⟨.isCached, [body .isCached]⟩] }

theorem step_isCached (m : Mem Cache) :
    TStep cacheData m idleThread (.start .isCached) m askingThread :=
  .mk (.start _ trivial) (.start _ _ _ _ rfl)

/-- `SIGTERM` is delivered to thread `0` before any call, and the handler runs to its end. -/
abbrev destroyRun : List (Label Act Cond Fn) × Mem Cache × Thread Vars :=
  exec 38 (⟨lockInit, Cache.emptyCache⟩, idleThread.interrupt)

theorem path_destroyRun :
    Lts.Path (CacheCode.Step cacheData)
      ⟨⟨lockInit, Cache.emptyCache⟩,
        Function.update (fun _ : Fin 2 => idleThread) 0 idleThread.interrupt⟩
      (destroyRun.1.map fun l => (0, l))
      ⟨destroyRun.2.1, Function.update (fun _ => idleThread) 0 destroyRun.2.2⟩ := by
  have h := Threads.path_solo (exec_path 38 (⟨lockInit, Cache.emptyCache⟩, idleThread.interrupt)).1
    (Function.update (fun _ => idleThread) (0 : Fin 2) idleThread.interrupt) 0 (by simp)
  rwa [Function.update_idem] at h

/-- The delivery meets the condition. -/
theorem path_sigterm : Lts.Path (Lts.Guarded (Process.Step cacheData) Spared)
    (Process.init Cache.emptyCache fun _ : Fin 2 => idleThread.vars) [.sigterm 0]
    ⟨⟨⟨lockInit, Cache.emptyCache⟩, Function.update (fun _ => idleThread) 0 idleThread.interrupt⟩,
      false, false⟩ :=
  .single ⟨.sigterm (i := 0) (fun fr hfr => by cases hfr), rfl, fun fr hfr => by cases hfr⟩

/-- `SIGTERM` is delivered to a thread without a call, and the handler runs to its end. -/
theorem destroyed_safe_idle : ∃ (tr : List (Event (Fin 2))) (p : Process (Fin 2) Cache Vars),
    Lts.Path (Lts.Guarded (Process.Step cacheData) Spared)
      (Process.init Cache.emptyCache fun _ => idleThread.vars) tr p ∧ p.destroyed = true ∧ Safe p := by
  obtain ⟨b, hrun⟩ := path_run path_destroyRun false false
  have hspared := path_spared hrun ?_ ?_
  · exact ⟨_, _, path_sigterm.append hspared, rfl, destroyed_safe (path_sigterm.append hspared)⟩
  · refine (Function.forall_update_iff _ fun _ (t : Thread Vars) => ∀ fr ∈ t.stack, Calm fr).mpr ?_
    refine ⟨?_, fun j _ fr hfr => by cases hfr⟩
    intro fr hfr
    cases List.mem_singleton.mp hfr
    refine .inr ⟨rfl, ?_⟩
    rw [List.forall_mem_singleton]
    exact tidy_body rfl
  · intro a ha
    obtain ⟨l, hl, rfl⟩ := List.mem_map.mp ha
    exact (exec_path 38 _).2 l hl

/-- Thread `0` has called `is_cached` and has taken `w` in `pre_read`. -/
abbrev readingRun : List (Label Act Cond Fn) × Mem Cache × Thread Vars :=
  exec 9 (⟨lockInit, Cache.emptyCache⟩, askingThread)

/-- The handler has run in thread `0`, and `is_cached` in thread `1` tests the freed sentinels; and
thread `0`, which has taken `w` for `is_cached`, waits in the handler for itself. -/
theorem not_destroyed_safe :
    (∃ (tr : List (Event (Fin 2))) (p : Process (Fin 2) Cache Vars) (s t : Stmt Act Cond Fn)
        (k : List (Stmt Act Cond Fn)),
      Lts.Path (Process.Step cacheData) (Process.init Cache.emptyCache fun _ => idleThread.vars) tr p ∧
        p.destroyed = true ∧ (p.sys.pc 1).stack = [⟨.isCached, .ite (.queue .isEmpty) s t :: k⟩] ∧
        Test.isEmpty.eval p.sys.mem.data (p.sys.pc 1).vars = .error .oob ∧ ¬ Safe p) ∧
      ∃ (tr : List (Event (Fin 2))) (p : Process (Fin 2) Cache Vars) (k k' : List (Stmt Act Cond Fn))
        (r : List (Frame Act Cond Fn)),
      Lts.Path (Process.Step cacheData) (Process.init Cache.emptyCache fun _ => idleThread.vars) tr p ∧
        (p.sys.pc 0).stack = ⟨.preWrite, .act (.P .w) :: k⟩ :: ⟨.cacheDestroy, k'⟩ :: r ∧
        p.sys.mem.lock.w = 0 ∧ (p.sys.pc 0).own.readcnt = 1 ∧ ¬ Safe p := by
  refine ⟨?_, ?_⟩
  · have hsig := path_sigterm.mono fun _ _ _ hs => hs.1
    have hask := Threads.path_solo
      ((Lts.Path.single (.mk (step_isCached destroyRun.2.1))).append
        (exec_path 14 (destroyRun.2.1, askingThread)).1)
      (Function.update (fun _ => idleThread) 0 destroyRun.2.2) (1 : Fin 2) rfl
    obtain ⟨b, hrun⟩ := path_run (path_destroyRun.append hask) false false
    refine ⟨_, _, _, _, _, hsig.append hrun, rfl, rfl, rfl, fun hsafe => ?_⟩
    have hfn := hsafe.untouched rfl 1 _ _ _ _ rfl (.ite _ _ true _ _ _ _) rfl
    cases hfn
  · have hask := Threads.path_solo
      ((Lts.Path.single (.mk (step_isCached ⟨lockInit, Cache.emptyCache⟩))).append
        (exec_path 9 (⟨lockInit, Cache.emptyCache⟩, askingThread)).1)
      (fun _ => idleThread) (0 : Fin 2) rfl
    obtain ⟨b, hrun⟩ := path_run hask false false
    have hsig := hrun.snoc (.sigterm (i := 0) (by decide))
    simp only [Function.update_self, Function.update_idem] at hsig
    have hwait := Threads.path_solo (exec_path 4 (readingRun.2.1, readingRun.2.2.interrupt)).1
      (Function.update (fun _ => idleThread) 0 readingRun.2.2.interrupt) (0 : Fin 2) rfl
    obtain ⟨b', hrun'⟩ := path_run hwait b false
    refine ⟨_, _, _, _, _, hsig.append hrun', rfl, rfl, rfl, fun hsafe => ?_⟩
    have hread := (hsafe.released 0 _ _ _ rfl rfl).2
    cases hread

end MiniProxy.CacheCode

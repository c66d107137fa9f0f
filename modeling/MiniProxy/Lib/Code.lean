import Mathlib.Data.List.Basic

/-!
# Structured code and its modes

Statements over atomic actions `A`, tests `T` and functions `F`, run on a stack of calls.

* `Stmt`, `Frame`, `Move body api`: one step of the control flow, labelled by what it does;
* `Discipline`: how actions, tests and calls change a *mode*; `Discipline.after`;
* `flow`: the mode in which a statement ends, if it is used as the discipline allows;
* `Fits`, `Fine`: what is left to run fits the mode; **`Fine.move`**: every step goes from a fine stack
  to a fine one and is a step that the discipline allows;
* `exists_move`: a running call has a next step; `next` computes it from the outcomes of the tests.
-/

namespace Code

variable {A T F M : Type*}

/-- Statements. `ret` leaves the function. -/
inductive Stmt (A T F : Type*)
  | skip
  | act (a : A)
  | seq (s t : Stmt A T F)
  | ite (b : T) (s t : Stmt A T F)
  | loop (b : T) (s : Stmt A T F)
  | call (f : F)
  | ret

/-- One statement after the other. -/
def Stmt.block : List (Stmt A T F) → Stmt A T F
  | [] => .skip
  | s :: l => .seq s (Stmt.block l)

/-- A call that is running: what is left of its body. -/
structure Frame (A T F : Type*) where
  fn : F
  todo : List (Stmt A T F)

/-- What a step of the control flow does. -/
inductive Label (A T F : Type*)
  | tau
  | act (f : F) (a : A)
  | test (b : T) (v : Bool)
  | start (f : F)
  | call (f : F)
  | ret (f : F)

/-- The steps of the control flow. With no call running a function of `api` may be called. -/
inductive Move (body : F → Stmt A T F) (api : F → Prop) :
    List (Frame A T F) → Label A T F → List (Frame A T F) → Prop
  | start (f : F) (h : api f) : Move body api [] (.start f) [⟨f, [body f]⟩]
  | skip (f : F) (k : List (Stmt A T F)) (r : List (Frame A T F)) :
      Move body api (⟨f, .skip :: k⟩ :: r) .tau (⟨f, k⟩ :: r)
  | act (f : F) (a : A) (k : List (Stmt A T F)) (r : List (Frame A T F)) :
      Move body api (⟨f, .act a :: k⟩ :: r) (.act f a) (⟨f, k⟩ :: r)
  | seq (f : F) (s t : Stmt A T F) (k : List (Stmt A T F)) (r : List (Frame A T F)) :
      Move body api (⟨f, .seq s t :: k⟩ :: r) .tau (⟨f, s :: t :: k⟩ :: r)
  | ite (f : F) (b : T) (v : Bool) (s t : Stmt A T F) (k : List (Stmt A T F))
      (r : List (Frame A T F)) :
      Move body api (⟨f, .ite b s t :: k⟩ :: r) (.test b v) (⟨f, (if v then s else t) :: k⟩ :: r)
  | loop (f : F) (b : T) (s : Stmt A T F) (k : List (Stmt A T F)) (r : List (Frame A T F)) :
      Move body api (⟨f, .loop b s :: k⟩ :: r) (.test b true) (⟨f, s :: .loop b s :: k⟩ :: r)
  | exit (f : F) (b : T) (s : Stmt A T F) (k : List (Stmt A T F)) (r : List (Frame A T F)) :
      Move body api (⟨f, .loop b s :: k⟩ :: r) (.test b false) (⟨f, k⟩ :: r)
  | call (f g : F) (k : List (Stmt A T F)) (r : List (Frame A T F)) :
      Move body api (⟨f, .call g :: k⟩ :: r) (.call g) (⟨g, [body g]⟩ :: ⟨f, k⟩ :: r)
  | ret (f : F) (k : List (Stmt A T F)) (r : List (Frame A T F)) :
      Move body api (⟨f, .ret :: k⟩ :: r) (.ret f) r
  | done (f : F) (r : List (Frame A T F)) : Move body api (⟨f, []⟩ :: r) (.ret f) r

/-- How a mode changes. A function is called in the mode `pre`, its body starts in `entry`, and it
returns in `post`; `idle` is the mode outside of all calls. -/
structure Discipline (A T F M : Type*) where
  act : F → A → M → Option M
  test : T → Bool → M → Option M
  pre : F → M
  entry : F → M
  post : F → M
  idle : M

variable [DecidableEq M]

namespace Discipline

/-- The mode after a step, if the discipline allows it. -/
def after (D : Discipline A T F M) : Label A T F → M → Option M
  | .tau, m => some m
  | .act f a, m => D.act f a m
  | .test b v, m => D.test b v m
  | .start f, m | .call f, m => if m = D.pre f then some (D.entry f) else none
  | .ret f, m => if m = D.post f then some m else none

/-- Where two branches meet: a branch that has returned does not count. -/
def join : Option M → Option M → Option (Option M)
  | none, o => some o
  | o, none => some o
  | some m, some m' => if m = m' then some (some m) else none

/-- The mode in which a statement of the function `f` ends, `none` if it returns from `f`;
undefined if it breaks the discipline. A loop ends its body in the mode in which it was entered. -/
def flow (D : Discipline A T F M) (f : F) : Stmt A T F → M → Option (Option M)
  | .skip, m => some (some m)
  | .act a, m => (D.act f a m).map some
  | .seq s t, m => do
    match ← D.flow f s m with
    | none => some none
    | some m' => D.flow f t m'
  | .ite b s t, m => do
    let m₁ ← D.test b true m
    let m₂ ← D.test b false m
    let o₁ ← D.flow f s m₁
    let o₂ ← D.flow f t m₂
    join o₁ o₂
  | .loop b s, m => do
    let m₁ ← D.test b true m
    let m₂ ← D.test b false m
    let o ← D.flow f s m₁
    if o = none ∨ o = some m then some (some m₂) else none
  | .call g, m => if m = D.pre g then some (some (D.post g)) else none
  | .ret, m => if m = D.post f then some none else none

/-- The statements that the function `f` still has to run keep the discipline in mode `m`. -/
def Fits (D : Discipline A T F M) (f : F) : List (Stmt A T F) → M → Prop
  | [], m => m = D.post f
  | s :: k, m => ∃ o, D.flow f s m = some o ∧ ∀ m', o = some m' → D.Fits f k m'

/-- All running calls keep the discipline, the innermost one in mode `m`. -/
def Fine (D : Discipline A T F M) : List (Frame A T F) → M → Prop
  | [], m => m = D.idle
  | fr :: r, m => D.Fits fr.fn fr.todo m ∧ D.Fine r (D.post fr.fn)

/-- Every body keeps the discipline, and so does a call from outside. -/
structure Checked (D : Discipline A T F M) (body : F → Stmt A T F) (api : F → Prop) : Prop where
  body : ∀ f, D.Fits f [body f] (D.entry f)
  api : ∀ f, api f → D.pre f = D.idle ∧ D.post f = D.idle

variable {D : Discipline A T F M} {f : F} {m : M}

theorem join_eq {o₁ o₂ o : Option M} (h : join o₁ o₂ = some o) :
    (∀ m, o₁ = some m → o = some m) ∧ ∀ m, o₂ = some m → o = some m := by
  cases o₁ with
  | none =>
    cases h
    exact ⟨nofun, fun m hm => hm⟩
  | some a =>
    cases o₂ with
    | none =>
      cases h
      exact ⟨fun m hm => hm, nofun⟩
    | some b =>
      simp only [join] at h
      split_ifs at h with hab
      cases h
      subst hab
      exact ⟨fun m hm => hm, fun m hm => hm⟩

theorem fits_of_flow {s : Stmt A T F} (h : D.flow f s m = some (some (D.post f))) :
    D.Fits f [s] m :=
  ⟨some (D.post f), h, fun _ hm => (Option.some.inj hm).symm⟩

theorem fits_of_returns {s : Stmt A T F} (h : D.flow f s m = some none) : D.Fits f [s] m :=
  ⟨none, h, fun _ hm => by cases hm⟩

/-! ## Steps -/

section Steps

variable {s t : Stmt A T F} {k : List (Stmt A T F)}

theorem Fits.seq (h : D.Fits f (.seq s t :: k) m) : D.Fits f (s :: t :: k) m := by
  obtain ⟨o, ho, hk⟩ := h
  unfold flow at ho
  obtain ⟨o₁, h₁, h₂⟩ := Option.bind_eq_some_iff.mp ho
  refine ⟨o₁, h₁, ?_⟩
  intro m' hm'
  subst hm'
  exact ⟨o, h₂, hk⟩

theorem Fits.ite {b : T} (h : D.Fits f (.ite b s t :: k) m) (v : Bool) :
    ∃ m', D.test b v m = some m' ∧ D.Fits f ((if v then s else t) :: k) m' := by
  obtain ⟨o, ho, hk⟩ := h
  unfold flow at ho
  obtain ⟨m₁, h₁, ho⟩ := Option.bind_eq_some_iff.mp ho
  obtain ⟨m₂, h₂, ho⟩ := Option.bind_eq_some_iff.mp ho
  obtain ⟨o₁, hs, ho⟩ := Option.bind_eq_some_iff.mp ho
  obtain ⟨o₂, ht, ho⟩ := Option.bind_eq_some_iff.mp ho
  obtain ⟨hl, hr⟩ := join_eq ho
  cases v with
  | true => exact ⟨m₁, h₁, o₁, hs, fun m' hm' => hk m' (hl m' hm')⟩
  | false => exact ⟨m₂, h₂, o₂, ht, fun m' hm' => hk m' (hr m' hm')⟩

theorem Fits.loop {b : T} (h : D.Fits f (.loop b s :: k) m) :
    (∃ m', D.test b true m = some m' ∧ D.Fits f (s :: .loop b s :: k) m') ∧
      ∃ m', D.test b false m = some m' ∧ D.Fits f k m' := by
  have hloop := h
  obtain ⟨o, ho, hk⟩ := h
  unfold flow at ho
  obtain ⟨m₁, h₁, ho⟩ := Option.bind_eq_some_iff.mp ho
  obtain ⟨m₂, h₂, ho⟩ := Option.bind_eq_some_iff.mp ho
  obtain ⟨o₁, hs, ho⟩ := Option.bind_eq_some_iff.mp ho
  split_ifs at ho with hback
  cases ho
  refine ⟨⟨m₁, h₁, o₁, hs, ?_⟩, m₂, h₂, hk m₂ rfl⟩
  intro m' hm'
  -- the body came back to the mode of the loop
  rcases hback with hn | hb
  · rw [hn] at hm'
    cases hm'
  · rw [hb] at hm'
    cases hm'
    exact hloop

theorem Fits.call {g : F} (h : D.Fits f (.call g :: k) m) : m = D.pre g ∧ D.Fits f k (D.post g) := by
  obtain ⟨o, ho, hk⟩ := h
  unfold flow at ho
  split_ifs at ho with hm
  cases ho
  exact ⟨hm, hk _ rfl⟩

theorem Fits.ret (h : D.Fits f (.ret :: k) m) : m = D.post f := by
  obtain ⟨o, ho, -⟩ := h
  unfold flow at ho
  split_ifs at ho with hm
  exact hm

end Steps

/-- **Every step keeps the discipline.** -/
theorem Fine.move {body : F → Stmt A T F} {api : F → Prop} (hD : D.Checked body api)
    {st st' : List (Frame A T F)} {l : Label A T F} (h : D.Fine st m) (hm : Move body api st l st') :
    ∃ m', D.after l m = some m' ∧ D.Fine st' m' := by
  cases hm with
  | start f hf =>
    obtain ⟨hpre, hpost⟩ := hD.api f hf
    exact ⟨D.entry f, if_pos (h.trans hpre.symm), hD.body f, hpost⟩
  | skip f k r =>
    obtain ⟨⟨o, ho, hk⟩, hr⟩ := h
    cases ho
    exact ⟨m, rfl, hk m rfl, hr⟩
  | act f a k r =>
    obtain ⟨⟨o, ho, hk⟩, hr⟩ := h
    obtain ⟨m', hm', rfl⟩ := Option.map_eq_some_iff.mp ho
    exact ⟨m', hm', hk m' rfl, hr⟩
  | seq f s t k r => exact ⟨m, rfl, h.1.seq, h.2⟩
  | ite f b v s t k r =>
    obtain ⟨m', hm', hk⟩ := h.1.ite v
    exact ⟨m', hm', hk, h.2⟩
  | loop f b s k r =>
    obtain ⟨m', hm', hk⟩ := h.1.loop.1
    exact ⟨m', hm', hk, h.2⟩
  | exit f b s k r =>
    obtain ⟨m', hm', hk⟩ := h.1.loop.2
    exact ⟨m', hm', hk, h.2⟩
  | call f g k r =>
    obtain ⟨hm, hk⟩ := h.1.call
    exact ⟨D.entry g, if_pos hm, hD.body g, hk, h.2⟩
  | ret f k r =>
    have hp := h.1.ret
    exact ⟨m, if_pos hp, hp ▸ h.2⟩
  | done f r => exact ⟨m, if_pos h.1, h.1 ▸ h.2⟩

end Discipline

/-- **A running call has a next step**: an action, a test with either outcome, or a step of the
control flow alone. -/
theorem exists_move (body : F → Stmt A T F) (api : F → Prop) (fr : Frame A T F)
    (r : List (Frame A T F)) :
    (∃ a st', Move body api (fr :: r) (.act fr.fn a) st') ∨
      (∃ b, ∀ v, ∃ st', Move body api (fr :: r) (.test b v) st') ∨
      (∃ g st', Move body api (fr :: r) (.call g) st') ∨
      (∃ st', Move body api (fr :: r) (.ret fr.fn) st') ∨
      ∃ st', Move body api (fr :: r) .tau st' := by
  obtain ⟨f, todo⟩ := fr
  cases todo with
  | nil => exact .inr (.inr (.inr (.inl ⟨_, .done f r⟩)))
  | cons s k =>
    cases s with
    | skip => exact .inr (.inr (.inr (.inr ⟨_, .skip f k r⟩)))
    | act a => exact .inl ⟨a, _, .act f a k r⟩
    | seq s t => exact .inr (.inr (.inr (.inr ⟨_, .seq f s t k r⟩)))
    | ite b s t => exact .inr (.inl ⟨b, fun v => ⟨_, .ite f b v s t k r⟩⟩)
    | loop b s =>
      refine .inr (.inl ⟨b, ?_⟩)
      intro v
      cases v with
      | true => exact ⟨_, .loop f b s k r⟩
      | false => exact ⟨_, .exit f b s k r⟩
    | call g => exact .inr (.inr (.inl ⟨g, _, .call f g k r⟩))
    | ret => exact .inr (.inr (.inr (.inl ⟨_, .ret f k r⟩)))

/-- The step that running calls take next, where the tests come out as `v` says. -/
def next (body : F → Stmt A T F) (v : T → Bool) :
    List (Frame A T F) → Option (Label A T F × List (Frame A T F))
  | [] => none
  | ⟨f, []⟩ :: r => some (.ret f, r)
  | ⟨f, .skip :: k⟩ :: r => some (.tau, ⟨f, k⟩ :: r)
  | ⟨f, .act a :: k⟩ :: r => some (.act f a, ⟨f, k⟩ :: r)
  | ⟨f, .seq s t :: k⟩ :: r => some (.tau, ⟨f, s :: t :: k⟩ :: r)
  | ⟨f, .ite b s t :: k⟩ :: r => some (.test b (v b), ⟨f, (if v b then s else t) :: k⟩ :: r)
  | ⟨f, .loop b s :: k⟩ :: r =>
    some (.test b (v b), ⟨f, if v b then s :: .loop b s :: k else k⟩ :: r)
  | ⟨f, .call g :: k⟩ :: r => some (.call g, ⟨g, [body g]⟩ :: ⟨f, k⟩ :: r)
  | ⟨f, .ret :: _⟩ :: r => some (.ret f, r)

/-- What `next` computes is a step, it starts no call, and its tests come out as `v` says. -/
theorem move_next {body : F → Stmt A T F} {api : F → Prop} {v : T → Bool}
    {st st' : List (Frame A T F)} {l : Label A T F} (h : next body v st = some (l, st')) :
    Move body api st l st' ∧ (∀ f, l ≠ .start f) ∧ ∀ b u, l = .test b u → u = v b := by
  unfold next at h
  split at h
  · cases h
  · cases h
    exact ⟨.done _ _, by simp, by simp⟩
  · cases h
    exact ⟨.skip _ _ _, by simp, by simp⟩
  · cases h
    exact ⟨.act _ _ _ _, by simp, by simp⟩
  · cases h
    exact ⟨.seq _ _ _ _ _, by simp, by simp⟩
  · cases h
    exact ⟨.ite _ _ _ _ _ _ _, by simp, by simp +contextual⟩
  · rename_i f b s k r
    cases h
    refine ⟨?_, by simp, by simp +contextual⟩
    cases v b with
    | true => exact .loop _ _ _ _ _
    | false => exact .exit _ _ _ _ _
  · cases h
    exact ⟨.call _ _ _ _, by simp, by simp⟩
  · cases h
    exact ⟨.ret _ _ _, by simp, by simp⟩

end Code

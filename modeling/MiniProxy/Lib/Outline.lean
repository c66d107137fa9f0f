import MiniProxy.Lib.Code

/-!
# Outlines of structured code

A `Discipline` knows one mode in which a function is called and one in which it returns. An *outline*
has a mode for every point of the program, so that what a function does to the mode depends on the
point from which it is called.

* `Outline`: how actions, tests and calls change the mode; `Outline.after`;
* `flow`, `Fits`, `Fine`, `Checked`: as for a discipline;
* **`Fine.move`**: every step goes from a fine stack to a fine one and changes the mode as the outline
  says.
-/

namespace Code

variable {A T F M : Type*}

/-- How the mode changes. `call f m` is the mode in which the body of `f` starts when `f` is called in
the mode `m`, and the one in which it returns. A call from outside starts the body in the mode `start f`
and returns in the mode `idle`, the one outside of all calls. -/
structure Outline (A T F M : Type*) where
  act : F → A → M → Option M
  test : T → Bool → M → Option M
  call : F → M → Option (M × M)
  start : F → Option M
  idle : M

variable [DecidableEq M]

namespace Outline

/-- The mode after a step, if the outline has one. -/
def after (O : Outline A T F M) : Label A T F → M → Option M
  | .tau, m => some m
  | .act f a, m => O.act f a m
  | .test b v, m => O.test b v m
  | .start f, _ => O.start f
  | .call f, m => (O.call f m).map Prod.fst
  | .ret _, m => some m

/-- The mode in which a statement of the function `f` ends, `none` if it returns from `f` in the mode
`e`. A loop ends its body in the mode in which it was entered. -/
def flow (O : Outline A T F M) (f : F) (e : M) : Stmt A T F → M → Option (Option M)
  | .skip, m => some (some m)
  | .act a, m => (O.act f a m).map some
  | .seq s t, m => do
    match ← O.flow f e s m with
    | none => some none
    | some m' => O.flow f e t m'
  | .ite b s t, m => do
    let m₁ ← O.test b true m
    let m₂ ← O.test b false m
    let o₁ ← O.flow f e s m₁
    let o₂ ← O.flow f e t m₂
    Discipline.join o₁ o₂
  | .loop b s, m => do
    let m₁ ← O.test b true m
    let m₂ ← O.test b false m
    let o ← O.flow f e s m₁
    if o = none ∨ o = some m then some (some m₂) else none
  | .call g, m => (O.call g m).map fun x => some x.2
  | .ret, m => if m = e then some none else none

/-- The statements that the function `f` still has to run fit the mode `m`; it returns in the mode `e`. -/
def Fits (O : Outline A T F M) (f : F) (e : M) : List (Stmt A T F) → M → Prop
  | [], m => m = e
  | s :: k, m => ∃ o, O.flow f e s m = some o ∧ ∀ m', o = some m' → O.Fits f e k m'

/-- All running calls fit, the innermost one in the mode `m`. -/
def Fine (O : Outline A T F M) : List (Frame A T F) → M → Prop
  | [], m => m = O.idle
  | fr :: r, m => ∃ e, O.Fits fr.fn e fr.todo m ∧ O.Fine r e

/-- Every body fits, from wherever the function is called. -/
structure Checked (O : Outline A T F M) (body : F → Stmt A T F) : Prop where
  call : ∀ f m x e, O.call f m = some (x, e) → O.Fits f e [body f] x
  start : ∀ f x, O.start f = some x → O.Fits f O.idle [body f] x

variable {O : Outline A T F M} {f : F} {e m : M}

theorem fits_of_flow {s : Stmt A T F} (h : O.flow f e s m = some (some e)) : O.Fits f e [s] m :=
  ⟨some e, h, fun _ hm => (Option.some.inj hm).symm⟩

theorem fits_of_returns {s : Stmt A T F} (h : O.flow f e s m = some none) : O.Fits f e [s] m :=
  ⟨none, h, fun _ hm => by cases hm⟩

section Steps

variable {s t : Stmt A T F} {k : List (Stmt A T F)}

theorem Fits.seq (h : O.Fits f e (.seq s t :: k) m) : O.Fits f e (s :: t :: k) m := by
  obtain ⟨o, ho, hk⟩ := h
  unfold flow at ho
  obtain ⟨o₁, h₁, h₂⟩ := Option.bind_eq_some_iff.mp ho
  refine ⟨o₁, h₁, ?_⟩
  intro m' hm'
  subst hm'
  exact ⟨o, h₂, hk⟩

theorem Fits.ite {b : T} (h : O.Fits f e (.ite b s t :: k) m) (v : Bool) :
    ∃ m', O.test b v m = some m' ∧ O.Fits f e ((if v then s else t) :: k) m' := by
  obtain ⟨o, ho, hk⟩ := h
  unfold flow at ho
  obtain ⟨m₁, h₁, ho⟩ := Option.bind_eq_some_iff.mp ho
  obtain ⟨m₂, h₂, ho⟩ := Option.bind_eq_some_iff.mp ho
  obtain ⟨o₁, hs, ho⟩ := Option.bind_eq_some_iff.mp ho
  obtain ⟨o₂, ht, ho⟩ := Option.bind_eq_some_iff.mp ho
  obtain ⟨hl, hr⟩ := Discipline.join_eq ho
  cases v with
  | true => exact ⟨m₁, h₁, o₁, hs, fun m' hm' => hk m' (hl m' hm')⟩
  | false => exact ⟨m₂, h₂, o₂, ht, fun m' hm' => hk m' (hr m' hm')⟩

theorem Fits.loop {b : T} (h : O.Fits f e (.loop b s :: k) m) :
    (∃ m', O.test b true m = some m' ∧ O.Fits f e (s :: .loop b s :: k) m') ∧
      ∃ m', O.test b false m = some m' ∧ O.Fits f e k m' := by
  have hloop := h
  obtain ⟨o, ho, hk⟩ := h
  unfold flow at ho
  obtain ⟨m₁, h₁, ho⟩ := Option.bind_eq_some_iff.mp ho
  obtain ⟨m₂, h₂, ho⟩ := Option.bind_eq_some_iff.mp ho
  obtain ⟨o₁, hs, ho⟩ := Option.bind_eq_some_iff.mp ho
  split_ifs at ho with hback
  cases ho
  refine ⟨⟨m₁, h₁, o₁, hs, ?_⟩, m₂, h₂, hk m₂ rfl⟩
  intro m' hm'
  -- the body came back to the mode of the loop
  rcases hback with hn | hb
  · rw [hn] at hm'
    cases hm'
  · rw [hb] at hm'
    cases hm'
    exact hloop

theorem Fits.call {g : F} (h : O.Fits f e (.call g :: k) m) :
    ∃ x m', O.call g m = some (x, m') ∧ O.Fits f e k m' := by
  obtain ⟨o, ho, hk⟩ := h
  obtain ⟨⟨x, m'⟩, hcall, rfl⟩ := Option.map_eq_some_iff.mp ho
  exact ⟨x, m', hcall, hk m' rfl⟩

theorem Fits.ret (h : O.Fits f e (.ret :: k) m) : m = e := by
  obtain ⟨o, ho, -⟩ := h
  unfold flow at ho
  split_ifs at ho with hm
  exact hm

end Steps

/-- **Every step follows the outline**, where calls from outside leave no trace. -/
theorem Fine.move {body : F → Stmt A T F} {api : F → Prop} (hO : O.Checked body)
    {st st' : List (Frame A T F)} {l : Label A T F} (h : O.Fine st m) (hm : Move body api st l st')
    (hstart : ∀ f, l = .start f → ∃ x, O.start f = some x) :
    ∃ m', O.after l m = some m' ∧ O.Fine st' m' := by
  cases hm with
  | start f hf =>
    obtain ⟨x, hx⟩ := hstart f rfl
    exact ⟨x, hx, O.idle, hO.start f x hx, rfl⟩
  | skip f k r =>
    obtain ⟨e, ⟨o, ho, hk⟩, hr⟩ := h
    cases ho
    exact ⟨m, rfl, e, hk m rfl, hr⟩
  | act f a k r =>
    obtain ⟨e, ⟨o, ho, hk⟩, hr⟩ := h
    obtain ⟨m', hm', rfl⟩ := Option.map_eq_some_iff.mp ho
    exact ⟨m', hm', e, hk m' rfl, hr⟩
  | seq f s t k r =>
    obtain ⟨e, hk, hr⟩ := h
    exact ⟨m, rfl, e, hk.seq, hr⟩
  | ite f b v s t k r =>
    obtain ⟨e, hk, hr⟩ := h
    obtain ⟨m', hm', hk⟩ := hk.ite v
    exact ⟨m', hm', e, hk, hr⟩
  | loop f b s k r =>
    obtain ⟨e, hk, hr⟩ := h
    obtain ⟨m', hm', hk⟩ := hk.loop.1
    exact ⟨m', hm', e, hk, hr⟩
  | exit f b s k r =>
    obtain ⟨e, hk, hr⟩ := h
    obtain ⟨m', hm', hk⟩ := hk.loop.2
    exact ⟨m', hm', e, hk, hr⟩
  | call f g k r =>
    obtain ⟨e, hk, hr⟩ := h
    obtain ⟨y, m', hg, hk⟩ := hk.call
    exact ⟨y, by rw [after, hg]; rfl, m', hO.call g _ _ _ hg, e, hk, hr⟩
  | ret f k r =>
    obtain ⟨e, hk, hr⟩ := h
    exact ⟨m, rfl, hk.ret ▸ hr⟩
  | done f r =>
    obtain ⟨e, rfl, hr⟩ := h
    exact ⟨m, rfl, hr⟩

end Outline

end Code

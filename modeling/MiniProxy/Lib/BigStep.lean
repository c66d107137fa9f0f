import Mathlib.Logic.Relation
import MiniProxy.Lib.Code

/-!
# Structured code from beginning to end

What statements do as a whole, where a step of the control flow does one thing at a time. `eff` says what
the actions do to a state and `out` how the tests come out in it.

* `Goes`, `Leads`: steps of running calls, none of which starts a call from outside;
* `Runs`, `RunsAll`: a statement, and statements one after the other, lead from a state to another;
* `Runs.act`, `Runs.ite`, `Runs.loop`, `Runs.exit`, `Runs.call`, `Runs.block`: the rules of the statements;
* `Leaves`: at a statement the function returns; `Leaves.ret`, `Leaves.block`, `Leaves.loop`,
  `Leaves.turn`: the rules;
* `Ends`: a function returns; `Ends.of_runs`, `Ends.of_leaves`.
-/

namespace Code

variable {A T F σ : Type*}

theorem Move.mono {body : F → Stmt A T F} {api api' : F → Prop} (hle : ∀ f, api f → api' f)
    {st st' : List (Frame A T F)} {l : Label A T F} (h : Move body api st l st') :
    Move body api' st l st' := by
  cases h with
  | start f hf => exact .start f (hle f hf)
  | skip => exact .skip _ _ _
  | act => exact .act _ _ _ _
  | seq => exact .seq _ _ _ _ _
  | ite => exact .ite _ _ _ _ _ _ _
  | loop => exact .loop _ _ _ _ _
  | exit => exact .exit _ _ _ _ _
  | call => exact .call _ _ _ _
  | ret => exact .ret _ _ _
  | done => exact .done _ _

/-- A step of running calls. -/
inductive Goes (body : F → Stmt A T F) (eff : F → A → σ → σ → Prop) (out : T → Bool → σ → Prop) :
    List (Frame A T F) × σ → List (Frame A T F) × σ → Prop
  | tau {st st' : List (Frame A T F)} (hm : Move body (fun _ => False) st .tau st') (x : σ) :
      Goes body eff out (st, x) (st', x)
  | act {st st' : List (Frame A T F)} {f : F} {a : A} {x y : σ}
      (hm : Move body (fun _ => False) st (.act f a) st') (h : eff f a x y) :
      Goes body eff out (st, x) (st', y)
  | test {st st' : List (Frame A T F)} {b : T} {v : Bool} {x : σ}
      (hm : Move body (fun _ => False) st (.test b v) st') (h : out b v x) :
      Goes body eff out (st, x) (st', x)
  | call {st st' : List (Frame A T F)} {f : F} (hm : Move body (fun _ => False) st (.call f) st') (x : σ) :
      Goes body eff out (st, x) (st', x)
  | ret {st st' : List (Frame A T F)} {f : F} (hm : Move body (fun _ => False) st (.ret f) st') (x : σ) :
      Goes body eff out (st, x) (st', x)

variable (body : F → Stmt A T F) (eff : F → A → σ → σ → Prop) (out : T → Bool → σ → Prop)

/-- Steps of running calls. -/
abbrev Leads : List (Frame A T F) × σ → List (Frame A T F) × σ → Prop :=
  Relation.ReflTransGen (Goes body eff out)

/-- The statement `s` of the function `f` leads from the state `x` to `y`, whatever is left to do. -/
def Runs (f : F) (s : Stmt A T F) (x y : σ) : Prop :=
  ∀ k r, Leads body eff out (⟨f, s :: k⟩ :: r, x) (⟨f, k⟩ :: r, y)

/-- The statements of `f` lead from a state to another, one after the other. -/
inductive RunsAll (f : F) : List (Stmt A T F) → σ → σ → Prop
  | nil (x : σ) : RunsAll f [] x x
  | cons {s : Stmt A T F} {l : List (Stmt A T F)} {x y z : σ} (h : Runs body eff out f s x y)
      (hl : RunsAll f l y z) : RunsAll f (s :: l) x z

/-- At the statement `s` the function `f` returns, from the state `x` in `y`. -/
def Leaves (f : F) (s : Stmt A T F) (x y : σ) : Prop :=
  ∀ k r, Leads body eff out (⟨f, s :: k⟩ :: r, x) (r, y)

/-- The function `f`, which has the statements `l` left to do, returns from the state `x` in `y`. -/
def Ends (f : F) (l : List (Stmt A T F)) (x y : σ) : Prop :=
  ∀ r, Leads body eff out (⟨f, l⟩ :: r, x) (r, y)

variable {body eff out} {f : F} {s t : Stmt A T F} {k l : List (Stmt A T F)} {x y z : σ}

theorem Runs.skip : Runs body eff out f .skip x x := fun k r => .single (.tau (.skip f k r) x)

theorem Runs.act {a : A} (h : eff f a x y) : Runs body eff out f (.act a) x y := fun k r =>
  .single (.act (.act f a k r) h)

theorem Runs.ite {b : T} {v : Bool} (h : out b v x)
    (hs : Runs body eff out f (if v then s else t) x y) : Runs body eff out f (.ite b s t) x y :=
  fun k r => .head (.test (.ite f b v s t k r) h) (hs k r)

/-- A turn of a loop. -/
theorem Runs.loop {b : T} (h : out b true x) (hs : Runs body eff out f s x y)
    (hl : Runs body eff out f (.loop b s) y z) : Runs body eff out f (.loop b s) x z :=
  fun k r => .head (.test (.loop f b s k r) h) ((hs (.loop b s :: k) r).trans (hl k r))

theorem Runs.exit {b : T} (h : out b false x) : Runs body eff out f (.loop b s) x x := fun k r =>
  .single (.test (.exit f b s k r) h)

/-- A call of a function that returns. -/
theorem Runs.call {g : F} (h : Ends body eff out g [body g] x y) :
    Runs body eff out f (.call g) x y := fun k r =>
  .head (.call (.call f g k r) x) (h (⟨f, k⟩ :: r))

theorem RunsAll.append (h : RunsAll body eff out f l x y) (hk : RunsAll body eff out f k y z) :
    RunsAll body eff out f (l ++ k) x z := by
  induction h with
  | nil => exact hk
  | cons h _ ih => exact .cons h (ih hk)

theorem Runs.block (h : RunsAll body eff out f l x y) : Runs body eff out f (.block l) x y := by
  induction h with
  | nil => exact .skip
  | @cons s l _ _ _ h _ ih =>
    exact fun k r => .head (.tau (.seq f s (.block l) k r) _) ((h _ r).trans (ih k r))

/-! ## Functions -/

theorem Leaves.ret : Leaves body eff out f .ret x x := fun k r => .single (.ret (.ret f k r) x)

theorem Leaves.ite {b : T} {v : Bool} (h : out b v x)
    (hs : Leaves body eff out f (if v then s else t) x y) : Leaves body eff out f (.ite b s t) x y :=
  fun k r => .head (.test (.ite f b v s t k r) h) (hs k r)

/-- The body of a loop returns. -/
theorem Leaves.loop {b : T} (h : out b true x) (hs : Leaves body eff out f s x y) :
    Leaves body eff out f (.loop b s) x y := fun k r =>
  .head (.test (.loop f b s k r) h) (hs (.loop b s :: k) r)

/-- A turn of a loop that returns later. -/
theorem Leaves.turn {b : T} (h : out b true x) (hs : Runs body eff out f s x y)
    (hl : Leaves body eff out f (.loop b s) y z) : Leaves body eff out f (.loop b s) x z :=
  fun k r => .head (.test (.loop f b s k r) h) ((hs (.loop b s :: k) r).trans (hl k r))

/-- One of the statements of a block returns. -/
theorem Leaves.block (h : RunsAll body eff out f l x y) (hs : Leaves body eff out f s y z) :
    Leaves body eff out f (.block (l ++ s :: k)) x z := by
  induction h with
  | nil x => exact fun k' r => .head (.tau (.seq f s (.block k) k' r) x) (hs (.block k :: k') r)
  | @cons t l _ _ _ h _ ih =>
    exact fun k' r => .head (.tau (.seq f t (.block (l ++ s :: k)) k' r) _) ((h _ r).trans (ih hs k' r))

theorem Ends.cons (h : Runs body eff out f s x y) (hl : Ends body eff out f l y z) :
    Ends body eff out f (s :: l) x z := fun r => (h l r).trans (hl r)

/-- A function ends behind its last statement. -/
theorem Ends.of_runs (h : Runs body eff out f s x y) : Ends body eff out f [s] x y :=
  .cons h fun r => .single (.ret (.done f r) _)

theorem Ends.of_leaves (h : Leaves body eff out f s x y) : Ends body eff out f (s :: k) x y :=
  fun r => h k r

end Code

import Mathlib.Data.List.Basic

/-!
# Runs of labelled transition systems

A system is a step relation `step : σ → α → σ → Prop` whose label tells what the step did.

* `Path step s tr s'`: the steps labelled `tr`, in this order, lead from `s` to `s'`;
* `Path.invariant`: what every step preserves holds at the end of every path;
* `Guarded step G`: the steps of `step` taken in a state that satisfies the guard `G`;
* `Simulates`: a concrete system whose observed steps are steps of an abstract one, and
  **`Simulates.path`**: its paths are then paths of the abstract system;
* `SimulatesUntil`, **`SimulatesUntil.path`**: the same up to a bad step.
-/

namespace Lts

variable {σ τ α β : Type*}

/-- The steps labelled `tr` lead from the first state to the second. -/
inductive Path (step : σ → α → σ → Prop) : σ → List α → σ → Prop
  | nil (s : σ) : Path step s [] s
  | snoc {s s₁ s₂ : σ} {tr : List α} {a : α} (h : Path step s tr s₁) (hs : step s₁ a s₂) :
      Path step s (tr ++ [a]) s₂

/-- A step taken while the guard holds. -/
def Guarded (step : σ → α → σ → Prop) (G : σ → α → Prop) (s : σ) (a : α) (s' : σ) : Prop :=
  step s a s' ∧ G s a

section Path

variable {step : σ → α → σ → Prop}

theorem Path.single {s s' : σ} {a : α} (h : step s a s') : Path step s [a] s' :=
  Path.snoc (Path.nil s) h

theorem Path.append {s s₁ s₂ : σ} {tr₁ tr₂ : List α} (h₁ : Path step s tr₁ s₁)
    (h₂ : Path step s₁ tr₂ s₂) : Path step s (tr₁ ++ tr₂) s₂ := by
  induction h₂ with
  | nil => rwa [List.append_nil]
  | snoc _ hs ih =>
    rw [← List.append_assoc]
    exact Path.snoc ih hs

/-- **The invariant rule**, for an invariant on the labels taken so far and the state. -/
theorem Path.invariant (P : List α → σ → Prop) {s s' : σ} {tr : List α} (h₀ : P [] s)
    (hstep : ∀ tr s a s', P tr s → step s a s' → P (tr ++ [a]) s') (h : Path step s tr s') :
    P tr s' := by
  induction h with
  | nil => exact h₀
  | snoc _ hs ih => exact hstep _ _ _ _ ih hs

/-- The invariant rule for an invariant on the state alone. -/
theorem Path.invariant_state (P : σ → Prop) {s s' : σ} {tr : List α} (h₀ : P s)
    (hstep : ∀ s a s', P s → step s a s' → P s') (h : Path step s tr s') : P s' :=
  Path.invariant (fun _ => P) h₀ (fun _ s a s' hP hs => hstep s a s' hP hs) h

/-- A path of one system is a path of every system with more steps. -/
theorem Path.mono {step' : σ → α → σ → Prop} (hle : ∀ s a s', step s a s' → step' s a s')
    {s s' : σ} {tr : List α} (h : Path step s tr s') : Path step' s tr s' := by
  induction h with
  | nil => exact Path.nil _
  | snoc _ hs ih => exact Path.snoc ih (hle _ _ _ hs)

/-- A path along which an invariant holds that implies the guard. -/
theorem Path.guarded_of {G : σ → α → Prop} (P : σ → Prop) {s s' : σ} {tr : List α} (h₀ : P s)
    (hstep : ∀ s, ∀ a ∈ tr, ∀ s', P s → step s a s' → P s') (hG : ∀ s, ∀ a ∈ tr, P s → G s a)
    (h : Path step s tr s') : P s' ∧ Path (Guarded step G) s tr s' := by
  induction h with
  | nil => exact ⟨h₀, Path.nil _⟩
  | @snoc _ _ tr a _ hs ih =>
    have ha : a ∈ tr ++ [a] := List.mem_append_right _ (List.mem_singleton_self a)
    obtain ⟨hP, hpath⟩ := ih (fun s b hb => hstep s b (List.mem_append_left _ hb))
      fun s b hb => hG s b (List.mem_append_left _ hb)
    exact ⟨hstep _ a ha _ hP hs, Path.snoc hpath ⟨hs, hG _ a ha hP⟩⟩

/-- A path on which the guard never fails. -/
theorem Path.guarded {G : σ → α → Prop} {s s' : σ} {tr : List α} (h : Path step s tr s')
    (hG : ∀ s, ∀ a ∈ tr, G s a) : Path (Guarded step G) s tr s' :=
  (Path.guarded_of (fun _ => True) trivial (fun _ _ _ _ _ _ => trivial)
    (fun s a ha _ => hG s a ha) h).2

end Path

/-- The concrete steps keep `R`: a step observed as `b` is matched by the abstract step `b`, an
unobserved step by none. -/
def Simulates (step : σ → α → σ → Prop) (astep : τ → β → τ → Prop) (obs : α → Option β)
    (R : σ → τ → Prop) : Prop :=
  ∀ s a s' t, R s t → step s a s' →
    (obs a = none ∧ R s' t) ∨ ∃ b t', obs a = some b ∧ astep t b t' ∧ R s' t'

/-- **Simulation.** What is observed of a concrete path is a path of the abstract system. -/
theorem Simulates.path {step : σ → α → σ → Prop} {astep : τ → β → τ → Prop} {obs : α → Option β}
    {R : σ → τ → Prop} (hsim : Simulates step astep obs R) {s s' : σ} {t : τ} {tr : List α}
    (h₀ : R s t) (h : Path step s tr s') :
    ∃ t', Path astep t (tr.filterMap obs) t' ∧ R s' t' := by
  induction h with
  | nil => exact ⟨t, Path.nil t, h₀⟩
  | snoc _ hs ih =>
    obtain ⟨t₁, hpath, hR⟩ := ih
    rw [List.filterMap_append]
    rcases hsim _ _ _ _ hR hs with ⟨ho, hR'⟩ | ⟨b, t', ho, hb, hR'⟩
    · refine ⟨t₁, ?_, hR'⟩
      simpa [List.filterMap_cons, ho] using hpath
    · refine ⟨t', ?_, hR'⟩
      simpa [List.filterMap_cons, ho] using Path.snoc hpath hb

/-- The concrete steps keep `R`, but for bad ones. An observed step is matched by an abstract step that
shows what is observed, an unobserved step by none. -/
def SimulatesUntil {γ : Type*} (step : σ → α → σ → Prop) (astep : τ → β → τ → Prop)
    (obs : α → Option γ) (view : β → γ) (bad : τ → α → Prop) (R : σ → τ → Prop) : Prop :=
  ∀ s a s' t, R s t → step s a s' →
    bad t a ∨ (obs a = none ∧ R s' t) ∨ ∃ b t', obs a = some (view b) ∧ astep t b t' ∧ R s' t'

/-- **Simulation up to a bad step.** What is observed of a concrete path is a path of the abstract
system, or it is one up to a bad step. -/
theorem SimulatesUntil.path {γ : Type*} {step : σ → α → σ → Prop} {astep : τ → β → τ → Prop}
    {obs : α → Option γ} {view : β → γ} {bad : τ → α → Prop} {R : σ → τ → Prop}
    (hsim : SimulatesUntil step astep obs view bad R) {s s' : σ} {t : τ} {tr : List α}
    (h₀ : R s t) (h : Path step s tr s') :
    (∃ tr₁ a btr t', tr₁ ++ [a] <+: tr ∧ Path astep t btr t' ∧
        btr.map view = tr₁.filterMap obs ∧ bad t' a) ∨
      ∃ btr t', Path astep t btr t' ∧ btr.map view = tr.filterMap obs ∧ R s' t' := by
  induction h with
  | nil => exact .inr ⟨[], t, Path.nil t, rfl, h₀⟩
  | @snoc _ _ tr a _ hs ih =>
    rcases ih with ⟨tr₁, b, btr, t₁, hpre, hbad⟩ | ⟨btr, t₁, hpath, hview, hR⟩
    · exact .inl ⟨tr₁, b, btr, t₁, hpre.trans (List.prefix_append tr [a]), hbad⟩
    · rcases hsim _ _ _ _ hR hs with hb | ⟨ho, hR'⟩ | ⟨b, t', ho, hb, hR'⟩
      · exact .inl ⟨tr, a, btr, t₁, List.prefix_rfl, hpath, hview, hb⟩
      · refine .inr ⟨btr, t₁, hpath, ?_, hR'⟩
        rw [hview, List.filterMap_append]
        simp [ho]
      · refine .inr ⟨btr ++ [b], t', hpath.snoc hb, ?_, hR'⟩
        rw [List.map_append, hview, List.filterMap_append]
        simp [ho]

end Lts

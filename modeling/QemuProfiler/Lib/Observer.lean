/-
  QemuProfiler.Lib.Observer
  ─────────────────────────
  A MACHINE WITH AN OBSERVER: next to its own events the machine gets events
  that only an observer sees, and the observer keeps its data in a component
  of the state that the machine itself never touches.

    • `observed_run` — forgetting what was observed gives a run of the machine
      alone, with the same outputs and the same state but for the component,
    • `observing_run` — so the observer's data depends on the observed events
      only, through any fold that one of them is a step of.
-/
import QemuProfiler.Lib.Runs

namespace QemuProfiler.Lib

variable {σ ε ο η ν δ : Type}

/-- The machine's own part of a mixed list. -/
def ownOf (l : List (ε ⊕ η)) : List ε := l.filterMap Sum.getLeft?

/-- The observed part. -/
def seenOf (l : List (ε ⊕ η)) : List η := l.filterMap Sum.getRight?

@[simp] theorem ownOf_append (l l' : List (ε ⊕ η)) : ownOf (l ++ l') = ownOf l ++ ownOf l' :=
  List.filterMap_append

@[simp] theorem seenOf_append (l l' : List (ε ⊕ η)) : seenOf (l ++ l') = seenOf l ++ seenOf l' :=
  List.filterMap_append

@[simp] theorem ownOf_map_inl (l : List ε) : ownOf (l.map (Sum.inl : ε → ε ⊕ η)) = l := by
  induction l with
  | nil => rfl
  | cons e l ih => exact congrArg (e :: ·) ih

@[simp] theorem seenOf_map_inl (l : List ε) : seenOf (l.map (Sum.inl : ε → ε ⊕ η)) = [] := by
  induction l with
  | nil => rfl
  | cons e l ih => exact ih

@[simp] theorem ownOf_map_inr (l : List η) : ownOf (l.map (Sum.inr : η → ε ⊕ η)) = [] := by
  induction l with
  | nil => rfl
  | cons x l ih => exact ih

@[simp] theorem seenOf_map_inr (l : List η) : seenOf (l.map (Sum.inr : η → ε ⊕ η)) = l := by
  induction l with
  | nil => rfl
  | cons x l ih => exact congrArg (x :: ·) ih

/-- **AN OBSERVER** of `step` in the component set by `put`: the machine's own
steps commute with setting it, and an observed event sets it and notes what
was seen. -/
structure Observer (step : σ → ε → Option (σ × List ο)) (put : δ → σ → σ)
    (ext : σ → ε ⊕ η → Option (σ × List (ο ⊕ ν))) : Prop where
  put_put : ∀ d d' s, put d (put d' s) = put d s
  own : ∀ s e, ext s (.inl e) = (step s e).map fun r => (r.1, r.2.map Sum.inl)
  commutes : ∀ d s e, step (put d s) e = (step s e).map fun r => (put d r.1, r.2)
  seen : ∀ s x s' out, ext s (.inr x) = some (s', out) →
    ∃ (d : δ) (notes : List ν), s' = put d s ∧ out = notes.map Sum.inr

section Runs

variable {step : σ → ε → Option (σ × List ο)} {put : δ → σ → σ}
  {ext : σ → ε ⊕ η → Option (σ × List (ο ⊕ ν))}

/-- **FORGETTING WHAT WAS OBSERVED.** -/
theorem observed_run (h : Observer step put ext) :
    ∀ (es : List (ε ⊕ η)) (s₁ : σ) (d : δ) (s : σ) (out : List (ο ⊕ ν)),
      runSteps ext (put d s₁) es = some (s, out) →
      ∃ s₂ d', runSteps step s₁ (ownOf es) = some (s₂, ownOf out) ∧ s = put d' s₂ := by
  intro es
  induction es with
  | nil =>
      intro s₁ d s out hrun
      simp only [runSteps, Option.some.injEq, Prod.mk.injEq] at hrun
      obtain ⟨rfl, rfl⟩ := hrun
      exact ⟨s₁, d, rfl, rfl⟩
  | cons e es ih =>
      intro s₁ d s out hrun
      obtain ⟨t, out₁, out₂, hstep, hrest, rfl⟩ := runSteps_cons_eq_some hrun
      cases e with
      | inl e =>
          -- the machine's own step, with the component put aside
          rw [h.own, h.commutes, Option.map_map, Option.map_eq_some_iff] at hstep
          obtain ⟨⟨t', acts⟩, hown, heq⟩ := hstep
          simp only [Function.comp_apply, Prod.mk.injEq] at heq
          obtain ⟨rfl, rfl⟩ := heq
          obtain ⟨s₂, d', hrun', rfl⟩ := ih t' d s out₂ hrest
          refine ⟨s₂, d', ?_, rfl⟩
          rw [ownOf_append, ownOf_map_inl]
          exact runSteps_append step [e] (ownOf es) (runSteps_singleton hown) hrun'
      | inr x =>
          obtain ⟨d₁, notes, rfl, rfl⟩ := h.seen _ x t out₁ hstep
          rw [h.put_put] at hrest
          obtain ⟨s₂, d', hrun', rfl⟩ := ih s₁ d₁ s out₂ hrest
          refine ⟨s₂, d', ?_, rfl⟩
          rw [ownOf_append, ownOf_map_inr, List.nil_append]
          exact hrun'

/-- A run in which nothing was observed. -/
theorem unobserved_run (h : Observer step put ext) :
    ∀ (es : List ε) (s₁ : σ) (s : σ) (out : List ο), runSteps step s₁ es = some (s, out) →
      runSteps ext s₁ (es.map Sum.inl) = some (s, out.map Sum.inl) := by
  intro es
  induction es with
  | nil =>
      intro s₁ s out hrun
      simp only [runSteps, Option.some.injEq, Prod.mk.injEq] at hrun
      obtain ⟨rfl, rfl⟩ := hrun
      rfl
  | cons e es ih =>
      intro s₁ s out hrun
      obtain ⟨t, out₁, out₂, hstep, hrest, rfl⟩ := runSteps_cons_eq_some hrun
      have hext : ext s₁ (.inl e) = some (t, out₁.map Sum.inl) := by
        rw [h.own, hstep]
        rfl
      rw [List.map_append]
      exact runSteps_append ext [.inl e] (es.map Sum.inl) (runSteps_singleton hext)
        (ih t s out₂ hrest)

/-- **WHAT THE OBSERVER KEEPS** is a fold over its notes, if every observed
event is one step of it and the machine's own steps leave it alone. -/
theorem observing_run {κ : Type} (view : σ → κ) (see : κ → ν → κ)
    (hown : ∀ s e s' out, ext s (.inl e) = some (s', out) →
      view s' = view s ∧ seenOf out = [])
    (hseen : ∀ s x s' out, ext s (.inr x) = some (s', out) →
      view s' = (seenOf out).foldl see (view s)) :
    ∀ (es : List (ε ⊕ η)) (s s' : σ) (out : List (ο ⊕ ν)),
      runSteps ext s es = some (s', out) → view s' = (seenOf out).foldl see (view s) := by
  intro es
  induction es with
  | nil =>
      intro s s' out hrun
      simp only [runSteps, Option.some.injEq, Prod.mk.injEq] at hrun
      obtain ⟨rfl, rfl⟩ := hrun
      rfl
  | cons e es ih =>
      intro s s' out hrun
      obtain ⟨t, out₁, out₂, hstep, hrest, rfl⟩ := runSteps_cons_eq_some hrun
      rw [seenOf_append, List.foldl_append, ih t s' out₂ hrest]
      congr 1
      cases e with
      | inl e =>
          obtain ⟨hview, hnone⟩ := hown s e t out₁ hstep
          rw [hview, hnone]
          rfl
      | inr x => exact hseen s x t out₁ hstep

end Runs

end QemuProfiler.Lib

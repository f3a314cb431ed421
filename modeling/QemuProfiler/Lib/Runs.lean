/-
  QemuProfiler.Lib.Runs
  ─────────────────────
  Finite runs of a machine that reads events and emits outputs, and the
  INVARIANT RULE: what holds at the start and survives every step together
  with the outputs so far holds after every run.
-/
import Mathlib.Data.List.Basic

namespace QemuProfiler.Lib

variable {σ ε ο : Type}

/-- Run a list of events; `none` when a step is not possible. -/
def runSteps (step : σ → ε → Option (σ × List ο)) : σ → List ε → Option (σ × List ο)
  | s, [] => some (s, [])
  | s, e :: es =>
      match step s e with
      | none => none
      | some (s', out) =>
          match runSteps step s' es with
          | none => none
          | some (s'', out') => some (s'', out ++ out')

/-- A run that starts with `e` is one step and a run from where it leads. -/
theorem runSteps_cons_eq_some {step : σ → ε → Option (σ × List ο)} {s s' : σ} {e : ε}
    {es : List ε} {out : List ο} (h : runSteps step s (e :: es) = some (s', out)) :
    ∃ s₁ out₁ out₂, step s e = some (s₁, out₁) ∧ runSteps step s₁ es = some (s', out₂) ∧
      out = out₁ ++ out₂ := by
  simp only [runSteps] at h
  cases hs : step s e with
  | none =>
      rw [hs] at h
      exact absurd h (by simp)
  | some so =>
      obtain ⟨s₁, out₁⟩ := so
      rw [hs] at h
      simp only at h
      cases hr : runSteps step s₁ es with
      | none =>
          rw [hr] at h
          exact absurd h (by simp)
      | some so' =>
          obtain ⟨s₂, out₂⟩ := so'
          rw [hr] at h
          simp only [Option.some.injEq, Prod.mk.injEq] at h
          obtain ⟨rfl, rfl⟩ := h
          exact ⟨s₁, out₁, out₂, rfl, hr, rfl⟩

/-- **THE INVARIANT RULE** over states and the outputs emitted so far. -/
theorem runSteps_invariant (step : σ → ε → Option (σ × List ο)) (P : σ → List ο → Prop)
    (hstep : ∀ s out e s' out', P s out → step s e = some (s', out') → P s' (out ++ out')) :
    ∀ (es : List ε) (s : σ) (out : List ο) (s' : σ) (out' : List ο), P s out →
      runSteps step s es = some (s', out') → P s' (out ++ out') := by
  intro es
  -- the outputs before the run are general: the tail of a run starts after some
  induction es with
  | nil =>
      intro s out s' out' hp h
      simp only [runSteps, Option.some.injEq, Prod.mk.injEq] at h
      obtain ⟨rfl, rfl⟩ := h
      rw [List.append_nil]
      exact hp
  | cons e es ih =>
      intro s out s' out' hp h
      obtain ⟨s₁, out₁, out₂, hs, hr, rfl⟩ := runSteps_cons_eq_some h
      rw [← List.append_assoc]
      exact ih s₁ (out ++ out₁) s' out₂ (hstep s out e s₁ out₁ hp hs) hr

/-- One run after another. -/
theorem runSteps_append (step : σ → ε → Option (σ × List ο)) :
    ∀ (es es' : List ε) {s₀ s s' : σ} {out out' : List ο}, runSteps step s₀ es = some (s, out) →
      runSteps step s es' = some (s', out') →
      runSteps step s₀ (es ++ es') = some (s', out ++ out') := by
  intro es es'
  induction es with
  | nil =>
      intro s₀ s s' out out' h h'
      simp only [runSteps, Option.some.injEq, Prod.mk.injEq] at h
      obtain ⟨rfl, rfl⟩ := h
      exact h'
  | cons e es ih =>
      intro s₀ s s' out out' h h'
      obtain ⟨s₁, out₁, out₂, hs, hr, rfl⟩ := runSteps_cons_eq_some h
      have hrest := ih hr h'
      simp only [List.cons_append, runSteps, hs, hrest, List.append_assoc]

theorem runSteps_singleton {step : σ → ε → Option (σ × List ο)} {s s' : σ} {e : ε} {out : List ο}
    (h : step s e = some (s', out)) : runSteps step s [e] = some (s', out) := by
  simp [runSteps, h]

/-- One more event. -/
theorem runSteps_concat (step : σ → ε → Option (σ × List ο)) (e : ε) {s' : σ} {out' : List ο}
    (es : List ε) (s₀ s : σ) (out : List ο) (h : runSteps step s₀ es = some (s, out))
    (he : step s e = some (s', out')) :
    runSteps step s₀ (es ++ [e]) = some (s', out ++ out') :=
  runSteps_append step es [e] h (runSteps_singleton he)

/-- The rule from a start state that has emitted nothing; the step may use
that the state before it was reached. -/
theorem runSteps_induction (step : σ → ε → Option (σ × List ο)) (P : σ → List ο → Prop)
    (s₀ : σ) (h₀ : P s₀ [])
    (hstep : ∀ s out e s' out', (∃ es, runSteps step s₀ es = some (s, out)) → P s out →
      step s e = some (s', out') → P s' (out ++ out'))
    {es : List ε} {s : σ} {out : List ο} (h : runSteps step s₀ es = some (s, out)) :
    P s out := by
  -- carry the run that led here along with the invariant
  have hrun := runSteps_invariant step
    (fun s out => (∃ es, runSteps step s₀ es = some (s, out)) ∧ P s out) ?_ es s₀ [] s out
    ⟨⟨[], rfl⟩, h₀⟩ h
  · exact hrun.2
  · intro s out e s' out' hreach he
    obtain ⟨⟨es, hreach⟩, hp⟩ := hreach
    exact ⟨⟨es ++ [e], runSteps_concat step e es s₀ s out hreach he⟩,
      hstep s out e s' out' ⟨es, hreach⟩ hp he⟩

/-- Where a run ends and what it emits; its start, when it is not possible. -/
def outcomeOf (step : σ → ε → Option (σ × List ο)) (s : σ) (es : List ε) : σ × List ο :=
  (runSteps step s es).getD (s, [])

theorem runSteps_outcomeOf (step : σ → ε → Option (σ × List ο)) (s : σ) (es : List ε)
    (h : (runSteps step s es).isSome = true) :
    runSteps step s es = some ((outcomeOf step s es).1, (outcomeOf step s es).2) := by
  obtain ⟨r, hr⟩ := Option.isSome_iff_exists.mp h
  unfold outcomeOf
  rw [hr]
  rfl

end QemuProfiler.Lib

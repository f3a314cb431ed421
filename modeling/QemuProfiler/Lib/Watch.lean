/-
  QemuProfiler.Lib.Watch
  ──────────────────────
  OBSERVED RUNS: an observer takes notes at every step of a machine, of the
  state before it and the event.  It changes nothing about the run, so a
  property of states and outputs may speak about its notes as well
  (`watch_induction`).

  What a party notes at an entry of the trace may depend on the entries before
  it; when only the party's previous entry matters, its notes are those of its
  consecutive pairs (`relayed_pairs`).
-/
import QemuProfiler.Lib.Runs
import QemuProfiler.Lib.Trace

namespace QemuProfiler.Lib

variable {σ ε ο α β : Type}

/-! ## §1. Notes along a run. -/

/-- The notes of a run, as far as it is possible. -/
def watch (step : σ → ε → Option (σ × List ο)) (note : σ → ε → List α) : σ → List ε → List α
  | _, [] => []
  | s, e :: es =>
      match step s e with
      | none => []
      | some (s', _) => note s e ++ watch step note s' es

theorem watch_cons {step : σ → ε → Option (σ × List ο)} {note : σ → ε → List α} {s s' : σ} {e : ε}
    {out : List ο} (h : step s e = some (s', out)) (es : List ε) :
    watch step note s (e :: es) = note s e ++ watch step note s' es := by
  rw [watch, h]

theorem watch_append (step : σ → ε → Option (σ × List ο)) (note : σ → ε → List α) (es es' : List ε) :
    ∀ {s s' : σ} {out : List ο}, runSteps step s es = some (s', out) →
      watch step note s (es ++ es') = watch step note s es ++ watch step note s' es' := by
  induction es with
  | nil =>
      intro s s' out h
      simp only [runSteps, Option.some.injEq, Prod.mk.injEq] at h
      rw [h.1]
      rfl
  | cons e es ih =>
      intro s s' out h
      obtain ⟨s₁, out₁, out₂, hs, hr, _⟩ := runSteps_cons_eq_some h
      rw [List.cons_append, watch_cons hs, watch_cons hs, ih hr, List.append_assoc]

/-- **THE INVARIANT RULE WITH NOTES**: what holds at the start and survives
every step, together with the outputs and the notes so far, holds after every
run.  The step may use that the state before it was reached. -/
theorem watch_induction (step : σ → ε → Option (σ × List ο)) (note : σ → ε → List α)
    (P : σ → List ο → List α → Prop) (s₀ : σ) (h₀ : P s₀ [] [])
    (hstep : ∀ s out notes e s' out', (∃ es, runSteps step s₀ es = some (s, out)) →
      P s out notes → step s e = some (s', out') → P s' (out ++ out') (notes ++ note s e))
    {es : List ε} {s : σ} {out : List ο} (h : runSteps step s₀ es = some (s, out)) :
    P s out (watch step note s₀ es) := by
  -- outputs and notes before the run are general: the tail of a run starts after some
  suffices hgen : ∀ (es : List ε) (s : σ) (out : List ο) (notes : List α) (s' : σ) (out' : List ο),
      (∃ es₀, runSteps step s₀ es₀ = some (s, out)) → P s out notes →
      runSteps step s es = some (s', out') →
      P s' (out ++ out') (notes ++ watch step note s es) from
    hgen es s₀ [] [] s out ⟨[], rfl⟩ h₀ h
  intro es
  induction es with
  | nil =>
      intro s out notes s' out' _ hp h
      simp only [runSteps, Option.some.injEq, Prod.mk.injEq] at h
      obtain ⟨rfl, rfl⟩ := h
      rw [watch, List.append_nil, List.append_nil]
      exact hp
  | cons e es ih =>
      intro s out notes s' out' hreach hp h
      obtain ⟨s₁, out₁, out₂, hs, hr, rfl⟩ := runSteps_cons_eq_some h
      obtain ⟨es₀, hes₀⟩ := hreach
      rw [watch_cons hs, ← List.append_assoc, ← List.append_assoc]
      exact ih s₁ (out ++ out₁) (notes ++ note s e) s' out₂
        ⟨es₀ ++ [e], runSteps_concat step e es₀ s₀ s out hes₀ hs⟩
        (hstep s out notes e s₁ out₁ ⟨es₀, hes₀⟩ hp hs) hr

/-! ## §2. Notes of one party. -/

/-- What a party notes at its entries, each of them next to its past. -/
def relayed (who : α → Nat) (f : List α → α → List β) (v : Nat) (l : List α) : List β :=
  ((withPast l).filter fun e => who e.2 = v).flatMap fun e => f e.1 e.2

theorem relayed_concat (who : α → Nat) (f : List α → α → List β) (v : Nat) (l : List α) (x : α) :
    relayed who f v (l ++ [x]) = relayed who f v l ++ (if who x = v then f l x else []) := by
  unfold relayed
  rw [withPast_concat, List.filter_append, List.flatMap_append]
  congr 1
  by_cases h : who x = v
  · simp [h]
  · simp [h]

/-- **When only the party's previous entry matters**, the party notes
something at its consecutive pairs. -/
theorem relayed_pairs (who : α → Nat) (f : List α → α → List β) (g : Option α → α → List β)
    (hfirst : ∀ a, g none a = []) (v : Nat) (l : List α)
    (h : Along (fun past a => f past a = g (ofParty who (who a) past).getLast? a) l) :
    relayed who f v l = (pairs (ofParty who v l)).flatMap fun ab => g (some ab.1) ab.2 := by
  induction l using List.reverseRecOn with
  | nil => rfl
  | append_singleton l x ih =>
      obtain ⟨hl, hx⟩ := (along_concat _ l x).mp h
      rw [relayed_concat, ofParty_concat, ih hl]
      by_cases hv : who x = v
      · rw [if_pos hv, if_pos hv, pairs_concat, List.flatMap_append, hx, hv]
        congr 1
        cases (ofParty who v l).getLast? with
        | none => exact hfirst x
        | some a => simp
      · rw [if_neg hv, if_neg hv, List.append_nil, List.append_nil]

/-- Counting what the pairs note, when a pair notes one `q` or none. -/
theorem countP_flatMap_pairs (g : Option α → α → List β) (q : β → Bool) (p : α → α → Bool)
    (hp : ∀ a b, (g (some a) b).countP q = if p a b then 1 else 0) (l : List (α × α)) :
    (l.flatMap fun ab => g (some ab.1) ab.2).countP q = l.countP fun ab => p ab.1 ab.2 := by
  induction l with
  | nil => rfl
  | cons ab l ih =>
      rw [List.flatMap_cons, List.countP_append, List.countP_cons, ih, hp, Nat.add_comm]

theorem countP_of_length_le_one (q : β → Bool) {l : List β} (h : l.length ≤ 1) :
    l.countP q = if l.any q then 1 else 0 := by
  cases l with
  | nil => rfl
  | cons b l =>
      have hl : l.length = 0 := by
        rw [List.length_cons] at h
        omega
      obtain rfl : l = [] := List.eq_nil_of_length_eq_zero hl
      rw [List.countP_singleton, List.any_cons, List.any_nil, Bool.or_false]

end QemuProfiler.Lib

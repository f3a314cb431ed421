/-
  QemuProfiler.Threads.Slots
  ──────────────────────────
  Concurrent vCPU initialisation: any number of `ensure_vcpu_state` calls on
  the two `PerVcpuStore`s, with each load of `len`, each `fetch_add` on it and
  each store of a slot pointer as one step.

  `len` counts CLAIMED slots, and a slot gets its pointer only afterwards.  In
  every reachable state a claimed slot has its pointer, or exactly one call is
  about to store it (`runFrom_inv`); and a pointer, once stored, stays
  (`getMut_runSteps`).
-/
import Mathlib.Logic.Function.Basic
import QemuProfiler.Lib.Runs
import QemuProfiler.Plugin.State

namespace QemuProfiler.Threads.Slots

open QemuProfiler.Lib QemuProfiler.Plugin

/-! ## §1. Stores and calls. -/

/-- The stores of `PluginState`. -/
inductive Which where
  | edgeAccumulators
  | indirectCalls
  deriving DecidableEq, Repr

/-- `PerVcpuStore`; a slot pointer is the number of the box it points to. -/
structure PerVcpuStore where
  ptrs : Nat → Option Nat
  len : Nat

def PerVcpuStore.new : PerVcpuStore := ⟨fun _ => none, 0⟩

/-- The per-vCPU slot, if there is one. -/
def PerVcpuStore.getMut (store : PerVcpuStore) (idx : Nat) : Option Nat :=
  if store.len ≤ idx then none else store.ptrs idx

/-- The next step of an `ensure_vcpu_state` call. -/
inductive Phase where
  /-- The load of `len` in the `if`. -/
  | check (w : Which)
  /-- The load of `len` in the `while`. -/
  | loop (w : Which)
  /-- `push`: `fetch_add` on `len`. -/
  | claim (w : Which)
  /-- `push`: the store of the pointer. -/
  | store (w : Which) (idx : Nat)
  | returned
  deriving DecidableEq, Repr

structure Call where
  vcpuCount : Nat
  phase : Phase
  deriving DecidableEq, Repr

/-- The stores, and all calls ever made. -/
structure Pool where
  stores : Which → PerVcpuStore
  /-- Number of boxes allocated so far. -/
  boxes : Nat
  calls : List Call
  /-- The assertion "too many vCPUs" has failed. -/
  failed : Bool

def Pool.new : Pool := ⟨fun _ => PerVcpuStore.new, 0, [], false⟩

def Pool.setStore (s : Pool) (w : Which) (store : PerVcpuStore) : Pool :=
  { s with stores := Function.update s.stores w store }

/-! ## §2. Steps. -/

/-- The stores a call provides for: indirect calls from tier 2 on. -/
def ensured (tier : UInt8) : List Which :=
  if tier ≥ 2 then [.edgeAccumulators, .indirectCalls] else [.edgeAccumulators]

/-- Where a call goes on when store `w` is long enough. -/
def afterStore (tier : UInt8) : Which → Phase
  | .edgeAccumulators => if tier ≥ 2 then .check .indirectCalls else .returned
  | .indirectCalls => .returned

/-- One step of a call. -/
def advance (tier : UInt8) (s : Pool) (vcpuCount : Nat) : Phase → Pool × Phase
  | .check w =>
      (s, if (s.stores w).len < vcpuCount then .loop w else afterStore tier w)
  | .loop w =>
      (s, if (s.stores w).len < vcpuCount then .claim w else afterStore tier w)
  | .claim w =>
      let idx := (s.stores w).len
      let s := s.setStore w { s.stores w with len := idx + 1 }
      if idx < maxVcpus then (s, .store w idx)
      else ({ s with failed := true }, .claim w) -- "too many vCPUs"
  | .store w idx =>
      let s := s.setStore w
        { s.stores w with ptrs := Function.update (s.stores w).ptrs idx (some s.boxes) }
      ({ s with boxes := s.boxes + 1 }, .loop w)
  | .returned => (s, .returned)

inductive Event where
  /-- `ensure_vcpu_state(vcpu_count)` is called. -/
  | call (vcpuCount : Nat)
  /-- Call number `c` runs its next step. -/
  | run (c : Nat)
  deriving DecidableEq, Repr

/-- One event, `none` when it is not possible; it emits the argument of a call
that returns.  A failed assertion ends the process. -/
def step (tier : UInt8) (s : Pool) : Event → Option (Pool × List Nat)
  | .call vcpuCount =>
      if s.failed = false ∧ vcpuCount ≤ maxVcpus then
        some ({ s with calls := s.calls ++ [⟨vcpuCount, .check .edgeAccumulators⟩] }, [])
      else none
  | .run c =>
      match s.calls[c]? with
      | none => none
      | some call =>
          if s.failed = false ∧ call.phase ≠ .returned then
            let r := advance tier s call.vcpuCount call.phase
            some ({ r.1 with calls := r.1.calls.set c ⟨call.vcpuCount, r.2⟩ },
              if r.2 = .returned then [call.vcpuCount] else [])
          else none

def runFrom (tier : UInt8) (s : Pool) (evs : List Event) : Option (Pool × List Nat) :=
  runSteps (step tier) s evs

/-! ## §3. What a step can do. -/

/-- **A STEP OF A CALL**: it leaves a store that is long enough, it finds one
too short (twice), it claims a slot or fails to, or it stores a pointer. -/
theorem run_cases {tier : UInt8} {s s' : Pool} {c : Nat} {out : List Nat}
    (h : step tier s (.run c) = some (s', out)) :
    ∃ n ph, s.calls[c]? = some ⟨n, ph⟩ ∧ s.failed = false ∧
      ((∃ w, (ph = .check w ∨ ph = .loop w) ∧ n ≤ (s.stores w).len
          ∧ s' = { s with calls := s.calls.set c ⟨n, afterStore tier w⟩ }
          ∧ out = if afterStore tier w = .returned then [n] else [])
        ∨ (∃ w, ph = .check w ∧ (s.stores w).len < n
          ∧ s' = { s with calls := s.calls.set c ⟨n, .loop w⟩ } ∧ out = [])
        ∨ (∃ w, ph = .loop w ∧ (s.stores w).len < n
          ∧ s' = { s with calls := s.calls.set c ⟨n, .claim w⟩ } ∧ out = [])
        ∨ (∃ w, ph = .claim w ∧ (s.stores w).len < maxVcpus
          ∧ s' = { s.setStore w { s.stores w with len := (s.stores w).len + 1 } with
              calls := s.calls.set c ⟨n, .store w (s.stores w).len⟩ } ∧ out = [])
        ∨ (∃ w, ph = .claim w ∧ maxVcpus ≤ (s.stores w).len
          ∧ s' = { s.setStore w { s.stores w with len := (s.stores w).len + 1 } with
              calls := s.calls.set c ⟨n, .claim w⟩, failed := true } ∧ out = [])
        ∨ (∃ w idx, ph = .store w idx
          ∧ s' = { s.setStore w { s.stores w with
                ptrs := Function.update (s.stores w).ptrs idx (some s.boxes) } with
              calls := s.calls.set c ⟨n, .loop w⟩, boxes := s.boxes + 1 } ∧ out = [])) := by
  simp only [step] at h
  cases hc : s.calls[c]? with
  | none =>
      rw [hc] at h
      exact absurd h (by simp)
  | some call =>
      obtain ⟨n, ph⟩ := call
      rw [hc] at h
      simp only at h
      by_cases hok : s.failed = false ∧ ph ≠ .returned
      · rw [if_pos hok, Option.some.injEq, Prod.mk.injEq] at h
        obtain ⟨hs, hout⟩ := h
        refine ⟨n, ph, rfl, hok.1, ?_⟩
        -- one case per phase, split by its test of the length
        cases ph with
        | check w =>
            by_cases hlt : (s.stores w).len < n
            · simp only [advance, if_pos hlt] at hs hout
              exact Or.inr (Or.inl ⟨w, rfl, hlt, hs.symm, hout.symm⟩)
            · simp only [advance, if_neg hlt] at hs hout
              exact Or.inl ⟨w, Or.inl rfl, by omega, hs.symm, hout.symm⟩
        | loop w =>
            by_cases hlt : (s.stores w).len < n
            · simp only [advance, if_pos hlt] at hs hout
              exact Or.inr (Or.inr (Or.inl ⟨w, rfl, hlt, hs.symm, hout.symm⟩))
            · simp only [advance, if_neg hlt] at hs hout
              exact Or.inl ⟨w, Or.inr rfl, by omega, hs.symm, hout.symm⟩
        | claim w =>
            by_cases hlt : (s.stores w).len < maxVcpus
            · simp only [advance, if_pos hlt] at hs hout
              exact Or.inr (Or.inr (Or.inr (Or.inl ⟨w, rfl, hlt, hs.symm, hout.symm⟩)))
            · simp only [advance, if_neg hlt] at hs hout
              exact Or.inr (Or.inr (Or.inr (Or.inr (Or.inl
                ⟨w, rfl, by omega, hs.symm, hout.symm⟩))))
        | store w idx =>
            simp only [advance] at hs hout
            exact Or.inr (Or.inr (Or.inr (Or.inr (Or.inr ⟨w, idx, rfl, hs.symm, hout.symm⟩))))
        | returned => exact absurd rfl hok.2
      · rw [if_neg hok] at h
        exact absurd h (by simp)

theorem call_cases {tier : UInt8} {s s' : Pool} {n : Nat} {out : List Nat}
    (h : step tier s (.call n) = some (s', out)) :
    s.failed = false ∧ n ≤ maxVcpus
      ∧ s' = { s with calls := s.calls ++ [⟨n, .check .edgeAccumulators⟩] } ∧ out = [] := by
  simp only [step] at h
  by_cases hok : s.failed = false ∧ n ≤ maxVcpus
  · rw [if_pos hok, Option.some.injEq, Prod.mk.injEq] at h
    exact ⟨hok.1, hok.2, h.1.symm, h.2.symm⟩
  · rw [if_neg hok] at h
    exact absurd h (by simp)

/-! ## §4. The invariant. -/

/-- Call number `c` has argument `n` and is at `ph`. -/
def Pool.At (s : Pool) (c n : Nat) (ph : Phase) : Prop := s.calls[c]? = some ⟨n, ph⟩

/-- The phases on the second store. -/
def Phase.onSecond : Phase → Bool
  | .check w | .loop w | .claim w | .store w _ => w = .indirectCalls
  | .returned => false

/-- Where slots are in every reachable state. -/
structure Inv (tier : UInt8) (s : Pool) (out : List Nat) : Prop where
  args : ∀ c n ph, s.At c n ph → n ≤ maxVcpus
  /-- A claimed slot has its pointer, or some call is about to store it. -/
  claimed : ∀ w i, i < (s.stores w).len → i < maxVcpus →
    (s.stores w).ptrs i ≠ none ∨ ∃ c n, s.At c n (.store w i)
  unfinished : ∀ w i c n, s.At c n (.store w i) →
    i < (s.stores w).len ∧ (s.stores w).ptrs i = none
  /-- A slot is claimed by one call. -/
  apart : ∀ w i c n c' n', s.At c n (.store w i) → s.At c' n' (.store w i) → c = c'
  stored : ∀ w i, (s.stores w).ptrs i ≠ none → i < (s.stores w).len
  /-- Calls get to the second store when the first one is long enough. -/
  second : ∀ c n ph, s.At c n ph → ph.onSecond = true → n ≤ (s.stores .edgeAccumulators).len
  returned : ∀ n ∈ out, n ≤ maxVcpus ∧ ∀ w ∈ ensured tier, n ≤ (s.stores w).len
  bounded : s.failed = false → ∀ w, (s.stores w).len ≤ maxVcpus

theorem inv_new (tier : UInt8) : Inv tier Pool.new [] where
  args := fun c n ph hc => absurd hc (by simp [Pool.At, Pool.new])
  claimed := fun w i hi => absurd hi (by simp [Pool.new, PerVcpuStore.new])
  unfinished := fun w i c n hc => absurd hc (by simp [Pool.At, Pool.new])
  apart := fun w i c n c' n' hc => absurd hc (by simp [Pool.At, Pool.new])
  stored := fun w i hi => absurd rfl hi
  second := fun c n ph hc => absurd hc (by simp [Pool.At, Pool.new])
  returned := fun n hn => absurd hn List.not_mem_nil
  bounded := fun _ w => Nat.zero_le _

section Steps

variable {tier : UInt8} {s : Pool} {out : List Nat} {c n : Nat} {ph ph' : Phase}

/-- After a step of call `c`, the others are where they were. -/
theorem at_set_cases {stores : Which → PerVcpuStore} {boxes : Nat} {failed : Bool} {c' n' : Nat}
    {ph'' : Phase}
    (h : Pool.At ⟨stores, boxes, s.calls.set c ⟨n, ph'⟩, failed⟩ c' n' ph'') :
    (c' = c ∧ n' = n ∧ ph'' = ph') ∨ (c' ≠ c ∧ s.At c' n' ph'') := by
  have h' : (s.calls.set c ⟨n, ph'⟩)[c']? = some ⟨n', ph''⟩ := h
  rw [List.getElem?_set] at h'
  by_cases hc : c = c'
  · rw [if_pos hc] at h'
    by_cases hlt : c < s.calls.length
    · rw [if_pos hlt, Option.some.injEq, Call.mk.injEq] at h'
      exact Or.inl ⟨hc.symm, h'.1.symm, h'.2.symm⟩
    · rw [if_neg hlt] at h'
      exact absurd h' (by simp)
  · rw [if_neg hc] at h'
    exact Or.inr ⟨fun heq => hc heq.symm, h'⟩

theorem at_set_self (h : s.At c n ph) (stores : Which → PerVcpuStore) (boxes : Nat)
    (failed : Bool) : Pool.At ⟨stores, boxes, s.calls.set c ⟨n, ph'⟩, failed⟩ c n ph' := by
  obtain ⟨hlt, _⟩ := List.getElem?_eq_some_iff.mp h
  show (s.calls.set c ⟨n, ph'⟩)[c]? = _
  rw [List.getElem?_set_self hlt]

theorem at_set_ne {c' n' : Nat} {ph'' : Phase} (hne : c' ≠ c) (h : s.At c' n' ph'')
    (stores : Which → PerVcpuStore) (boxes : Nat) (failed : Bool) :
    Pool.At ⟨stores, boxes, s.calls.set c ⟨n, ph'⟩, failed⟩ c' n' ph'' := by
  show (s.calls.set c ⟨n, ph'⟩)[c']? = _
  rw [List.getElem?_set_ne (Ne.symm hne)]
  exact h

/-- A phase that holds no slot. -/
def Phase.free : Phase → Bool
  | .store _ _ => false
  | _ => true

theorem Phase.free_ne {ph : Phase} (h : ph.free = true) (w : Which) (i : Nat) :
    ph ≠ .store w i := by
  intro heq
  rw [heq] at h
  exact absurd h (by simp [Phase.free])

/-- A call is in one phase. -/
theorem at_unique {n' : Nat} (h : s.At c n ph) (h' : s.At c n' ph') : n = n' ∧ ph = ph' := by
  have heq := h.symm.trans h'
  rw [Option.some.injEq, Call.mk.injEq] at heq
  exact heq

/-! What the fields say when one call moves on and stores only grow. -/

variable {stores : Which → PerVcpuStore} {boxes : Nat} {failed : Bool}

theorem Inv.args_set (h : Inv tier s out) (hc : s.At c n ph) (c' n' : Nat) (ph'' : Phase)
    (hat : Pool.At ⟨stores, boxes, s.calls.set c ⟨n, ph'⟩, failed⟩ c' n' ph'') :
    n' ≤ maxVcpus := by
  rcases at_set_cases hat with ⟨_, hn, _⟩ | ⟨_, hold⟩
  · rw [hn]
    exact h.args c n ph hc
  · exact h.args c' n' ph'' hold

theorem Inv.apart_set (h : Inv tier s out) (hfree : ph'.free = true) (w : Which)
    (i c₁ n₁ c₂ n₂ : Nat)
    (hat₁ : Pool.At ⟨stores, boxes, s.calls.set c ⟨n, ph'⟩, failed⟩ c₁ n₁ (.store w i))
    (hat₂ : Pool.At ⟨stores, boxes, s.calls.set c ⟨n, ph'⟩, failed⟩ c₂ n₂ (.store w i)) :
    c₁ = c₂ := by
  rcases at_set_cases hat₁ with ⟨_, _, hph⟩ | ⟨_, hold₁⟩
  · exact absurd hph.symm (Phase.free_ne hfree w i)
  · rcases at_set_cases hat₂ with ⟨_, _, hph⟩ | ⟨_, hold₂⟩
    · exact absurd hph.symm (Phase.free_ne hfree w i)
    · exact h.apart w i c₁ n₁ c₂ n₂ hold₁ hold₂

theorem Inv.second_set (h : Inv tier s out)
    (hsecond : ph'.onSecond = true → n ≤ (s.stores .edgeAccumulators).len)
    (hgrown : ∀ w, (s.stores w).len ≤ (stores w).len) (c' n' : Nat) (ph'' : Phase)
    (hat : Pool.At ⟨stores, boxes, s.calls.set c ⟨n, ph'⟩, failed⟩ c' n' ph'')
    (hon : ph''.onSecond = true) : n' ≤ (stores .edgeAccumulators).len := by
  refine Nat.le_trans ?_ (hgrown .edgeAccumulators)
  rcases at_set_cases hat with ⟨_, hn, hph⟩ | ⟨_, hold⟩
  · rw [hn]
    rw [hph] at hon
    exact hsecond hon
  · exact h.second c' n' ph'' hold hon

theorem Inv.returned_grown (h : Inv tier s out)
    (hgrown : ∀ w, (s.stores w).len ≤ (stores w).len) :
    ∀ n ∈ out, n ≤ maxVcpus ∧ ∀ w ∈ ensured tier, n ≤ (stores w).len := by
  intro n hn
  obtain ⟨hmax, hlen⟩ := h.returned n hn
  exact ⟨hmax, fun w hw => Nat.le_trans (hlen w hw) (hgrown w)⟩

/-- **A load**: only the phase of the call changes. -/
theorem Inv.move (h : Inv tier s out) (hc : s.At c n ph) (hfree : ph.free = true)
    (hfree' : ph'.free = true)
    (hsecond : ph'.onSecond = true → n ≤ (s.stores .edgeAccumulators).len) {out' : List Nat}
    (hout : ∀ n ∈ out', n ≤ maxVcpus ∧ ∀ w ∈ ensured tier, n ≤ (s.stores w).len) :
    Inv tier { s with calls := s.calls.set c ⟨n, ph'⟩ } (out ++ out') where
  args := h.args_set hc
  claimed := by
    intro w i hi hmax
    rcases h.claimed w i hi hmax with hptr | ⟨c', n', hat⟩
    · exact Or.inl hptr
    · refine Or.inr ⟨c', n', at_set_ne ?_ hat ..⟩
      -- `c` itself holds no slot
      intro heq
      rw [heq] at hat
      exact Phase.free_ne hfree w i (at_unique hc hat).2
  unfinished := by
    intro w i c' n' hat
    rcases at_set_cases hat with ⟨_, _, hph⟩ | ⟨_, hold⟩
    · exact absurd hph.symm (Phase.free_ne hfree' w i)
    · exact h.unfinished w i c' n' hold
  apart := h.apart_set hfree'
  stored := h.stored
  second := h.second_set hsecond fun _ => Nat.le_refl _
  returned := by
    intro n' hn'
    rcases List.mem_append.mp hn' with hin | hin
    · exact h.returned n' hin
    · exact hout n' hin
  bounded := h.bounded

variable {w : Which}

theorem len_setStore (s : Pool) (w w' : Which) :
    ((s.setStore w { s.stores w with len := (s.stores w).len + 1 }).stores w').len
      = (s.stores w').len + if w' = w then 1 else 0 := by
  unfold Pool.setStore
  by_cases hw : w' = w
  · rw [hw]
    simp
  · simp [hw]

theorem len_le_setStore (s : Pool) (w w' : Which) :
    (s.stores w').len
      ≤ ((s.setStore w { s.stores w with len := (s.stores w).len + 1 }).stores w').len := by
  rw [len_setStore]
  exact Nat.le_add_right _ _

theorem ptrs_setLen (s : Pool) (w w' : Which) (n : Nat) :
    ((s.setStore w { s.stores w with len := n }).stores w').ptrs = (s.stores w').ptrs := by
  unfold Pool.setStore
  by_cases hw : w' = w
  · rw [hw]
    simp
  · simp [hw]

theorem len_setPtrs (s : Pool) (w w' : Which) (ptrs : Nat → Option Nat) :
    ((s.setStore w { s.stores w with ptrs := ptrs }).stores w').len = (s.stores w').len := by
  unfold Pool.setStore
  by_cases hw : w' = w
  · rw [hw]
    simp
  · simp [hw]

theorem ptrs_setPtr (s : Pool) (w w' : Which) (idx i : Nat) (b : Option Nat) :
    ((s.setStore w { s.stores w with ptrs := Function.update (s.stores w).ptrs idx b }).stores
        w').ptrs i
      = if w' = w ∧ i = idx then b else (s.stores w').ptrs i := by
  unfold Pool.setStore
  by_cases hw : w' = w
  · rw [hw]
    by_cases hi : i = idx
    · simp [hi]
    · simp [hi]
  · simp [hw]

/-- **A claim**: the slot at the end of the store belongs to the call. -/
theorem Inv.claim (h : Inv tier s out) (hc : s.At c n (.claim w))
    (hlt : (s.stores w).len < maxVcpus) :
    Inv tier { s.setStore w { s.stores w with len := (s.stores w).len + 1 } with
      calls := s.calls.set c ⟨n, .store w (s.stores w).len⟩ } out where
  args := h.args_set hc
  claimed := by
    intro w' i hi hmax
    rw [len_setStore] at hi
    rw [ptrs_setLen]
    by_cases hnew : w' = w ∧ i = (s.stores w).len
    · rw [hnew.1, hnew.2]
      exact Or.inr ⟨c, n, at_set_self hc ..⟩
    · have hold : i < (s.stores w').len := by
        by_cases hw : w' = w
        · rw [if_pos hw, hw] at hi
          rw [hw]
          have hne : i ≠ (s.stores w).len := fun heq => hnew ⟨hw, heq⟩
          omega
        · rw [if_neg hw] at hi
          omega
      rcases h.claimed w' i hold hmax with hptr | ⟨c', n', hat⟩
      · exact Or.inl hptr
      · refine Or.inr ⟨c', n', at_set_ne ?_ hat ..⟩
        intro heq
        rw [heq] at hat
        exact absurd (at_unique hc hat).2 (by simp)
  unfinished := by
    intro w' i c' n' hat
    rw [len_setStore, ptrs_setLen]
    rcases at_set_cases hat with ⟨_, _, hph⟩ | ⟨_, hold⟩
    · rw [Phase.store.injEq] at hph
      rw [hph.1, hph.2, if_pos rfl]
      refine ⟨Nat.lt_succ_self _, ?_⟩
      by_contra hptr
      exact absurd (h.stored w _ hptr) (Nat.lt_irrefl _)
    · obtain ⟨hi, hptr⟩ := h.unfinished w' i c' n' hold
      exact ⟨by omega, hptr⟩
  apart := by
    intro w' i c₁ n₁ c₂ n₂ hat₁ hat₂
    rcases at_set_cases hat₁ with ⟨hc₁, _, hph₁⟩ | ⟨_, hold₁⟩
    · rcases at_set_cases hat₂ with ⟨hc₂, _, _⟩ | ⟨_, hold₂⟩
      · rw [hc₁, hc₂]
      · -- the new slot is behind all claimed ones
        rw [Phase.store.injEq] at hph₁
        have hi := (h.unfinished w' i c₂ n₂ hold₂).1
        rw [hph₁.1, hph₁.2] at hi
        exact absurd hi (Nat.lt_irrefl _)
    · rcases at_set_cases hat₂ with ⟨_, _, hph₂⟩ | ⟨_, hold₂⟩
      · rw [Phase.store.injEq] at hph₂
        have hi := (h.unfinished w' i c₁ n₁ hold₁).1
        rw [hph₂.1, hph₂.2] at hi
        exact absurd hi (Nat.lt_irrefl _)
      · exact h.apart w' i c₁ n₁ c₂ n₂ hold₁ hold₂
  stored := by
    intro w' i hptr
    rw [ptrs_setLen] at hptr
    rw [len_setStore]
    have hi := h.stored w' i hptr
    omega
  second := h.second_set (fun hon => h.second c n (.claim w) hc hon) (len_le_setStore s w)
  returned := h.returned_grown (len_le_setStore s w)
  bounded := by
    intro hf w'
    have hle := h.bounded hf w'
    rw [len_setStore]
    by_cases hw : w' = w
    · rw [if_pos hw, hw]
      omega
    · rw [if_neg hw]
      omega

/-- **A failed claim**: the counter is past the end, no slot is claimed. -/
theorem Inv.fail (h : Inv tier s out) (hc : s.At c n (.claim w))
    (hge : maxVcpus ≤ (s.stores w).len) :
    Inv tier { s.setStore w { s.stores w with len := (s.stores w).len + 1 } with
      calls := s.calls.set c ⟨n, .claim w⟩, failed := true } out := by
  have hgrown := len_le_setStore s w
  have hover : Inv tier { s.setStore w { s.stores w with len := (s.stores w).len + 1 } with
      failed := true } out := by
    refine ⟨h.args, ?_, ?_, h.apart, ?_, ?_, h.returned_grown hgrown,
      fun hf => absurd hf (by simp)⟩
    · intro w' i hi hmax
      rw [ptrs_setLen]
      rw [len_setStore] at hi
      refine h.claimed w' i ?_ hmax
      by_cases hw : w' = w
      · rw [hw]
        omega
      · rw [if_neg hw] at hi
        omega
    · intro w' i c' n' hat
      rw [ptrs_setLen]
      obtain ⟨hi, hptr⟩ := h.unfinished w' i c' n' hat
      exact ⟨Nat.lt_of_lt_of_le hi (hgrown w'), hptr⟩
    · intro w' i hptr
      rw [ptrs_setLen] at hptr
      exact Nat.lt_of_lt_of_le (h.stored w' i hptr) (hgrown w')
    · intro c' n' ph'' hat hon
      exact Nat.le_trans (h.second c' n' ph'' hat hon) (hgrown _)
  -- and the call stays where it is
  rw [← List.append_nil out]
  exact hover.move hc rfl rfl (hover.second c n _ hc) fun n hn => absurd hn List.not_mem_nil

/-- **The pointer is stored**: the slot is finished. -/
theorem Inv.storePtr (h : Inv tier s out) {idx : Nat} (hc : s.At c n (.store w idx)) :
    Inv tier { s.setStore w { s.stores w with
        ptrs := Function.update (s.stores w).ptrs idx (some s.boxes) } with
      calls := s.calls.set c ⟨n, .loop w⟩, boxes := s.boxes + 1 } out where
  args := h.args_set hc
  claimed := by
    intro w' i hi hmax
    rw [len_setPtrs] at hi
    rw [ptrs_setPtr]
    -- the slot itself is finished; another one keeps its owner, who is another call
    by_cases hslot : w' = w ∧ i = idx
    · rw [if_pos hslot]
      exact Or.inl (by simp)
    · rw [if_neg hslot]
      rcases h.claimed w' i hi hmax with hptr | ⟨c', n', hat⟩
      · exact Or.inl hptr
      · refine Or.inr ⟨c', n', at_set_ne ?_ hat ..⟩
        intro heq
        rw [heq] at hat
        have hph := (at_unique hat hc).2
        rw [Phase.store.injEq] at hph
        exact hslot hph
  unfinished := by
    intro w' i c' n' hat
    rw [len_setPtrs, ptrs_setPtr]
    rcases at_set_cases hat with ⟨_, _, hph⟩ | ⟨hne, hold⟩
    · exact absurd hph (by simp)
    · rw [if_neg]
      · exact h.unfinished w' i c' n' hold
      -- two calls never hold one slot
      · intro hslot
        rw [hslot.1, hslot.2] at hold
        exact hne (h.apart w idx c' n' c n hold hc)
  apart := h.apart_set rfl
  stored := by
    intro w' i hptr
    rw [len_setPtrs]
    rw [ptrs_setPtr] at hptr
    by_cases hslot : w' = w ∧ i = idx
    · rw [hslot.1, hslot.2]
      exact (h.unfinished w idx c n hc).1
    · rw [if_neg hslot] at hptr
      exact h.stored w' i hptr
  second := h.second_set (fun hon => h.second c n (.store w idx) hc hon)
    fun w' => Nat.le_of_eq (len_setPtrs s w w' _).symm
  returned := h.returned_grown fun w' => Nat.le_of_eq (len_setPtrs s w w' _).symm
  bounded := by
    intro hf w'
    rw [len_setPtrs]
    exact h.bounded hf w'

theorem Inv.call (h : Inv tier s out) (hmax : n ≤ maxVcpus) :
    Inv tier { s with calls := s.calls ++ [⟨n, .check .edgeAccumulators⟩] } out := by
  -- the new call is at its first check, where it holds no slot
  have hcases : ∀ c' n' ph'', Pool.At { s with
      calls := s.calls ++ [⟨n, .check .edgeAccumulators⟩] } c' n' ph'' →
      (n' = n ∧ ph'' = .check .edgeAccumulators) ∨ s.At c' n' ph'' := by
    intro c' n' ph'' hat
    have hat' : (s.calls ++ [⟨n, .check .edgeAccumulators⟩])[c']? = some ⟨n', ph''⟩ := hat
    by_cases hlt : c' < s.calls.length
    · rw [List.getElem?_append_left hlt] at hat'
      exact Or.inr hat'
    · rw [List.getElem?_append_right (by omega)] at hat'
      have hmem := List.mem_of_getElem? hat'
      rw [List.mem_singleton, Call.mk.injEq] at hmem
      exact Or.inl hmem
  have hold : ∀ c' n' ph'', s.At c' n' ph'' → Pool.At { s with
      calls := s.calls ++ [⟨n, .check .edgeAccumulators⟩] } c' n' ph'' := by
    intro c' n' ph'' hat
    obtain ⟨hlt, _⟩ := List.getElem?_eq_some_iff.mp hat
    show (s.calls ++ _)[c']? = _
    rw [List.getElem?_append_left hlt]
    exact hat
  refine ⟨?_, ?_, ?_, ?_, h.stored, ?_, h.returned, h.bounded⟩
  · intro c' n' ph'' hat
    rcases hcases c' n' ph'' hat with ⟨hn, _⟩ | hat'
    · rw [hn]
      exact hmax
    · exact h.args c' n' ph'' hat'
  · intro w' i hi hm
    rcases h.claimed w' i hi hm with hptr | ⟨c', n', hat⟩
    · exact Or.inl hptr
    · exact Or.inr ⟨c', n', hold c' n' _ hat⟩
  · intro w' i c' n' hat
    rcases hcases c' n' _ hat with ⟨_, hph⟩ | hat'
    · exact absurd hph (by simp)
    · exact h.unfinished w' i c' n' hat'
  · intro w' i c₁ n₁ c₂ n₂ hat₁ hat₂
    rcases hcases c₁ n₁ _ hat₁ with ⟨_, hph⟩ | hat₁'
    · exact absurd hph (by simp)
    · rcases hcases c₂ n₂ _ hat₂ with ⟨_, hph⟩ | hat₂'
      · exact absurd hph (by simp)
      · exact h.apart w' i c₁ n₁ c₂ n₂ hat₁' hat₂'
  · intro c' n' ph'' hat hon
    rcases hcases c' n' ph'' hat with ⟨_, hph⟩ | hat'
    · rw [hph] at hon
      exact absurd hon (by simp [Phase.onSecond])
    · exact h.second c' n' ph'' hat' hon

/-- A call that finds the last store long enough returns; it has found the
first one long enough before. -/
theorem Inv.leave (h : Inv tier s out) (hc : s.At c n ph) (hph : ph = .check w ∨ ph = .loop w)
    (hle : n ≤ (s.stores w).len) :
    Inv tier { s with calls := s.calls.set c ⟨n, afterStore tier w⟩ }
      (out ++ if afterStore tier w = .returned then [n] else []) := by
  have hfree : ph.free = true := by
    rcases hph with rfl | rfl <;> rfl
  have hsecond : w = .indirectCalls → n ≤ (s.stores .edgeAccumulators).len := by
    intro hw
    refine h.second c n ph hc ?_
    rcases hph with rfl | rfl <;> simp [Phase.onSecond, hw]
  -- who returns has passed every store that its tier asks for
  have hall : ∀ w' ∈ ensured tier, afterStore tier w = .returned → n ≤ (s.stores w').len := by
    intro w' hw' hret
    cases w with
    | edgeAccumulators =>
        unfold afterStore at hret
        by_cases htier : tier ≥ 2
        · exact absurd hret (by simp [htier])
        · unfold ensured at hw'
          rw [if_neg htier, List.mem_singleton] at hw'
          rw [hw']
          exact hle
    | indirectCalls =>
        cases w' with
        | edgeAccumulators => exact hsecond rfl
        | indirectCalls => exact hle
  refine h.move hc hfree ?_ ?_ ?_
  · unfold afterStore
    cases w with
    | edgeAccumulators =>
        dsimp only
        split <;> rfl
    | indirectCalls => rfl
  · intro hon
    cases w with
    | edgeAccumulators => exact hle
    | indirectCalls => exact hsecond rfl
  · intro n' hn'
    by_cases hret : afterStore tier w = .returned
    · rw [if_pos hret, List.mem_singleton] at hn'
      rw [hn']
      exact ⟨h.args c n ph hc, fun w' hw' => hall w' hw' hret⟩
    · rw [if_neg hret] at hn'
      exact absurd hn' List.not_mem_nil

theorem Inv.step {e : Event} {s' : Pool} {out' : List Nat} (h : Inv tier s out)
    (hstep : Slots.step tier s e = some (s', out')) : Inv tier s' (out ++ out') := by
  cases e with
  | call n =>
      obtain ⟨_, hmax, rfl, rfl⟩ := call_cases hstep
      rw [List.append_nil]
      exact h.call hmax
  | run c =>
      obtain ⟨n, ph, hc, _, hcase⟩ := run_cases hstep
      have hnone : ∀ n ∈ ([] : List Nat),
          n ≤ maxVcpus ∧ ∀ w ∈ ensured tier, n ≤ (s.stores w).len :=
        fun n hn => absurd hn List.not_mem_nil
      rcases hcase with ⟨w, hph, hle, rfl, rfl⟩ | ⟨w, rfl, _, rfl, rfl⟩ | ⟨w, rfl, _, rfl, rfl⟩
        | ⟨w, rfl, hlt, rfl, rfl⟩ | ⟨w, rfl, hge, rfl, rfl⟩ | ⟨w, idx, rfl, rfl, rfl⟩
      · exact h.leave hc hph hle
      · refine h.move hc rfl rfl ?_ hnone
        intro hon
        exact h.second c n _ hc hon
      · refine h.move hc rfl rfl ?_ hnone
        intro hon
        exact h.second c n _ hc hon
      · rw [List.append_nil]
        exact h.claim hc hlt
      · rw [List.append_nil]
        exact h.fail hc hge
      · rw [List.append_nil]
        exact h.storePtr hc

end Steps

/-! ## §5. Runs. -/

section Runs

variable {tier : UInt8} {evs : List Event} {s : Pool} {out : List Nat}

/-- **EVERY RUN** keeps the invariant. -/
theorem runFrom_inv (h : runFrom tier Pool.new evs = some (s, out)) : Inv tier s out :=
  runSteps_induction (Slots.step tier) (Inv tier) _ (inv_new tier)
    (fun _ _ _ _ _ _ hinv hstep => hinv.step hstep) h

/-- A step keeps every slot that has its pointer. -/
theorem Inv.getMut_step {e : Event} {s' : Pool} {out' : List Nat} (h : Inv tier s out)
    (hstep : Slots.step tier s e = some (s', out')) {w : Which} {i b : Nat}
    (hb : (s.stores w).getMut i = some b) : (s'.stores w).getMut i = some b := by
  have hparts : i < (s.stores w).len ∧ (s.stores w).ptrs i = some b := by
    unfold PerVcpuStore.getMut at hb
    by_cases hle : (s.stores w).len ≤ i
    · rw [if_pos hle] at hb
      exact absurd hb (by simp)
    · rw [if_neg hle] at hb
      exact ⟨by omega, hb⟩
  have hgoal : (s.stores w).len ≤ (s'.stores w).len ∧ (s'.stores w).ptrs i = some b →
      (s'.stores w).getMut i = some b := by
    intro hs'
    unfold PerVcpuStore.getMut
    rw [if_neg (by omega)]
    exact hs'.2
  apply hgoal
  cases e with
  | call n =>
      obtain ⟨_, _, rfl, _⟩ := call_cases hstep
      exact ⟨Nat.le_refl _, hparts.2⟩
  | run c =>
      obtain ⟨n, ph, hc, _, hcase⟩ := run_cases hstep
      rcases hcase with ⟨w', _, _, rfl, _⟩ | ⟨w', _, _, rfl, _⟩ | ⟨w', _, _, rfl, _⟩
        | ⟨w', _, _, rfl, _⟩ | ⟨w', _, _, rfl, _⟩ | ⟨w', idx, rfl, rfl, _⟩
      · exact ⟨Nat.le_refl _, hparts.2⟩
      · exact ⟨Nat.le_refl _, hparts.2⟩
      · exact ⟨Nat.le_refl _, hparts.2⟩
      · rw [len_setStore, ptrs_setLen]
        exact ⟨Nat.le_add_right .., hparts.2⟩
      · rw [len_setStore, ptrs_setLen]
        exact ⟨Nat.le_add_right .., hparts.2⟩
      · rw [len_setPtrs, ptrs_setPtr, if_neg]
        · exact ⟨Nat.le_refl _, hparts.2⟩
        · -- a slot about to be stored has no pointer
          intro hslot
          have hnone := (h.unfinished w' idx c n hc).2
          rw [← hslot.1, ← hslot.2, hparts.2] at hnone
          exact absurd hnone (by simp)

/-- **A slot, once there, stays the same.** -/
theorem getMut_runSteps (h : runFrom tier Pool.new evs = some (s, out)) {evs' : List Event}
    {s' : Pool} {out' : List Nat} (h' : runFrom tier s evs' = some (s', out')) {w : Which}
    {i b : Nat} (hb : (s.stores w).getMut i = some b) : (s'.stores w).getMut i = some b := by
  have hrun := runSteps_invariant (Slots.step tier)
    (fun s out => Inv tier s out ∧ (s.stores w).getMut i = some b) ?_ evs' s out s' out'
    ⟨runFrom_inv h, hb⟩ h'
  · exact hrun.2
  · intro s out e s' out' hp hstep
    exact ⟨hp.1.step hstep, hp.1.getMut_step hstep hp.2⟩

end Runs

end QemuProfiler.Threads.Slots

/-
  QemuProfiler.Threads.SlotOwners
  ───────────────────────────────
  **WHO OWNS WHAT IN THE PER-VCPU STORES**, and how many vCPUs they can take.

    • `slots_owned` — in every reachable state each box is in one slot of one
      store: `iter_mut` on the stores visits every box once, `drop` frees
      every box once, and two slots never lead to the same box,
    • `vcpu_capacity` — calls for at most `n` vCPUs, at most `k` of them, can
      never run past `MAX_VCPUS` exactly when `n + k` is at most 257.
-/
import QemuProfiler.Threads.SlotSafety

namespace QemuProfiler.Threads.Slots

open QemuProfiler.Lib QemuProfiler.Plugin

/-! ## §1. Visiting a store. -/

/-- The load of `ptrs[i]`; the array has `MAX_VCPUS` pointers. -/
def PerVcpuStore.load (store : PerVcpuStore) (i : Nat) : Option (Option Nat) :=
  if i < maxVcpus then some (store.ptrs i) else none

/-- All initialized slots, in order. -/
def PerVcpuStore.iterMut (store : PerVcpuStore) : Option (List Nat) :=
  ((List.range store.len).mapM store.load).map fun ptrs => ptrs.filterMap id

/-- `if !ptr.is_null() { drop(Box::from_raw(ptr)); }`. -/
def freePtr (freed : List Nat) : Option Nat → List Nat
  | none => freed
  | some b => freed ++ [b]

/-- `Drop`: the boxes it frees, in order. -/
def PerVcpuStore.drop (store : PerVcpuStore) : Option (List Nat) :=
  (List.range store.len).foldlM (fun freed i => (store.load i).map (freePtr freed)) []

/-- The boxes of a store. -/
def PerVcpuStore.boxes (store : PerVcpuStore) : List Nat :=
  (List.range store.len).filterMap store.ptrs

section Visits

variable {store : PerVcpuStore}

theorem mapM_load {l : List Nat} (hl : ∀ i ∈ l, i < maxVcpus) :
    l.mapM store.load = some (l.map store.ptrs) := by
  induction l with
  | nil => rfl
  | cons i l ih =>
      have hi : store.load i = some (store.ptrs i) := if_pos (hl i List.mem_cons_self)
      rw [List.mapM_cons, hi, ih fun j hj => hl j (List.mem_cons_of_mem _ hj)]
      rfl

theorem foldlM_free {l : List Nat} (hl : ∀ i ∈ l, i < maxVcpus) : ∀ freed : List Nat,
    l.foldlM (fun freed i => (store.load i).map (freePtr freed)) freed
      = some (freed ++ l.filterMap store.ptrs) := by
  induction l with
  | nil =>
      intro freed
      exact congrArg some (List.append_nil freed).symm
  | cons i l ih =>
      intro freed
      have hi : store.load i = some (store.ptrs i) := if_pos (hl i List.mem_cons_self)
      have hrest := ih fun j hj => hl j (List.mem_cons_of_mem _ hj)
      rw [List.foldlM_cons, hi, Option.map_some]
      show List.foldlM _ _ l = _
      rw [hrest]
      cases hptr : store.ptrs i with
      | none =>
          rw [List.filterMap_cons_none hptr]
          rfl
      | some b =>
          rw [List.filterMap_cons_some hptr]
          show some (freed ++ [b] ++ _) = _
          rw [List.append_assoc]
          rfl

/-- **Both loops** see the boxes of the store, if `len` is in bounds. -/
theorem visits_boxes (hlen : store.len ≤ maxVcpus) :
    store.iterMut = some store.boxes ∧ store.drop = some store.boxes := by
  have hl : ∀ i ∈ List.range store.len, i < maxVcpus :=
    fun i hi => Nat.lt_of_lt_of_le (List.mem_range.mp hi) hlen
  constructor
  · unfold PerVcpuStore.iterMut PerVcpuStore.boxes
    rw [mapM_load hl, Option.map_some, List.filterMap_map]
    rfl
  · unfold PerVcpuStore.drop PerVcpuStore.boxes
    rw [foldlM_free hl, List.nil_append]

end Visits

/-! ## §2. Owners. -/

/-- Every box is in exactly one slot. -/
structure Owned (s : Pool) : Prop where
  lt : ∀ w i b, (s.stores w).ptrs i = some b → b < s.boxes
  owner : ∀ b < s.boxes, ∃ w i, (s.stores w).ptrs i = some b
  apart : ∀ w i w' i' b, (s.stores w).ptrs i = some b → (s.stores w').ptrs i' = some b →
    w = w' ∧ i = i'

theorem owned_new : Owned Pool.new where
  lt := fun w i b h => absurd h (by simp [Pool.new, PerVcpuStore.new])
  owner := fun b h => absurd h (by simp [Pool.new])
  apart := fun w i w' i' b h => absurd h (by simp [Pool.new, PerVcpuStore.new])

section Steps

variable {tier : UInt8} {s : Pool}

/-- Only pointers and boxes matter. -/
theorem Owned.congr (h : Owned s) {s' : Pool} (hboxes : s'.boxes = s.boxes)
    (hptrs : ∀ w, (s'.stores w).ptrs = (s.stores w).ptrs) : Owned s' where
  lt := by
    intro w i b hb
    rw [hptrs] at hb
    rw [hboxes]
    exact h.lt w i b hb
  owner := by
    intro b hb
    rw [hboxes] at hb
    obtain ⟨w, i, hptr⟩ := h.owner b hb
    refine ⟨w, i, ?_⟩
    rw [hptrs]
    exact hptr
  apart := by
    intro w i w' i' b hb hb'
    rw [hptrs] at hb hb'
    exact h.apart w i w' i' b hb hb'

/-- **A store**: the new box is in the slot that had none. -/
theorem Owned.storePtr (h : Owned s) {w : Which} {idx : Nat}
    (hnone : (s.stores w).ptrs idx = none) (calls : List Call) :
    Owned { s.setStore w { s.stores w with
        ptrs := Function.update (s.stores w).ptrs idx (some s.boxes) } with
      calls := calls, boxes := s.boxes + 1 } where
  lt := by
    intro w' i b hb
    show b < s.boxes + 1
    rw [ptrs_setPtr] at hb
    by_cases hslot : w' = w ∧ i = idx
    · rw [if_pos hslot, Option.some.injEq] at hb
      omega
    · rw [if_neg hslot] at hb
      exact Nat.lt_succ_of_lt (h.lt w' i b hb)
  owner := by
    intro b hb
    by_cases hnew : b = s.boxes
    · refine ⟨w, idx, ?_⟩
      rw [ptrs_setPtr, if_pos ⟨rfl, rfl⟩, hnew]
    · obtain ⟨w', i, hptr⟩ := h.owner b (by
        have hlt : b < s.boxes + 1 := hb
        omega)
      refine ⟨w', i, ?_⟩
      rw [ptrs_setPtr, if_neg]
      · exact hptr
      · intro hslot
        rw [hslot.1, hslot.2, hnone] at hptr
        exact absurd hptr (by simp)
  apart := by
    -- an old box is older than the new one
    have hold : ∀ w' i b, (if w' = w ∧ i = idx then some s.boxes else (s.stores w').ptrs i)
        = some b → (w' = w ∧ i = idx ∧ b = s.boxes)
          ∨ ((s.stores w').ptrs i = some b ∧ b < s.boxes) := by
      intro w' i b hb
      by_cases hslot : w' = w ∧ i = idx
      · rw [if_pos hslot, Option.some.injEq] at hb
        exact Or.inl ⟨hslot.1, hslot.2, hb.symm⟩
      · rw [if_neg hslot] at hb
        exact Or.inr ⟨hb, h.lt w' i b hb⟩
    intro w₁ i₁ w₂ i₂ b hb₁ hb₂
    rw [ptrs_setPtr] at hb₁ hb₂
    rcases hold w₁ i₁ b hb₁ with ⟨rfl, rfl, hnew⟩ | ⟨hptr₁, hlt₁⟩
    · rcases hold w₂ i₂ b hb₂ with ⟨rfl, rfl, _⟩ | ⟨_, hlt₂⟩
      · exact ⟨rfl, rfl⟩
      · omega
    · rcases hold w₂ i₂ b hb₂ with ⟨_, _, hnew⟩ | ⟨hptr₂, _⟩
      · omega
      · exact h.apart w₁ i₁ w₂ i₂ b hptr₁ hptr₂

/-- **One step** keeps every box in one slot. -/
theorem Owned.step {out : List Nat} (h : Owned s) (hinv : Inv tier s out) {e : Event} {s' : Pool}
    {out' : List Nat} (hstep : Slots.step tier s e = some (s', out')) : Owned s' := by
  cases e with
  | call n =>
      obtain ⟨_, _, rfl, _⟩ := call_cases hstep
      exact h.congr rfl fun _ => rfl
  | run c =>
      obtain ⟨n, ph, hc, _, hcase⟩ := run_cases hstep
      rcases hcase with ⟨w, _, _, rfl, _⟩ | ⟨w, _, _, rfl, _⟩ | ⟨w, _, _, rfl, _⟩
        | ⟨w, _, _, rfl, _⟩ | ⟨w, _, _, rfl, _⟩ | ⟨w, idx, rfl, rfl, _⟩
      · exact h.congr rfl fun _ => rfl
      · exact h.congr rfl fun _ => rfl
      · exact h.congr rfl fun _ => rfl
      · exact h.congr rfl fun w' => ptrs_setLen s w w' _
      · exact h.congr rfl fun w' => ptrs_setLen s w w' _
      · exact h.storePtr (hinv.unfinished w idx c n hc).2 _

end Steps

section Runs

variable {tier : UInt8} {evs : List Event} {s : Pool} {out : List Nat}

theorem owned_run (h : runFrom tier Pool.new evs = some (s, out)) : Owned s := by
  have hboth : Inv tier s out ∧ Owned s :=
    runSteps_induction (Slots.step tier) (fun s out => Inv tier s out ∧ Owned s) _
      ⟨inv_new tier, owned_new⟩
      (fun _ _ _ _ _ _ hp hstep => ⟨hp.1.step hstep, hp.2.step hp.1 hstep⟩) h
  exact hboth.2

/-- A box is in a store when it is in one of its claimed slots. -/
theorem mem_boxes (hinv : Inv tier s out) (w : Which) (b : Nat) :
    b ∈ (s.stores w).boxes ↔ ∃ i, (s.stores w).ptrs i = some b := by
  unfold PerVcpuStore.boxes
  rw [List.mem_filterMap]
  constructor
  · rintro ⟨i, _, hptr⟩
    exact ⟨i, hptr⟩
  · rintro ⟨i, hptr⟩
    refine ⟨i, List.mem_range.mpr (hinv.stored w i ?_), hptr⟩
    rw [hptr]
    simp

/-- **EVERY BOX HAS ONE OWNER.**  While the assertion has not failed, in every
interleaving and also with calls under way: iterating over the two stores
visits every box that was ever allocated, once; dropping them frees these boxes
in the same order; no index is out of bounds; and two references to per-vCPU
slots are to the same box only if they are to the same slot. -/
theorem slots_owned (h : runFrom tier Pool.new evs = some (s, out)) (hfailed : s.failed = false) :
    (∃ accs calls, (s.stores .edgeAccumulators).iterMut = some accs
        ∧ (s.stores .indirectCalls).iterMut = some calls
        ∧ (s.stores .edgeAccumulators).drop = some accs
        ∧ (s.stores .indirectCalls).drop = some calls
        ∧ (accs ++ calls).Perm (List.range s.boxes))
      ∧ ∀ w i w' i' b, (s.stores w).getMut i = some b → (s.stores w').getMut i' = some b →
          w = w' ∧ i = i' := by
  have hinv := runFrom_inv h
  have hown := owned_run h
  constructor
  · obtain ⟨hiter, hdrop⟩ := visits_boxes (hinv.bounded hfailed .edgeAccumulators)
    obtain ⟨hiter', hdrop'⟩ := visits_boxes (hinv.bounded hfailed .indirectCalls)
    refine ⟨_, _, hiter, hiter', hdrop, hdrop', ?_⟩
    have hnodup : ∀ w, (s.stores w).boxes.Nodup := by
      intro w
      refine List.Nodup.filterMap ?_ List.nodup_range
      intro i i' b hb hb'
      exact (hown.apart w i w i' b hb hb').2
    -- two lists without duplicates, and a box is in the one iff it was allocated
    refine (List.perm_ext_iff_of_nodup ?_ List.nodup_range).mpr ?_
    · refine (hnodup _).append (hnodup _) ?_
      intro b hb hb'
      obtain ⟨i, hptr⟩ := (mem_boxes hinv _ b).mp hb
      obtain ⟨i', hptr'⟩ := (mem_boxes hinv _ b).mp hb'
      exact absurd (hown.apart _ i _ i' b hptr hptr').1 (by simp)
    · intro b
      rw [List.mem_append, mem_boxes hinv, mem_boxes hinv, List.mem_range]
      constructor
      · rintro (⟨i, hptr⟩ | ⟨i, hptr⟩)
        · exact hown.lt _ i b hptr
        · exact hown.lt _ i b hptr
      · intro hb
        obtain ⟨w, i, hptr⟩ := hown.owner b hb
        cases w with
        | edgeAccumulators => exact Or.inl ⟨i, hptr⟩
        | indirectCalls => exact Or.inr ⟨i, hptr⟩
  · have hptr : ∀ w i b, (s.stores w).getMut i = some b → (s.stores w).ptrs i = some b := by
      intro w i b hb
      unfold PerVcpuStore.getMut at hb
      split at hb
      · exact absurd hb (by simp)
      · exact hb
    intro w i w' i' b hb hb'
    exact hown.apart w i w' i' b (hptr w i b hb) (hptr w' i' b hb')

end Runs

theorem slots_owned_two :
    ∃ accs calls,
      ((outcome 1 Pool.new (twoVcpus true)).1.stores .edgeAccumulators).iterMut = some accs
        ∧ ((outcome 1 Pool.new (twoVcpus true)).1.stores .indirectCalls).iterMut = some calls
        ∧ (accs ++ calls).Perm (List.range 1) := by
  have hrun := runFrom_outcome 1 Pool.new (twoVcpus true) (by decide)
  obtain ⟨⟨accs, calls, haccs, hcalls, _, _, hperm⟩, _⟩ := slots_owned hrun (by decide)
  exact ⟨accs, calls, haccs, hcalls, hperm.trans (by decide)⟩

/-! ## §3. Capacity. -/

/-- Slots that are claimed or about to be: fewer than one for each call more
than what the calls ask for. -/
def Crowd (n : Nat) (s : Pool) : Prop :=
  ∀ w, (s.stores w).len + s.pastCheck w + 1 ≤ n + s.calls.length

/-- A call that is not past its check is not counted. -/
theorem pastCheck_lt {s : Pool} {c n : Nat} {ph : Phase} (hc : s.At c n ph) {w : Which}
    (hph : ph ≠ .claim w) : s.pastCheck w < s.calls.length := by
  refine Nat.lt_of_le_of_ne List.countP_le_length fun hall => ?_
  have hin := List.countP_eq_length.mp hall _ (List.mem_of_getElem? hc)
  exact hph (of_decide_eq_true hin)

section Steps

variable {tier : UInt8} {s s' : Pool} {n : Nat} {e : Event} {out : List Nat}

/-- Calls are only added, with the arguments they have. -/
theorem calls_step (hstep : Slots.step tier s e = some (s', out))
    (hle : ∀ call ∈ s'.calls, call.vcpuCount ≤ n) :
    s.calls.length ≤ s'.calls.length ∧ ∀ call ∈ s.calls, call.vcpuCount ≤ n := by
  cases e with
  | call m =>
      obtain ⟨_, _, rfl, _⟩ := call_cases hstep
      refine ⟨?_, fun call hin => hle call (List.mem_append_left _ hin)⟩
      show s.calls.length ≤ (s.calls ++ _).length
      rw [List.length_append]
      omega
  | run c =>
      obtain ⟨m, ph, hc, _, hcase⟩ := run_cases hstep
      have hset : ∃ ph', s'.calls = s.calls.set c ⟨m, ph'⟩ := by
        rcases hcase with ⟨w, _, _, rfl, _⟩ | ⟨w, _, _, rfl, _⟩ | ⟨w, _, _, rfl, _⟩
          | ⟨w, _, _, rfl, _⟩ | ⟨w, _, _, rfl, _⟩ | ⟨w, idx, _, rfl, _⟩
        · exact ⟨_, rfl⟩
        · exact ⟨_, rfl⟩
        · exact ⟨_, rfl⟩
        · exact ⟨_, rfl⟩
        · exact ⟨_, rfl⟩
        · exact ⟨_, rfl⟩
      obtain ⟨ph', hcalls⟩ := hset
      rw [hcalls] at hle ⊢
      refine ⟨Nat.le_of_eq List.length_set.symm, ?_⟩
      intro call hin
      obtain ⟨c', hc'⟩ := List.getElem?_of_mem hin
      by_cases hsame : c = c'
      · -- the call that has moved
        rw [← hsame, hc, Option.some.injEq] at hc'
        rw [← hc']
        have hlt : c < s.calls.length := (List.getElem?_eq_some_iff.mp hc).1
        exact hle ⟨m, ph'⟩ (List.mem_of_getElem? (List.getElem?_set_self hlt))
      · refine hle call (List.mem_of_getElem? (i := c') ?_)
        rw [List.getElem?_set_ne hsame]
        exact hc'

/-- The crowd after one call has moved. -/
theorem crowd_set {c m : Nat} {ph ph' : Phase} (hc : s.At c m ph)
    {stores : Which → PerVcpuStore} {boxes : Nat} {failed : Bool}
    (h : ∀ w, (stores w).len + s.pastCheck w + (if ph' = .claim w then 1 else 0) + 1
      ≤ n + s.calls.length + (if ph = .claim w then 1 else 0)) :
    Crowd n ⟨stores, boxes, s.calls.set c ⟨m, ph'⟩, failed⟩ := by
  intro w
  have hw := h w
  have hcount := pastCheck_set hc ph' w
  show (stores w).len + (s.calls.set c ⟨m, ph'⟩).countP _ + 1
    ≤ n + (s.calls.set c ⟨m, ph'⟩).length
  rw [List.length_set]
  omega

/-- **One step** keeps the crowd, and the assertion holds while it is small. -/
theorem Crowd.step (h : Crowd n s) (hle : ∀ call ∈ s.calls, call.vcpuCount ≤ n)
    (hsmall : n + s.calls.length ≤ maxVcpus + 1) (hstep : Slots.step tier s e = some (s', out)) :
    s'.failed = false ∧ Crowd n s' := by
  cases e with
  | call m =>
      obtain ⟨hfailed, _, rfl, _⟩ := call_cases hstep
      refine ⟨hfailed, ?_⟩
      intro w
      have hw := h w
      show (s.stores w).len + (s.calls ++ _).countP _ + 1 ≤ n + (s.calls ++ _).length
      rw [List.countP_append, List.length_append]
      unfold Pool.pastCheck at hw
      simp only [List.countP_singleton, List.length_singleton, reduceCtorEq, decide_false,
        Bool.false_eq_true, if_false]
      omega
  | run c =>
      obtain ⟨m, ph, hc, hfailed, hcase⟩ := run_cases hstep
      have hat : s.At c m ph := hc
      have hm : m ≤ n := hle _ (List.mem_of_getElem? hc)
      rcases hcase with ⟨w, _, _, rfl, _⟩ | ⟨w, rfl, _, rfl, _⟩ | ⟨w, rfl, hlt, rfl, _⟩
        | ⟨w, rfl, hlt, rfl, _⟩ | ⟨w, rfl, hge, rfl, _⟩ | ⟨w, idx, rfl, rfl, _⟩
      · refine ⟨hfailed, crowd_set hat ?_⟩
        intro w'
        have hw := h w'
        rw [if_neg (afterStore_ne_claim tier w w')]
        omega
      · refine ⟨hfailed, crowd_set hat ?_⟩
        intro w'
        have hw := h w'
        rw [if_neg (by simp)]
        omega
      · refine ⟨hfailed, crowd_set hat ?_⟩
        intro w'
        have hw := h w'
        by_cases hsame : w = w'
        · -- the store is too short for this call, and this call was not counted
          subst hsame
          have hcount := pastCheck_lt hat (show Phase.loop w ≠ .claim w by simp)
          rw [if_pos rfl, if_neg (by simp)]
          omega
        · rw [if_neg (by simpa using hsame)]
          omega
      · refine ⟨hfailed, crowd_set hat ?_⟩
        intro w'
        have hw := h w'
        rw [len_setStore, if_neg (by simp : ¬ Phase.store w _ = .claim w')]
        by_cases hsame : w' = w
        · subst hsame
          rw [if_pos rfl, if_pos rfl]
          omega
        · rw [if_neg hsame, if_neg (by simpa using Ne.symm hsame)]
          omega
      · -- there is room for a call that is past its check
        have hw := h w
        have hpos := pastCheck_pos hat
        omega
      · refine ⟨hfailed, crowd_set hat ?_⟩
        intro w'
        have hw := h w'
        rw [len_setPtrs, if_neg (by simp)]
        omega

end Steps

section Capacity

variable {tier : UInt8} {n k : Nat}

/-- **A small crowd never runs out of slots.** -/
theorem crowd_run (hn : 1 ≤ n) {evs : List Event} {s : Pool} {out : List Nat}
    (h : runFrom tier Pool.new evs = some (s, out)) (hle : ∀ call ∈ s.calls, call.vcpuCount ≤ n)
    (hsmall : n + s.calls.length ≤ maxVcpus + 1) : s.failed = false ∧ Crowd n s := by
  refine runSteps_induction (Slots.step tier) (fun s _ => (∀ call ∈ s.calls, call.vcpuCount ≤ n) →
    n + s.calls.length ≤ maxVcpus + 1 → s.failed = false ∧ Crowd n s) _ ?_ ?_ h hle hsmall
  · intro _ _
    refine ⟨rfl, fun w => ?_⟩
    show 0 + 0 + 1 ≤ n + 0
    omega
  · intro s out e s' out' _ hp hstep hle' hsmall'
    obtain ⟨hlength, hle⟩ := calls_step hstep hle'
    have hsmall : n + s.calls.length ≤ maxVcpus + 1 := by omega
    exact (hp hle hsmall).2.step hle hsmall hstep

end Capacity

/-! ## §4. Too many calls. -/

section Overrun

variable {tier : UInt8} {s : Pool} {c n : Nat} {w : Which}

/-- A look at a store that is too short. -/
theorem run_short {ph next : Phase} (hc : s.At c n ph) (hfailed : s.failed = false)
    (hlt : (s.stores w).len < n)
    (hph : ph = .check w ∧ next = .loop w ∨ ph = .loop w ∧ next = .claim w) :
    runFrom tier s [.run c] = some ({ s with calls := s.calls.set c ⟨n, next⟩ }, []) := by
  have hs := step_run tier hc hfailed (by rcases hph with ⟨rfl, _⟩ | ⟨rfl, _⟩ <;> simp)
  refine runSteps_singleton (hs.trans ?_)
  rcases hph with ⟨rfl, rfl⟩ | ⟨rfl, rfl⟩
  · simp only [advance, if_pos hlt]
    rfl
  · simp only [advance, if_pos hlt]
    rfl

theorem run_claim (hc : s.At c n (.claim w)) (hfailed : s.failed = false)
    (hlt : (s.stores w).len < maxVcpus) :
    runFrom tier s [.run c]
      = some ({ s.setStore w { s.stores w with len := (s.stores w).len + 1 } with
          calls := s.calls.set c ⟨n, .store w (s.stores w).len⟩ }, []) := by
  have hs := step_run tier hc hfailed (by simp)
  refine runSteps_singleton (hs.trans ?_)
  simp only [advance, if_pos hlt]
  rfl

theorem run_store {idx : Nat} (hc : s.At c n (.store w idx)) (hfailed : s.failed = false) :
    runFrom tier s [.run c]
      = some ({ s.setStore w { s.stores w with
            ptrs := Function.update (s.stores w).ptrs idx (some s.boxes) } with
          calls := s.calls.set c ⟨n, .loop w⟩, boxes := s.boxes + 1 }, []) := by
  have hs := step_run tier hc hfailed (by simp)
  exact runSteps_singleton hs

/-- Calls to `n` vCPUs, `m` claimed slots in the first store, no failure. -/
structure Filled (n m : Nat) (calls : List Phase) (s : Pool) : Prop where
  failed : s.failed = false
  calls : s.calls = calls.map (Call.mk n)
  len : (s.stores .edgeAccumulators).len = m

/-- Some run leads there. -/
def Reaches (tier : UInt8) (n m : Nat) (calls : List Phase) : Prop :=
  ∃ evs s out, runFrom tier Pool.new evs = some (s, out) ∧ Filled n m calls s

theorem Filled.at {m : Nat} {calls : List Phase} (h : Filled n m calls s) {ph : Phase}
    (hc : calls[c]? = some ph) : s.At c n ph := by
  unfold Pool.At
  rw [h.calls, List.getElem?_map, hc]
  rfl

theorem Filled.set {m : Nat} {calls : List Phase} (h : Filled n m calls s) (ph : Phase) :
    s.calls.set c ⟨n, ph⟩ = (calls.set c ph).map (Call.mk n) := by
  rw [h.calls, List.map_set]

/-- A run that goes on. -/
theorem reaches_then {evs evs' : List Event} {s' : Pool} {out out' : List Nat} {m : Nat}
    {calls : List Phase} (hrun : runFrom tier Pool.new evs = some (s, out))
    (hrest : runFrom tier s evs' = some (s', out')) (hs : Filled n m calls s') :
    Reaches tier n m calls :=
  ⟨evs ++ evs', s', out ++ out', runSteps_append (Slots.step tier) evs evs' hrun hrest, hs⟩

/-- A reached call looks at the store. -/
theorem Reaches.short {m : Nat} {calls : List Phase} (h : Reaches tier n m calls) {ph next : Phase}
    (hc : calls[c]? = some ph) (hlt : m < n)
    (hph : ph = .check .edgeAccumulators ∧ next = .loop .edgeAccumulators
      ∨ ph = .loop .edgeAccumulators ∧ next = .claim .edgeAccumulators) :
    Reaches tier n m (calls.set c next) := by
  obtain ⟨evs, s, out, hrun, hs⟩ := h
  exact reaches_then hrun
    (run_short (hs.at hc) hs.failed (hs.len.trans_lt hlt) hph)
    ⟨hs.failed, hs.set next, hs.len⟩

/-- A reached call claims a slot. -/
theorem Reaches.claim {m : Nat} {calls : List Phase} (h : Reaches tier n m calls)
    (hc : calls[c]? = some (.claim .edgeAccumulators)) (hlt : m < maxVcpus) :
    Reaches tier n (m + 1) (calls.set c (.store .edgeAccumulators m)) := by
  obtain ⟨evs, s, out, hrun, hs⟩ := h
  refine reaches_then hrun
    (run_claim (hs.at hc) hs.failed (hs.len.trans_lt hlt)) ⟨hs.failed, ?_, ?_⟩
  · rw [hs.len]
    exact hs.set _
  · rw [len_setStore, if_pos rfl, hs.len]

/-- A reached call stores its pointer. -/
theorem Reaches.store {m idx : Nat} {calls : List Phase} (h : Reaches tier n m calls)
    (hc : calls[c]? = some (.store .edgeAccumulators idx)) :
    Reaches tier n m (calls.set c (.loop .edgeAccumulators)) := by
  obtain ⟨evs, s, out, hrun, hs⟩ := h
  refine reaches_then hrun (run_store (hs.at hc) hs.failed) ⟨hs.failed, hs.set _, ?_⟩
  rw [len_setPtrs, hs.len]

/-- One more call is made. -/
theorem Reaches.call {m : Nat} {calls : List Phase} (h : Reaches tier n m calls)
    (hn : n ≤ maxVcpus) : Reaches tier n m (calls ++ [.check .edgeAccumulators]) := by
  obtain ⟨evs, s, out, hrun, hs⟩ := h
  have hstep : Slots.step tier s (.call n)
      = some ({ s with calls := s.calls ++ [⟨n, .check .edgeAccumulators⟩] }, []) :=
    if_pos ⟨hs.failed, hn⟩
  refine reaches_then hrun (runSteps_singleton hstep) ⟨hs.failed, ?_, hs.len⟩
  rw [hs.calls, List.map_append]
  rfl

/-- A first call that has all its slots but one, and looks at `len` again. -/
theorem reaches_alone (hn : n ≤ maxVcpus) : ∀ m, m < n →
    Reaches tier n m [.loop .edgeAccumulators] := by
  intro m
  induction m with
  | zero =>
      intro hm
      have hnew : Reaches tier n 0 [] := ⟨[], Pool.new, [], rfl, rfl, rfl, rfl⟩
      exact (hnew.call hn).short (c := 0) rfl hm (Or.inl ⟨rfl, rfl⟩)
  | succ m ih =>
      intro hm
      have hlt : m < n := Nat.lt_of_succ_lt hm
      exact (((ih hlt).short (c := 0) rfl hlt (Or.inr ⟨rfl, rfl⟩)).claim (c := 0) rfl
        (Nat.lt_of_lt_of_le hlt hn)).store (c := 0) rfl

/-- All calls are past their check when one slot is missing. -/
theorem reaches_past (hn : n ≤ maxVcpus) {m : Nat} (hm : m + 1 = n) : ∀ k,
    Reaches tier n m (List.replicate (k + 1) (.claim .edgeAccumulators)) := by
  have hlt : m < n := by omega
  intro k
  induction k with
  | zero => exact (reaches_alone hn m hlt).short (c := 0) rfl hlt (Or.inr ⟨rfl, rfl⟩)
  | succ k ih =>
      -- the new call is the last one
      have hlast : ∀ ph : Phase, (List.replicate (k + 1) (Phase.claim .edgeAccumulators)
          ++ [ph])[k + 1]? = some ph := by
        intro ph
        rw [List.getElem?_append_right (by simp)]
        simp
      have hset : ∀ ph ph' : Phase, (List.replicate (k + 1) (Phase.claim .edgeAccumulators)
          ++ [ph]).set (k + 1) ph'
          = List.replicate (k + 1) (Phase.claim .edgeAccumulators) ++ [ph'] := by
        intro ph ph'
        rw [List.set_append_right _ _ (by simp)]
        simp
      have hloop := (ih.call hn).short (hlast _) hlt (Or.inl ⟨rfl, rfl⟩)
      rw [hset] at hloop
      have hclaim := hloop.short (hlast _) hlt (Or.inr ⟨rfl, rfl⟩)
      rw [hset, ← List.replicate_succ'] at hclaim
      exact hclaim

/-- The calls claim one after the other. -/
theorem reaches_claimed {k m : Nat}
    (h : Reaches tier n m (List.replicate k (.claim .edgeAccumulators))) : ∀ j, j ≤ k →
      m + j ≤ maxVcpus → ∃ calls : List Phase, calls.length = k
        ∧ (∀ c, j ≤ c → c < k → calls[c]? = some (.claim .edgeAccumulators))
        ∧ Reaches tier n (m + j) calls := by
  intro j
  induction j with
  | zero =>
      intro _ _
      refine ⟨_, List.length_replicate, ?_, h⟩
      intro c _ hc
      rw [List.getElem?_replicate, if_pos hc]
  | succ j ih =>
      intro hj hmax
      obtain ⟨calls, hlen, hall, hreach⟩ := ih (by omega) (by omega)
      refine ⟨calls.set j (.store .edgeAccumulators (m + j)), ?_, ?_,
        hreach.claim (hall j (Nat.le_refl _) (by omega)) (by omega)⟩
      · rw [List.length_set, hlen]
      · intro c hc hck
        rw [List.getElem?_set_ne (by omega)]
        exact hall c (by omega) hck

end Overrun

/-- **THE CAPACITY OF A STORE.**  At most `k` calls of `ensure_vcpu_state`, for
at most `n` vCPUs each, never fail the assertion "too many vCPUs" in any
interleaving, exactly when `n + k` is at most `MAX_VCPUS + 1`. -/
theorem vcpu_capacity {n k : Nat} (hn : 1 ≤ n) (hmax : n ≤ maxVcpus) (tier : UInt8) :
    (∀ evs s out, runFrom tier Pool.new evs = some (s, out) → s.calls.length ≤ k →
        (∀ call ∈ s.calls, call.vcpuCount ≤ n) → s.failed = false)
      ↔ n + k ≤ maxVcpus + 1 := by
  constructor
  · intro hsafe
    by_contra hover
    -- as many calls as it takes, all past their check with one slot missing
    obtain ⟨m, hm⟩ : ∃ m, m + 1 = n := ⟨n - 1, by omega⟩
    obtain ⟨j, hj⟩ : ∃ j, m + j = maxVcpus := ⟨maxVcpus - m, by omega⟩
    have hpast : Reaches tier n m (List.replicate (j + 1) (.claim .edgeAccumulators)) :=
      reaches_past hmax hm j
    obtain ⟨calls, hlen, hall, evs, s, out, hrun, hs⟩ :=
      reaches_claimed hpast j (Nat.le_succ _) (Nat.le_of_eq hj)
    have hat : s.At j n (.claim .edgeAccumulators) := hs.at (hall j (Nat.le_refl _) (by omega))
    have hstep := step_run tier hat hs.failed (by simp)
    have hge : ¬ (s.stores .edgeAccumulators).len < maxVcpus := by
      rw [hs.len]
      omega
    simp only [advance, if_neg hge] at hstep
    have hrun' := runSteps_append (Slots.step tier) evs _ hrun (runSteps_singleton hstep)
    have hfailed := hsafe _ _ _ hrun' ?_ ?_
    · exact absurd hfailed (by simp)
    · show (s.calls.set j _).length ≤ k
      rw [List.length_set, hs.calls, List.length_map, hlen]
      omega
    · intro call hin
      have hin' : call ∈ s.calls.set j ⟨n, .claim .edgeAccumulators⟩ := hin
      rw [hs.set, List.mem_map] at hin'
      obtain ⟨ph, _, rfl⟩ := hin'
      exact Nat.le_refl n
  · intro hsmall evs s out h hlen hle
    exact (crowd_run hn h hle (by omega)).1

/-- 128 vCPUs, each initialised once, are never too many. -/
theorem vcpu_capacity_128 :
    (∀ evs s out, runFrom 2 Pool.new evs = some (s, out) → s.calls.length ≤ 128 →
        (∀ call ∈ s.calls, call.vcpuCount ≤ 128) → s.failed = false)
      ↔ 128 + 128 ≤ maxVcpus + 1 :=
  vcpu_capacity (by decide) (by decide) 2

end QemuProfiler.Threads.Slots

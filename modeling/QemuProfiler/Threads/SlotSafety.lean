/-
  QemuProfiler.Threads.SlotSafety
  ───────────────────────────────
  **IS CONCURRENT VCPU INITIALISATION SAFE?**

  Two things go wrong:
    • a call can return while another one still has to store a slot that it
      relies on,
    • calls that have passed their check claim a slot each, whatever `len` is
      by then, so together they can run past `MAX_VCPUS`.
  Nothing else does (`ensure_vcpu_state_safe`), and a step that lets one of
  them happen is not safe (`callOk_of_safe`).
-/
import QemuProfiler.Threads.Slots

namespace QemuProfiler.Threads.Slots

open QemuProfiler.Lib QemuProfiler.Plugin

/-! ## §1. The condition. -/

/-- The number of calls that have found store `w` too short and not claimed
their slot yet. -/
def Pool.pastCheck (s : Pool) (w : Which) : Nat := s.calls.countP fun c => c.phase = .claim w

/-- A slot below `n` of store `w` is claimed and its pointer not stored. -/
def Pool.Unfinished (s : Pool) (w : Which) (n : Nat) : Prop :=
  ∃ c ∈ s.calls, ∃ idx, c.phase = .store w idx ∧ idx < n

/-- The condition on one step of a call: it does not return while a slot it
relies on is unfinished; and when it finds a store too short, there is room
for it and for the calls that have found so before it. -/
def CallOk (tier : UInt8) (s : Pool) (call : Call) : Prop :=
  (∀ w, call.phase = .check w ∨ call.phase = .loop w → call.vcpuCount ≤ (s.stores w).len →
      afterStore tier w = .returned → ∀ w' ∈ ensured tier, ¬ s.Unfinished w' call.vcpuCount)
    ∧ ∀ w, call.phase = .loop w → (s.stores w).len < call.vcpuCount →
        (s.stores w).len + s.pastCheck w < maxVcpus

/-- The call that the event is a step of. -/
def Event.caller (s : Pool) : Event → Option Call
  | .call _ => none
  | .run c => s.calls[c]?

/-- **The condition on a run.** -/
def Orderly (tier : UInt8) : Pool → List Event → Prop
  | _, [] => True
  | s, e :: es => (∀ call ∈ e.caller s, CallOk tier s call)
      ∧ ∀ r ∈ step tier s e, Orderly tier r.1 es

section Runs

variable {tier : UInt8} {evs : List Event} {s : Pool} {out : List Nat}

/-! ## §2. Orderly runs. -/

/-- Every call that has returned has its slots. -/
def Slotted (tier : UInt8) (s : Pool) (out : List Nat) : Prop :=
  ∀ n ∈ out, ∀ w ∈ ensured tier, ∀ i < n, ∃ b, (s.stores w).getMut i = some b

/-- There is room for all calls that are past their check. -/
def Room (s : Pool) : Prop := ∀ w, (s.stores w).len + s.pastCheck w ≤ maxVcpus

theorem pastCheck_pos {c n : Nat} {w : Which} (hc : s.At c n (.claim w)) : 0 < s.pastCheck w := by
  unfold Pool.pastCheck
  rw [List.countP_pos_iff]
  exact ⟨_, List.mem_of_getElem? hc, by simp⟩

theorem pastCheck_set {c n : Nat} {ph : Phase} (hc : s.At c n ph) (ph' : Phase) (w : Which) :
    (s.calls.set c ⟨n, ph'⟩).countP (fun call => call.phase = .claim w)
        + (if ph = .claim w then 1 else 0)
      = s.pastCheck w + (if ph' = .claim w then 1 else 0) := by
  obtain ⟨hlt, hget⟩ := List.getElem?_eq_some_iff.mp hc
  unfold Pool.pastCheck
  rw [List.countP_set hlt, hget]
  by_cases hph : ph = .claim w
  · have hpos := pastCheck_pos (hph ▸ hc)
    unfold Pool.pastCheck at hpos
    simp only [hph, decide_true, if_true, decide_eq_true_eq]
    omega
  · simp [hph]

/-- Room is left when the call that moves takes what is there. -/
theorem room_set {c n : Nat} {ph ph' : Phase} (hc : s.At c n ph) {stores : Which → PerVcpuStore}
    {boxes : Nat} {failed : Bool}
    (h : ∀ w, (stores w).len + s.pastCheck w + (if ph' = .claim w then 1 else 0)
      ≤ maxVcpus + (if ph = .claim w then 1 else 0)) :
    Room ⟨stores, boxes, s.calls.set c ⟨n, ph'⟩, failed⟩ := by
  intro w
  have hw := h w
  have hcount := pastCheck_set hc ph' w
  show (stores w).len + (s.calls.set c ⟨n, ph'⟩).countP _ ≤ _
  omega

theorem afterStore_ne_claim (tier : UInt8) (w w' : Which) : afterStore tier w ≠ .claim w' := by
  unfold afterStore
  cases w with
  | edgeAccumulators =>
      dsimp only
      split <;> simp
  | indirectCalls => simp

/-- A claimed slot that is not unfinished is there. -/
theorem Inv.slot_of_finished (h : Inv tier s out) {n : Nat} {w : Which} (hmax : n ≤ maxVcpus)
    (hle : n ≤ (s.stores w).len) (hfin : ¬ s.Unfinished w n) {i : Nat} (hi : i < n) :
    ∃ b, (s.stores w).getMut i = some b := by
  unfold PerVcpuStore.getMut
  rw [if_neg (by omega)]
  rcases h.claimed w i (by omega) (by omega) with hptr | ⟨c, n', hat⟩
  · exact Option.ne_none_iff_exists'.mp hptr
  · exact absurd ⟨⟨n', .store w i⟩, List.mem_of_getElem? hat, i, rfl, hi⟩ hfin

/-- **One orderly step** leaves all returned calls with their slots. -/
theorem Inv.slots_step (h : Inv tier s out) (hslots : Slotted tier s out) {e : Event} {s' : Pool}
    {out' : List Nat} (hstep : Slots.step tier s e = some (s', out'))
    (hok : ∀ call ∈ e.caller s, CallOk tier s call) :
    Slotted tier s' (out ++ out') := by
  have hold : Slotted tier s' out := by
    intro n hn w hw i hi
    obtain ⟨b, hb⟩ := hslots n hn w hw i hi
    exact ⟨b, h.getMut_step hstep hb⟩
  have hkept : out' = [] → Slotted tier s' (out ++ out') := by
    intro hnil
    rw [hnil, List.append_nil]
    exact hold
  cases e with
  | call n =>
      obtain ⟨_, _, _, hnil⟩ := call_cases hstep
      exact hkept hnil
  | run c =>
      obtain ⟨n, ph, hc, hfailed, hcase⟩ := run_cases hstep
      have hlens := (h.step hstep).returned
      rcases hcase with ⟨w, hph, hle, rfl, rfl⟩ | ⟨_, _, _, _, hnil⟩ | ⟨_, _, _, _, hnil⟩
        | ⟨_, _, _, _, hnil⟩ | ⟨_, _, _, _, hnil⟩ | ⟨_, _, _, _, hnil⟩
      · by_cases hret : afterStore tier w = .returned
        · rw [if_pos hret] at hlens ⊢
          intro n' hn' w' hw' i hi
          rw [List.mem_append, List.mem_singleton] at hn'
          rcases hn' with hn' | rfl
          · exact hold n' hn' w' hw' i hi
          · -- the call returns here
            obtain ⟨hmax, hlen⟩ := hlens n' (by simp)
            have hfin := (hok _ hc).1 w hph hle hret w' hw'
            exact h.slot_of_finished hmax (hlen w' hw') hfin hi
        · exact hkept (if_neg hret)
      · exact hkept hnil
      · exact hkept hnil
      · exact hkept hnil
      · exact hkept hnil
      · exact hkept hnil

/-- **One orderly step** does not fail, and leaves room for the calls that are
past their check. -/
theorem Room.step (hroom : Room s) {e : Event} {s' : Pool} {out' : List Nat}
    (hstep : Slots.step tier s e = some (s', out'))
    (hok : ∀ call ∈ e.caller s, CallOk tier s call) :
    s'.failed = false ∧ Room s' := by
  cases e with
  | call n =>
      obtain ⟨hfailed, _, rfl, _⟩ := call_cases hstep
      refine ⟨hfailed, ?_⟩
      intro w
      have hw := hroom w
      unfold Pool.pastCheck at hw ⊢
      rw [List.countP_append]
      exact hw
  | run c =>
      obtain ⟨n, ph, hc, hfailed, hcase⟩ := run_cases hstep
      have hcall := (hok _ hc).2
      have hat : s.At c n ph := hc
      rcases hcase with ⟨w, hph, hle, rfl, rfl⟩ | ⟨w, rfl, _, rfl, rfl⟩ | ⟨w, rfl, hlt, rfl, rfl⟩
        | ⟨w, rfl, hlt, rfl, rfl⟩ | ⟨w, rfl, hge, rfl, rfl⟩ | ⟨w, idx, rfl, rfl, rfl⟩
      · refine ⟨hfailed, room_set hat ?_⟩
        intro w'
        have hw := hroom w'
        rw [if_neg (afterStore_ne_claim tier w w')]
        omega
      · refine ⟨hfailed, room_set hat ?_⟩
        intro w'
        exact Nat.le_add_right_of_le (hroom w')
      · refine ⟨hfailed, room_set hat ?_⟩
        intro w'
        by_cases hw : w = w'
        · -- the call that finds the store too short is one more
          subst hw
          have hlast := hcall w rfl hlt
          rw [if_pos rfl, if_neg (by simp)]
          omega
        · rw [if_neg (by simpa using hw)]
          exact Nat.le_add_right_of_le (hroom w')
      · refine ⟨hfailed, room_set hat ?_⟩
        intro w'
        have hw := hroom w'
        rw [len_setStore]
        by_cases heq : w' = w
        · subst heq
          rw [if_pos rfl, if_neg (by simp), if_pos rfl]
          omega
        · rw [if_neg heq, if_neg (by simp)]
          omega
      · -- the call itself is past its check
        have hpos := pastCheck_pos hat
        have hw := hroom w
        omega
      · refine ⟨hfailed, room_set hat ?_⟩
        intro w'
        rw [len_setPtrs]
        exact Nat.le_add_right_of_le (hroom w')

/-- Safe: the assertion has not failed, and every call that has returned has
its slots. -/
def Safe (tier : UInt8) (s : Pool) (out : List Nat) : Prop :=
  s.failed = false ∧ Slotted tier s out

/-- **ORDERLY RUNS ARE SAFE.** -/
theorem safe_of_orderly : ∀ (evs : List Event) (s : Pool) (out : List Nat) (s' : Pool)
    (out' : List Nat), Inv tier s out → Safe tier s out → Room s →
    Orderly tier s evs → runFrom tier s evs = some (s', out') → Safe tier s' (out ++ out') := by
  intro evs
  -- along the run: the invariant, safety and room for the calls past their check
  induction evs with
  | nil =>
      intro s out s' out' _ hsafe _ _ h
      simp only [runFrom, runSteps, Option.some.injEq, Prod.mk.injEq] at h
      obtain ⟨rfl, rfl⟩ := h
      rw [List.append_nil]
      exact hsafe
  | cons e evs ih =>
      intro s out s' out' hinv hsafe hroom horderly h
      obtain ⟨s₁, out₁, out₂, hs, hr, rfl⟩ := runSteps_cons_eq_some h
      obtain ⟨hok, hrest⟩ := horderly
      obtain ⟨hfailed, hroom₁⟩ := hroom.step hs hok
      rw [← List.append_assoc]
      exact ih s₁ (out ++ out₁) s' out₂ (hinv.step hs)
        ⟨hfailed, hinv.slots_step hsafe.2 hs hok⟩ hroom₁ (hrest _ hs) hr

theorem Orderly.of_append : ∀ (evs evs' : List Event) (s : Pool),
    Orderly tier s (evs ++ evs') → Orderly tier s evs := by
  intro evs evs'
  induction evs with
  | nil =>
      intro s _
      trivial
  | cons e evs ih =>
      intro s h
      exact ⟨h.1, fun r hr => ih r.1 (h.2 r hr)⟩

/-- **CONCURRENT INITIALISATION IS SAFE IN ORDERLY RUNS**: at any time, each
call that has returned has its slots, and they are the same ever after; and the
assertion never fails. -/
theorem ensure_vcpu_state_safe (h : runFrom tier Pool.new evs = some (s, out))
    {evs' : List Event} {s' : Pool} {out' : List Nat}
    (h' : runFrom tier s evs' = some (s', out'))
    (horderly : Orderly tier Pool.new (evs ++ evs')) :
    (∀ n ∈ out, ∀ w ∈ ensured tier, ∀ i < n, ∃ b, (s.stores w).getMut i = some b
        ∧ (s'.stores w).getMut i = some b)
      ∧ s.failed = false ∧ s'.failed = false := by
  have hnew : Safe tier Pool.new [] := ⟨rfl, fun n hn => absurd hn List.not_mem_nil⟩
  have hroom : Room Pool.new := fun w => Nat.zero_le _
  have hsafe : Safe tier s out :=
    safe_of_orderly evs _ [] s out (inv_new tier) hnew hroom (horderly.of_append evs evs') h
  have hsafe' : Safe tier s' (out ++ out') :=
    safe_of_orderly (evs ++ evs') _ [] s' (out ++ out') (inv_new tier) hnew hroom horderly
      (runSteps_append (Slots.step tier) evs evs' h h')
  refine ⟨?_, hsafe.1, hsafe'.1⟩
  intro n hn w hw i hi
  obtain ⟨b, hb⟩ := hsafe.2 n hn w hw i hi
  exact ⟨b, hb, getMut_runSteps h h' hb⟩

/-! ## §3. The condition is needed. -/

theorem step_run (tier : UInt8) {c : Nat} {call : Call} (hc : s.calls[c]? = some call)
    (hfailed : s.failed = false) (hph : call.phase ≠ .returned) :
    Slots.step tier s (.run c)
      = some ({ (advance tier s call.vcpuCount call.phase).1 with
            calls := (advance tier s call.vcpuCount call.phase).1.calls.set c
              ⟨call.vcpuCount, (advance tier s call.vcpuCount call.phase).2⟩ },
          if (advance tier s call.vcpuCount call.phase).2 = .returned then [call.vcpuCount]
          else []) := by
  simp only [Slots.step, hc]
  rw [if_pos ⟨hfailed, hph⟩]

/-- **With more calls past their check than slots left, the assertion can
fail**: let them all claim. -/
theorem Inv.overrun (w : Which) : ∀ (k : Nat) (s : Pool) (out : List Nat), s.pastCheck w = k →
    Inv tier s out → s.failed = false → maxVcpus < (s.stores w).len + s.pastCheck w →
    ∃ evs s' out', runFrom tier s evs = some (s', out') ∧ s'.failed = true := by
  intro k
  -- on the number of calls past their check: each claim is one fewer
  induction k with
  | zero =>
      intro s out hk hinv hfailed hover
      have hle := hinv.bounded hfailed w
      omega
  | succ k ih =>
      intro s out hk hinv hfailed hover
      have hpos : 0 < s.calls.countP fun call => call.phase = .claim w := by
        unfold Pool.pastCheck at hk
        omega
      obtain ⟨call, hmem, hph⟩ := List.countP_pos_iff.mp hpos
      obtain ⟨c, hc⟩ := List.getElem?_of_mem hmem
      obtain ⟨n, ph⟩ := call
      obtain rfl : ph = .claim w := by simpa using hph
      have hs := step_run tier hc hfailed (by simp)
      have hcount := pastCheck_set hc (.store w (s.stores w).len) w
      rw [if_pos rfl, if_neg (by simp)] at hcount
      by_cases hlt : (s.stores w).len < maxVcpus
      · simp only [advance, if_pos hlt] at hs
        have hinv₁ := hinv.claim hc hlt
        have hrest := ih _ out ?_ hinv₁ hfailed ?_
        · obtain ⟨evs, s', out', hrun, hfail⟩ := hrest
          have hboth := runSteps_append (Slots.step tier) [.run c] evs (runSteps_singleton hs) hrun
          exact ⟨.run c :: evs, s', _, hboth, hfail⟩
        · show (s.calls.set c _).countP _ = k
          omega
        · rw [len_setStore, if_pos rfl]
          show maxVcpus < _ + (s.calls.set c _).countP _
          omega
      · simp only [advance, if_neg hlt] at hs
        exact ⟨[.run c], _, _, runSteps_singleton hs, rfl⟩

/-- A call that returns before a slot of its has its pointer does not have it. -/
theorem Inv.not_slotted (h : Inv tier s out) {n : Nat} {w : Which} (hw : w ∈ ensured tier)
    (hun : s.Unfinished w n) {out' : List Nat} (hn : n ∈ out') : ¬ Slotted tier s out' := by
  intro hslots
  obtain ⟨⟨n', _⟩, hmem, i, rfl, hi⟩ := hun
  obtain ⟨c, hc⟩ := List.getElem?_of_mem hmem
  obtain ⟨hlen, hptr⟩ := h.unfinished w i c n' hc
  obtain ⟨b, hb⟩ := hslots n hn w hw i hi
  unfold PerVcpuStore.getMut at hb
  rw [if_neg (by omega), hptr] at hb
  exact absurd hb (by simp)

/-- **A STEP THAT IS NOT ORDERLY IS NOT SAFE**: some run that starts with it
leaves a returned call without a slot or fails the assertion. -/
theorem callOk_of_safe (h : runFrom tier Pool.new evs = some (s, out)) {c : Nat} {call : Call}
    (hc : s.calls[c]? = some call) (hfailed : s.failed = false)
    (hsafe : ∀ evs' s' out', runFrom tier s (.run c :: evs') = some (s', out') →
      Safe tier s' out') : CallOk tier s call := by
  have hinv := runFrom_inv h
  obtain ⟨n, ph⟩ := call
  constructor
  · intro w hph hle hret w' hw' hun
    -- the step returns, and the slot is not there
    have hs := step_run tier hc hfailed (by rcases hph with rfl | rfl <;> simp)
    have hlast : advance tier s n ph = (s, .returned) := by
      rcases hph with rfl | rfl <;> simp only [advance, if_neg (Nat.not_lt.mpr hle), hret]
    simp only [hlast, if_true] at hs
    exact hinv.not_slotted hw' hun (List.mem_singleton_self n)
      (hsafe [] _ _ (runSteps_singleton hs)).2
  · intro w hph hlt
    by_contra hroom
    obtain rfl : ph = .loop w := hph
    have hs := step_run tier hc hfailed (by simp)
    have hnext : advance tier s n (.loop w) = (s, .claim w) := by
      simp only [advance, if_pos hlt]
    simp only [hnext] at hs
    have hcount := pastCheck_set hc (.claim w) w
    rw [if_neg (by simp), if_pos rfl] at hcount
    obtain ⟨evs', s', out', hrun, hfail⟩ := (hinv.step hs).overrun w _ _ _ rfl hfailed (by
      show maxVcpus < (s.stores w).len + (s.calls.set c _).countP _
      omega)
    have hboth := runSteps_append (Slots.step tier) [.run c] evs' (runSteps_singleton hs) hrun
    rw [(hsafe evs' s' _ hboth).1] at hfail
    exact absurd hfail (by simp)

end Runs

/-! ## §4. Two runs. -/

/-- The phase is about to store a slot below `n` of store `w`. -/
def Phase.holdsBelow (w : Which) (n : Nat) : Phase → Bool
  | .store w' idx => w' = w ∧ idx < n
  | _ => false

theorem Phase.holdsBelow_iff (w : Which) (n : Nat) (ph : Phase) :
    ph.holdsBelow w n = true ↔ ∃ idx, ph = .store w idx ∧ idx < n := by
  cases ph with
  | store w' idx =>
      constructor
      · intro h
        obtain ⟨rfl, hlt⟩ : w' = w ∧ idx < n := by simpa [Phase.holdsBelow] using h
        exact ⟨idx, rfl, hlt⟩
      · rintro ⟨_, heq, hlt⟩
        obtain ⟨rfl, rfl⟩ := Phase.store.inj heq
        simpa [Phase.holdsBelow] using hlt
  | check | loop | claim | returned => simp [Phase.holdsBelow]

instance (s : Pool) (w : Which) (n : Nat) : Decidable (s.Unfinished w n) :=
  decidable_of_iff (∃ c ∈ s.calls, c.phase.holdsBelow w n = true)
    (exists_congr fun c => and_congr_right fun _ => c.phase.holdsBelow_iff w n)

instance (p : Which → Prop) [DecidablePred p] : Decidable (∀ w, p w) :=
  decidable_of_iff (p .edgeAccumulators ∧ p .indirectCalls)
    ⟨fun h w => by cases w with
      | edgeAccumulators => exact h.1
      | indirectCalls => exact h.2, fun h => ⟨h _, h _⟩⟩

instance (tier : UInt8) (s : Pool) (call : Call) : Decidable (CallOk tier s call) :=
  instDecidableAnd

instance decidableOrderly (tier : UInt8) : ∀ (evs : List Event) (s : Pool),
    Decidable (Orderly tier s evs)
  | [], _ => .isTrue trivial
  | _ :: es, _ =>
      have := decidableOrderly tier es
      instDecidableAnd

/-- The outcome of a possible run. -/
def outcome (tier : UInt8) (s₀ : Pool) (evs : List Event) : Pool × List Nat :=
  outcomeOf (step tier) s₀ evs

theorem runFrom_outcome (tier : UInt8) (s₀ : Pool) (evs : List Event)
    (h : (runFrom tier s₀ evs).isSome = true) :
    runFrom tier s₀ evs = some ((outcome tier s₀ evs).1, (outcome tier s₀ evs).2) :=
  runSteps_outcomeOf (step tier) s₀ evs h

/-- vCPUs 1 and 0 are initialised: the first call claims slot 0; with `stored`
it stores the pointer before the second call runs. -/
def twoVcpus (stored : Bool) : List Event :=
  [.call 2, .run 0, .run 0, .run 0] ++ (if stored then [.run 0] else []) ++ [.call 1, .run 1]

/-- Slot 0 is the same after the first call has claimed and stored slot 1. -/
theorem ensure_vcpu_state_safe_two :
    (∀ n ∈ [1], ∀ w ∈ ensured 1, ∀ i < n, ∃ b,
        ((outcome 1 Pool.new (twoVcpus true)).1.stores w).getMut i = some b
          ∧ ((outcome 1 (outcome 1 Pool.new (twoVcpus true)).1
              (List.replicate 4 (.run 0))).1.stores w).getMut i = some b)
      ∧ (outcome 1 Pool.new (twoVcpus true)).1.failed = false
      ∧ (outcome 1 (outcome 1 Pool.new (twoVcpus true)).1
          (List.replicate 4 (.run 0))).1.failed = false := by
  have hrun := runFrom_outcome 1 Pool.new (twoVcpus true) (by decide)
  have hrest := runFrom_outcome 1 (outcome 1 Pool.new (twoVcpus true)).1
    (List.replicate 4 (.run 0)) (by decide)
  have hout : (outcome 1 Pool.new (twoVcpus true)).2 = [1] := by decide
  rw [hout] at hrun
  exact ensure_vcpu_state_safe hrun hrest (by decide)

/-- `k` calls for one vCPU, all past their check. -/
def claimers (k : Nat) : Pool :=
  { Pool.new with calls := List.replicate k ⟨1, .claim .edgeAccumulators⟩ }

def claimerEvents : Nat → List Event
  | 0 => []
  | k + 1 => claimerEvents k ++ [.call 1, .run k, .run k]

theorem runFrom_claimers (tier : UInt8) (k : Nat) :
    runFrom tier Pool.new (claimerEvents k) = some (claimers k, []) := by
  induction k with
  | zero => rfl
  | succ k ih =>
      have hlast : runFrom tier (claimers k) [.call 1, .run k, .run k]
          = some (claimers (k + 1), []) := by
        simp [runFrom, runSteps, Slots.step, claimers, advance, maxVcpus, Pool.new,
          PerVcpuStore.new, List.replicate_succ']
      exact runSteps_append (Slots.step tier) (claimerEvents k) _ ih hlast

/-- A call for vCPU 0 returns and its slot is not there; and 257 calls for vCPU
0 fail the assertion, when all of them find the store empty. -/
theorem vcpu_init_races :
    (runFrom 1 Pool.new (twoVcpus false)).isSome = true
      ∧ (outcome 1 Pool.new (twoVcpus false)).2 = [1]
      ∧ ((outcome 1 Pool.new (twoVcpus false)).1.stores .edgeAccumulators).getMut 0 = none
      ∧ ∃ evs s out, runFrom 1 Pool.new (claimerEvents 257 ++ evs) = some (s, out)
          ∧ s.failed = true := by
  refine ⟨by decide, by decide, by decide, ?_⟩
  have hrun := runFrom_claimers 1 257
  have hcount : (claimers 257).pastCheck .edgeAccumulators = 257 := by
    unfold Pool.pastCheck claimers
    rw [List.countP_replicate, if_pos (by simp)]
  obtain ⟨evs, s, out, hrest, hfail⟩ := (runFrom_inv hrun).overrun .edgeAccumulators _ _ _
    rfl rfl (by
      rw [hcount]
      decide)
  exact ⟨evs, s, [] ++ out, runSteps_append (Slots.step 1) _ evs hrun hrest, hfail⟩

end QemuProfiler.Threads.Slots

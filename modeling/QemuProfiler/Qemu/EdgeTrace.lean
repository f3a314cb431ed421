/-
  QemuProfiler.Qemu.EdgeTrace
  ───────────────────────────
  **RECORDED EDGES AGAINST THE EXECUTION TRACE** (tier 1).

  The scoreboard of a vCPU holds the end and the fall-through address of the
  last TB it COMPLETED (`Tracks`), zero before the first one.  So the
  callback records, at each TB entry, the edge from that TB, unless it falls
  through to the entered one (`edges_along`).

    • when every TB is completed, the last completed TB is the previous one,
      and the recorded edges are exactly the taken branches,
    • after an abandoned TB it is an OLDER one, and the edge is false.
-/
import QemuProfiler.Qemu.Invariant

namespace QemuProfiler.Qemu

open QemuProfiler.Lib QemuProfiler.Plugin QemuProfiler.Edges

/-! ## §1. The scoreboard follows the trace. -/

/-- The last execution that a vCPU completed. -/
def lastComplete (v : Nat) (rs : List ExecRecord) : Option ExecRecord :=
  ((onVcpu v rs).filter ExecRecord.complete).getLast?

theorem onVcpu_concat (v : Nat) (rs : List ExecRecord) (r : ExecRecord) :
    onVcpu v (rs ++ [r]) = onVcpu v rs ++ (if r.vcpu = v then [r] else []) :=
  ofParty_concat ExecRecord.vcpu v rs r

theorem lastComplete_concat (v : Nat) (rs : List ExecRecord) (r : ExecRecord) :
    lastComplete v (rs ++ [r])
      = if r.vcpu = v ∧ r.complete = true then some r else lastComplete v rs := by
  unfold lastComplete
  rw [onVcpu_concat]
  by_cases hv : r.vcpu = v
  · rw [if_pos hv, List.filter_append, List.filter_singleton]
    by_cases hc : r.complete = true
    · rw [hc, if_pos ⟨hv, rfl⟩, List.getLast?_append]
      rfl
    · rw [Bool.eq_false_of_not_eq_true hc, if_neg (by simp)]
      exact congrArg List.getLast? (List.append_nil _)
  · rw [if_neg hv, if_neg (fun h => hv h.1), List.append_nil]

/-- When everything completes, the last completed execution is the previous
one. -/
theorem lastComplete_eq_getLast? {rs : List ExecRecord} (h : ∀ r ∈ rs, r.complete = true)
    (v : Nat) : lastComplete v rs = (onVcpu v rs).getLast? := by
  unfold lastComplete
  rw [List.filter_eq_self.mpr]
  intro r hr
  exact h r (List.mem_of_mem_filter hr)

/-- **THE SIMULATION**: each vCPU's scoreboard entry is that of the last
execution it completed. -/
def Tracks (m : Machine) (rs : List ExecRecord) : Prop :=
  ∀ v, (m.vcpus v).lastTbEnd = ((lastComplete v rs).map fun r => r.tr.tbMeta.endAddr).getD 0
    ∧ (m.vcpus v).fallThroughAddr
        = ((lastComplete v rs).map fun r => r.tr.tbMeta.fallThroughAddr).getD 0

/-- The edge from an earlier execution into an entered TB: a branch, unless
the earlier one falls through or its end is the sentinel. -/
def branchEdge (prev : Option ExecRecord) (r : ExecRecord) : List Edge :=
  match prev with
  | none => []
  | some p =>
      if p.tr.tbMeta.endAddr ≠ 0 ∧ r.tr.tbMeta.startAddr ≠ p.tr.tbMeta.fallThroughAddr then
        [⟨p.tr.tbMeta.endAddr, r.tr.tbMeta.startAddr⟩]
      else []

section Simulation

variable {m : Machine} {rs : List ExecRecord}

/-- The callback records the edge from the last completed execution. -/
theorem Tracks.entryEdge_eq (h : Tracks m rs) (htier : 1 ≤ m.plugin.config.tier)
    (r : ExecRecord) :
    (entryEdge m.plugin (m.vcpus r.vcpu) r.tr).toList
      = branchEdge (lastComplete r.vcpu rs) r := by
  obtain ⟨hend, hft⟩ := h r.vcpu
  unfold entryEdge branchEdge
  rw [hend, hft]
  cases lastComplete r.vcpu rs with
  | none =>
      -- the sentinel of a vCPU that completed nothing yet
      rw [if_neg]
      · rfl
      · intro hand
        obtain ⟨_, _, hz⟩ := hand
        exact hz rfl
  | some p =>
      show (if _ ∧ p.tr.tbMeta.fallThroughAddr ≠ _ ∧ p.tr.tbMeta.endAddr ≠ 0 then
        some (⟨p.tr.tbMeta.endAddr, _⟩ : Edge) else none).toList = _
      dsimp only
      by_cases hb : p.tr.tbMeta.endAddr ≠ 0
          ∧ r.tr.tbMeta.startAddr ≠ p.tr.tbMeta.fallThroughAddr
      · rw [if_pos hb, if_pos ⟨htier, hb.2.symm, hb.1⟩]
        rfl
      · rw [if_neg hb, if_neg (fun h => hb ⟨h.2.2, h.2.1.symm⟩)]
        rfl

/-- **One execution keeps the simulation.** -/
theorem Tracks.exec (h : Tracks m rs) (htier : 1 ≤ m.plugin.config.tier) (r : ExecRecord)
    (m' : Machine)
    (hm' : m'.vcpus
      = Function.update m.vcpus r.vcpu (vcpuAfter m.plugin r.tr r.started (m.vcpus r.vcpu))) :
    Tracks m' (rs ++ [r]) := by
  intro v
  rw [hm', lastComplete_concat]
  by_cases hv : v = r.vcpu
  · subst hv
    rw [Function.update_self]
    unfold vcpuAfter
    dsimp only
    by_cases hc : r.complete = true
    · have hstored : 1 ≤ m.plugin.config.tier ∧ r.started = r.tr.tb.insns.length :=
        ⟨htier, of_decide_eq_true hc⟩
      have hlast : r.vcpu = r.vcpu ∧ r.complete = true := ⟨rfl, hc⟩
      rw [if_pos hstored, if_pos hstored, if_pos hlast]
      exact ⟨rfl, rfl⟩
    · -- abandoned: the stores of the last instruction did not run
      have hstored : ¬ (1 ≤ m.plugin.config.tier ∧ r.started = r.tr.tb.insns.length) := by
        intro hand
        obtain ⟨_, hall⟩ := hand
        exact hc (decide_eq_true hall)
      have hlast : ¬ (r.vcpu = r.vcpu ∧ r.complete = true) := fun h => hc h.2
      rw [if_neg hstored, if_neg hstored, if_neg hlast]
      exact h r.vcpu
  · rw [Function.update_of_ne hv, if_neg (fun h => hv h.1.symm)]
    exact h v

end Simulation

/-! ## §2. Every run. -/

section Runs

variable {config : PluginConfig} {tier3 sysemu : Bool} {arch : String} {host : HostInfo}
  {evs : List Event} {m : Machine} {rs : List ExecRecord}

/-- Every run keeps the simulation. -/
theorem tracks_run (h : runFrom (Machine.init config tier3 sysemu arch host) evs = some (m, rs))
    (htier : 1 ≤ config.tier) : Tracks m rs := by
  refine runFrom_induction Tracks (fun v => ⟨rfl, rfl⟩) (fun m rs v plugin hp _ => hp)
    (fun m rs tb _ hp => hp) (fun m rs hp => hp) ?_ h
  intro m rs env v tr started hreach hp _ _ _
  obtain ⟨evs, hreach⟩ := hreach
  have htier' := (runFrom_inv hreach).tier_le htier
  exact hp.exec htier' ⟨v, tr, started, emittedAt env v m tr⟩ _ rfl

/-- **WHAT EACH ENTRY RECORDS**, in every run: the edge from the execution its
vCPU completed last. -/
theorem edges_along (h : runFrom (Machine.init config tier3 sysemu arch host) evs = some (m, rs))
    (htier : 1 ≤ config.tier) :
    Along (fun past r => r.emitted.edges = branchEdge (lastComplete r.vcpu past) r) rs := by
  refine runFrom_induction (fun _ rs =>
      Along (fun past r => r.emitted.edges = branchEdge (lastComplete r.vcpu past) r) rs)
    (along_nil _) (fun m rs v plugin hp _ => hp) (fun m rs tb _ hp => hp) (fun m rs hp => hp) ?_ h
  intro m rs env v tr started hreach hp _ _ _
  obtain ⟨evs, hreach⟩ := hreach
  have htier' := (runFrom_inv hreach).tier_le htier
  have hedge := (tracks_run hreach htier).entryEdge_eq htier'
    ⟨v, tr, started, emittedAt env v m tr⟩
  rw [along_concat]
  refine ⟨hp, ?_⟩
  show ((entryEdge m.plugin (m.vcpus v) tr).toList.map fun e => (⟨env, v, e⟩ : EdgeEvent)).map
    EdgeEvent.edge = _
  rw [List.map_map, ← hedge]
  exact List.map_id _

/-- A new slot stores nothing. -/
theorem storedItems_ensureVcpuState {s s' : PluginState} {n : Nat}
    (h : s.ensureVcpuState n = some s') : storedItems s' = storedItems s := by
  obtain ⟨i, j, rfl, _, _⟩ := ensureVcpuState_eq h
  have hfresh : (EdgeAccumulator.new s.config.topN s.config.streaming).edges.items = [] := by
    unfold EdgeAccumulator.new
    split <;> rfl
  unfold storedItems
  rw [List.flatMap_append, List.flatMap_eq_nil_iff (l := List.replicate i _) |>.mpr,
      List.append_nil]
  intro acc hacc
  rw [List.eq_of_mem_replicate hacc, hfresh]

/-- Where an execution leaves its edges. -/
theorem pluginAfter_edges (env : Env) (v : Nat) (m : Machine) (tr : Translation) :
    storedItems (pluginAfter env v m tr)
        = storedItems (run (afterSeen m v tr)
            (edgeEvents env v (entryEdge m.plugin (m.vcpus v) tr)))
      ∧ (pluginAfter env v m tr).flushedBranchEntries
        = (run (afterSeen m v tr)
            (edgeEvents env v (entryEdge m.plugin (m.vcpus v) tr))).flushedBranchEntries := by
  obtain ⟨maps, hcalls, _⟩ := recordCalls_frame v
    (entryCall m.plugin (m.vcpus v) tr).toList
    (run (afterSeen m v tr) (edgeEvents env v (entryEdge m.plugin (m.vcpus v) tr)))
  unfold pluginAfter
  rw [hcalls]
  exact ⟨rfl, rfl⟩

theorem afterSeen_edges (m : Machine) (v : Nat) (tr : Translation) :
    (afterSeen m v tr).edgeAccumulators = m.plugin.edgeAccumulators
      ∧ (afterSeen m v tr).flushedBranchEntries = m.plugin.flushedBranchEntries := by
  unfold afterSeen
  split <;> exact ⟨rfl, rfl⟩

theorem storedItems_afterSeen (m : Machine) (v : Nat) (tr : Translation) :
    storedItems (afterSeen m v tr) = storedItems m.plugin := by
  unfold storedItems
  rw [(afterSeen_edges m v tr).1]

theorem storedItems_translate (m : Machine) (tb : QemuTb) :
    storedItems (translate m tb).plugin = storedItems m.plugin := by
  have ht := vcpuTbTrans_spec m.host m.nextScoreboard m.plugin tb
  unfold storedItems
  exact congrArg (List.flatMap _) ht.same.edgeAccumulators

/-- The calls of `record_edge` of an execution are the edges it emits. -/
theorem countP_edgeEvents (p : Edge → Bool) (env : Env) (v : Nat) (m : Machine)
    (tr : Translation) :
    (edgeEvents env v (entryEdge m.plugin (m.vcpus v) tr)).countP (fun ev => p ev.edge)
      = (emittedAt env v m tr).edges.countP p := List.countP_map.symm

/-- **THE ACCOUNT OF A RUN**: what is stored, flushed and dropped is what the
entries recorded. -/
theorem edges_accounted (p : Edge → Bool)
    (h : runFrom (Machine.init config tier3 sysemu arch host) evs = some (m, rs)) :
    sumWhere p (storedItems m.plugin) + sumWhere p (rs.flatMap fun r => r.emitted.flushed)
        + sumWhere p (rs.flatMap fun r => r.emitted.dropped)
      = UInt64.ofNat ((rs.flatMap fun r => r.emitted.edges).countP p) := by
  refine runFrom_induction (fun m rs =>
      sumWhere p (storedItems m.plugin) + sumWhere p (rs.flatMap fun r => r.emitted.flushed)
          + sumWhere p (rs.flatMap fun r => r.emitted.dropped)
        = UInt64.ofNat ((rs.flatMap fun r => r.emitted.edges).countP p))
    rfl ?_ ?_ (fun m rs hp => hp) ?_ h
  · intro m rs v plugin hp hpl
    dsimp only
    rw [storedItems_ensureVcpuState hpl]
    exact hp
  · intro m rs tb _ hp
    rw [storedItems_translate]
    exact hp
  · -- an entry makes one `record_edge` call or none; its account extends the run's
    intro m rs env v tr started hreach hp _ hv _
    obtain ⟨evs, hreach⟩ := hreach
    have hacc := accounting p (edgeEvents env v (entryEdge m.plugin (m.vcpus v) tr))
      (afterSeen m v tr) (by
        intro ev hev
        obtain ⟨e, _, rfl⟩ := List.mem_map.mp hev
        show v < _
        rw [(afterSeen_edges m v tr).1]
        exact lt_of_lt_of_le hv (runFrom_inv hreach).slots)
    rw [storedItems_afterSeen, ← (pluginAfter_edges env v m tr).1] at hacc
    simp only [List.flatMap_append, List.flatMap_singleton, sumWhere_append, List.countP_append,
      UInt64.ofNat_add]
    rw [← hp, ← countP_edgeEvents]
    calc _ = sumWhere p (storedItems (pluginAfter env v m tr))
              + sumWhere p (flushedIn (afterSeen m v tr)
                  (edgeEvents env v (entryEdge m.plugin (m.vcpus v) tr)))
              + sumWhere p (droppedIn (afterSeen m v tr)
                  (edgeEvents env v (entryEdge m.plugin (m.vcpus v) tr)))
              + (sumWhere p (rs.flatMap fun r => r.emitted.flushed)
                + sumWhere p (rs.flatMap fun r => r.emitted.dropped)) := by
            unfold emittedAt
            dsimp only
            abel
      _ = _ := by
            rw [hacc]
            abel

/-! ## §3. Completed executions. -/

/-- A branch from `f` to `t` was taken between two executions. -/
def takes (f t : UInt64) (a b : ExecRecord) : Bool :=
  a.tr.tbMeta.endAddr = f ∧ f ≠ 0 ∧ b.tr.tbMeta.startAddr = t
    ∧ t ≠ a.tr.tbMeta.fallThroughAddr

theorem count_branchEdge (f t : UInt64) (a b : ExecRecord) :
    (branchEdge (some a) b).countP (fun e => decide (e = ⟨f, t⟩))
      = if takes f t a b then 1 else 0 := by
  unfold branchEdge takes
  dsimp only
  by_cases hb : a.tr.tbMeta.endAddr ≠ 0 ∧ b.tr.tbMeta.startAddr ≠ a.tr.tbMeta.fallThroughAddr
  · rw [if_pos hb, List.countP_singleton]
    simp only [Edge.mk.injEq, decide_eq_true_eq]
    congr 1
    rw [eq_iff_iff]
    constructor
    · intro hand
      obtain ⟨rfl, rfl⟩ := hand
      exact ⟨rfl, hb.1, rfl, hb.2⟩
    · intro hand
      obtain ⟨hf, _, ht, _⟩ := hand
      exact ⟨hf, ht⟩
  · rw [if_neg hb, List.countP_nil, if_neg]
    rw [decide_eq_true_eq]
    intro hand
    obtain ⟨hf, hz, ht, hne⟩ := hand
    exact hb ⟨hf ▸ hz, by rw [ht]; exact hne⟩

/-- When every execution completes, an entry records the edge from the
previous execution of its vCPU. -/
theorem edges_along_complete
    (h : runFrom (Machine.init config tier3 sysemu arch host) evs = some (m, rs))
    (htier : 1 ≤ config.tier) (hcomplete : ∀ r ∈ rs, r.complete = true) :
    Along (fun past r => r.emitted.edges
      = branchEdge (ofParty ExecRecord.vcpu r.vcpu past).getLast? r) rs := by
  intro past r rest hsplit
  rw [edges_along h htier past r rest hsplit, lastComplete_eq_getLast?]
  · rfl
  · intro p hp
    exact hcomplete p (by rw [hsplit]; exact List.mem_append_left _ hp)

/-- The first execution of a vCPU has no earlier one. -/
theorem head_onVcpu {v : Nat} {r : ExecRecord} (hr : (onVcpu v rs).head? = some r) :
    ∃ past rest, rs = past ++ r :: rest ∧ r.vcpu = v ∧ onVcpu v past = [] := by
  unfold onVcpu ofParty at hr ⊢
  rw [List.head?_filter, List.find?_eq_some_iff_append] at hr
  obtain ⟨hv, past, rest, hsplit, hpast⟩ := hr
  refine ⟨past, rest, hsplit, of_decide_eq_true hv, ?_⟩
  rw [List.filter_eq_nil_iff]
  intro p hp
  have hne := hpast p hp
  simpa using hne

/-- **EDGE RECORDING IS EXACT** on completed executions, for any number of
vCPUs and any interleaving:
  • each vCPU records the taken branches between its own consecutive
    executions, in order, and nothing else,
  • its first execution records nothing,
  • without pruning, what is stored and flushed for `(f, t)` is the number of
    such pairs. -/
theorem recorded_edges_exact
    (h : runFrom (Machine.init config tier3 sysemu arch host) evs = some (m, rs))
    (htier : 1 ≤ config.tier) (hcomplete : ∀ r ∈ rs, r.complete = true)
    (hpruned : ∀ r ∈ rs, r.emitted.dropped = []) :
    (∀ v, (onVcpu v rs).flatMap (fun r => r.emitted.edges)
        = (pairs (onVcpu v rs)).flatMap fun ab => branchEdge (some ab.1) ab.2)
      ∧ (∀ v r, (onVcpu v rs).head? = some r → r.emitted.edges = [])
      ∧ ∀ f t,
          (rs.flatMap fun r => r.emitted.edges).countP (fun e => decide (e = ⟨f, t⟩))
              = pairCount ExecRecord.vcpu m.numVcpus (takes f t) rs
            ∧ sumAt ⟨f, t⟩ (storedItems m.plugin)
                + sumAt ⟨f, t⟩ (rs.flatMap fun r => r.emitted.flushed)
              = UInt64.ofNat (pairCount ExecRecord.vcpu m.numVcpus (takes f t) rs) := by
  have halong := edges_along_complete h htier hcomplete
  have hinv := runFrom_inv h
  refine ⟨?_, ?_, ?_⟩
  · intro v
    exact flatMap_pairs ExecRecord.vcpu (fun r => r.emitted.edges) branchEdge (fun _ => rfl) v rs
      halong
  · intro v r hr
    obtain ⟨past, rest, hsplit, hv, hpast⟩ := head_onVcpu hr
    rw [halong past r rest hsplit, hv, show ofParty ExecRecord.vcpu v past = [] from hpast]
    rfl
  · intro f t
    have hcount := countP_relay ExecRecord.vcpu m.numVcpus (fun r => r.emitted.edges) branchEdge
      (fun _ => rfl) rs (fun r hr => (hinv.executed r hr).2) halong
      (fun e => decide (e = ⟨f, t⟩)) (takes f t) (count_branchEdge f t)
    refine ⟨hcount, ?_⟩
    have hacc := edges_accounted (fun e => decide (e = ⟨f, t⟩)) h
    rw [List.flatMap_eq_nil_iff.mpr hpruned, sumWhere_nil, add_zero, hcount] at hacc
    exact hacc

/-! Two blocks on two vCPUs. -/

/-- A block of `nop`s (RISC-V), `n + 1` of them. -/
def nopBlock (vaddr : UInt64) (n : Nat) : QemuTb :=
  { vaddr := vaddr
    insns := (List.range (n + 1)).map fun i =>
      { vaddr := vaddr + UInt64.ofNat (4 * i), size := 4, data := [0x13, 0, 0, 0], symbol := none }
    nonempty := by simp }

/-- An emulator in which nothing is known about the binary. -/
def exampleHost : HostInfo :=
  { pathToBinary := none, startCode := 0, endCode := 0, entryCode := 0, outputOpens := true }

/-- The plugin installed at a tier, other arguments at their defaults. -/
def installed (tier : UInt8) : Machine :=
  Machine.init { PluginConfig.default with tier := tier } false false "riscv64" exampleHost

/-- Both vCPUs run the same two blocks, in opposite order. -/
def crossingEvents : List Event :=
  [.vcpuInit 0, .vcpuInit 1, .translate (nopBlock 0x10 0), .translate (nopBlock 0x40 0),
    .exec 0 0 1 ⟨[], 0⟩, .exec 1 1 1 ⟨[], 0⟩, .exec 0 1 1 ⟨[], 0⟩, .exec 1 0 1 ⟨[], 0⟩]

/-- The outcome of a possible run. -/
def outcome (tier : UInt8) (evs : List Event) : Machine × List ExecRecord :=
  outcomeOf step (installed tier) evs

theorem runFrom_outcome (tier : UInt8) (evs : List Event)
    (h : (runFrom (installed tier) evs).isSome = true) :
    runFrom (installed tier) evs = some ((outcome tier evs).1, (outcome tier evs).2) :=
  runSteps_outcomeOf step (installed tier) evs h

theorem recorded_edges_two_vcpus :
    sumAt ⟨0x10, 0x40⟩ (storedItems (outcome 1 crossingEvents).1.plugin)
      + sumAt ⟨0x10, 0x40⟩ ((outcome 1 crossingEvents).2.flatMap fun r => r.emitted.flushed)
      = 1 :=
  ((recorded_edges_exact (runFrom_outcome _ _ (by decide)) (by decide) (by decide) (by decide)).2.2
    0x10 0x40).2.trans (by decide)

/-! ## §4. Abandoned executions. -/

/-- The edges recorded at an entry come from the execution right before it on
that vCPU; after an abandoned one there are none. -/
def NoFalseEdge (past : List ExecRecord) (r : ExecRecord) : Prop :=
  (onVcpu r.vcpu past = [] → r.emitted.edges = [])
    ∧ ∀ p ∈ (onVcpu r.vcpu past).getLast?,
        (∀ e ∈ r.emitted.edges,
            e.fromAddr = p.tr.tbMeta.endAddr ∧ e.toAddr = r.tr.tbMeta.startAddr)
          ∧ (p.complete = false → r.emitted.edges = [])

instance (past : List ExecRecord) (r : ExecRecord) : Decidable (NoFalseEdge past r) :=
  inferInstanceAs (Decidable (_ ∧ _))

/-- The stale scoreboard does no harm at this entry: if the execution before
it was abandoned, the last completed TB, if any, has the sentinel as its end
or falls through to the entered TB. -/
def StaleHarmless (past : List ExecRecord) (r : ExecRecord) : Prop :=
  ∀ p ∈ (onVcpu r.vcpu past).getLast?, p.complete = false →
    ∀ z ∈ lastComplete r.vcpu past,
      z.tr.tbMeta.endAddr = 0 ∨ z.tr.tbMeta.fallThroughAddr = r.tr.tbMeta.startAddr

instance (past : List ExecRecord) (r : ExecRecord) : Decidable (StaleHarmless past r) :=
  inferInstanceAs (Decidable (∀ p ∈ (onVcpu r.vcpu past).getLast?, _))

/-- No edge, iff the end is the sentinel or the TB falls through. -/
theorem branchEdge_eq_nil {z r : ExecRecord} :
    branchEdge (some z) r = []
      ↔ z.tr.tbMeta.endAddr = 0 ∨ z.tr.tbMeta.fallThroughAddr = r.tr.tbMeta.startAddr := by
  unfold branchEdge
  dsimp only
  by_cases hz : z.tr.tbMeta.endAddr = 0
  · simp [hz]
  · by_cases hf : r.tr.tbMeta.startAddr = z.tr.tbMeta.fallThroughAddr
    · simp [hf]
    · simp [hz, hf, Ne.symm hf]

/-- A vCPU whose last execution completed has no later one. -/
theorem lastComplete_of_getLast? {v : Nat} {past : List ExecRecord} {p : ExecRecord}
    (hp : (onVcpu v past).getLast? = some p) (hc : p.complete = true) :
    lastComplete v past = some p := by
  obtain ⟨l, hl⟩ := List.getLast?_eq_some_iff.mp hp
  unfold lastComplete
  rw [hl, List.filter_append, List.filter_singleton, hc, List.getLast?_append]
  rfl

/-- Every edge that an execution can leave into `r` has `r`'s start. -/
theorem mem_branchEdge {z r : ExecRecord} {e : Edge} (he : e ∈ branchEdge (some z) r) :
    e.fromAddr = z.tr.tbMeta.endAddr ∧ e.toAddr = r.tr.tbMeta.startAddr := by
  unfold branchEdge at he
  dsimp only at he
  split at he
  · rw [List.mem_singleton.mp he]
    exact ⟨rfl, rfl⟩
  · exact absurd he (List.not_mem_nil)

/-- One entry: no false edge iff the stale scoreboard does no harm. -/
theorem noFalseEdge_iff {past : List ExecRecord} {r : ExecRecord}
    (hr : r.emitted.edges = branchEdge (lastComplete r.vcpu past) r) :
    NoFalseEdge past r ↔ StaleHarmless past r := by
  unfold NoFalseEdge StaleHarmless
  constructor
  · intro hand p hp hab z hz
    obtain ⟨_, hlast⟩ := hand
    have hempty := (hlast p hp).2 hab
    rw [hr, Option.mem_def.mp hz] at hempty
    exact branchEdge_eq_nil.mp hempty
  · intro hstale
    refine ⟨?_, ?_⟩
    · -- the first execution of the vCPU
      intro hfirst
      have hnone : lastComplete r.vcpu past = none := by
        unfold lastComplete
        rw [hfirst]
        rfl
      rw [hr, hnone]
      rfl
    · intro p hp
      by_cases hc : p.complete = true
      · -- the previous execution completed: the scoreboard is current
        rw [hr, lastComplete_of_getLast? hp hc]
        refine ⟨fun e he => mem_branchEdge he, ?_⟩
        intro hab
        rw [hc] at hab
        exact absurd hab (by decide)
      · -- the previous execution was abandoned: the scoreboard is stale
        have hempty : r.emitted.edges = [] := by
          rw [hr]
          cases hz : lastComplete r.vcpu past with
          | none => rfl
          | some z =>
              exact branchEdge_eq_nil.mpr
                (hstale p hp (Bool.eq_false_of_not_eq_true hc) z hz)
        rw [hempty]
        exact ⟨fun e he => absurd he (List.not_mem_nil), fun _ => rfl⟩

/-- **FALSE EDGES AFTER AN EXCEPTION, EXACTLY.**  A run records no false edge
iff at every entry that follows an abandoned execution the last completed TB
of the vCPU, if any, ends at 0 or falls through to the entered TB. -/
theorem no_false_edge_iff
    (h : runFrom (Machine.init config tier3 sysemu arch host) evs = some (m, rs))
    (htier : 1 ≤ config.tier) : Along NoFalseEdge rs ↔ Along StaleHarmless rs := by
  have halong := edges_along h htier
  constructor
  · intro hno past r rest hsplit
    exact (noFalseEdge_iff (halong past r rest hsplit)).mp (hno past r rest hsplit)
  · intro hstale past r rest hsplit
    exact (noFalseEdge_iff (halong past r rest hsplit)).mpr (hstale past r rest hsplit)

/-- One vCPU completes a block, abandons a second one after its first
instruction, and enters a handler. -/
def faultEvents (handler : UInt64) : List Event :=
  [.vcpuInit 0, .translate (nopBlock 0x10 0), .translate (nopBlock 0x20 1),
    .translate (nopBlock handler 0),
    .exec 0 0 1 ⟨[], 0⟩, .exec 0 1 1 ⟨[], 0⟩, .exec 0 2 1 ⟨[], 0⟩]

/-- With the handler right behind the first block, nothing is recorded. -/
theorem no_false_edge_fall_through : Along NoFalseEdge (outcome 1 (faultEvents 0x14)).2 :=
  (no_false_edge_iff (runFrom_outcome _ _ (by decide)) (by decide)).mpr (by decide)

/-- **A FALSE EDGE**: with the handler elsewhere, the edge from the first
block to the handler is recorded, over the abandoned block between them. -/
theorem fault_records_false_edge :
    (outcome 1 (faultEvents 0x80)).2.map (fun r => (r.complete, r.emitted.edges))
        = [(true, []), (false, [⟨0x10, 0x20⟩]), (true, [⟨0x10, 0x80⟩])]
      ∧ ¬ Along NoFalseEdge (outcome 1 (faultEvents 0x80)).2 := by
  decide

end Runs

end QemuProfiler.Qemu

/-
  QemuProfiler.Qemu.ExecSpec
  ──────────────────────────
  **ONE EXECUTION, AS ONE EQUATION** (`execTb_eq`).

  An instrumented translation does, in this order: the exec count of the
  vCPU goes up, the first-seen callback runs if the count became 1 and this
  translation registered it, the branch callback records the edge and the
  pending indirect call, the pending callsite is cleared, and the
  instructions that begin store what they store.

  Everything the branch callback reads is from BEFORE the execution: the
  stores of the last instruction come after it.
-/
import QemuProfiler.Qemu.Machine

namespace QemuProfiler.Qemu

open QemuProfiler.Lib QemuProfiler.Plugin QemuProfiler.Edges

/-! ## §1. Instrumented translations. -/

/-- Tier 0's registrations, with or without the first-seen callback. -/
def tier0Ops (registers : Bool) (key : TbKey) (scoreboard : Nat) : List TbOp :=
  if registers then
    [.inline (.add (.execCount scoreboard) 1),
      .condCb (.firstSeen key) .eq (.execCount scoreboard) 1]
  else [.inline (.add (.execCount scoreboard) 1)]

/-- Did this translation register the first-seen callback? -/
def Translation.registers (tr : Translation) : Bool :=
  decide (.condCb (.firstSeen tr.tb.key) .eq (.execCount tr.tbMeta.execCount) 1 ∈ tr.instr.tbOps)

/-- The translation carries what the plugin registers in its configuration. -/
structure Instrumented (s : PluginState) (tr : Translation) : Prop where
  instr : tr.instr = instrumentationOf s tr.tb
    (tier0Ops tr.registers tr.tb.key tr.tbMeta.execCount) tr.tbMeta
  start : tr.tbMeta.startAddr = tr.tb.vaddr

theorem instrumentationOf_congr {s s' : PluginState} (hc : s.config = s'.config)
    (ha : s.targetArch = s'.targetArch) (tb : QemuTb) (ops : List TbOp) (tbMeta : TbMeta) :
    instrumentationOf s tb ops tbMeta = instrumentationOf s' tb ops tbMeta := by
  unfold instrumentationOf tier2InsnOps
  rw [hc, ha]

theorem Instrumented.congr {s s' : PluginState} {tr : Translation} (h : Instrumented s tr)
    (hc : s.config = s'.config) (ha : s.targetArch = s'.targetArch) : Instrumented s' tr :=
  ⟨h.instr.trans (instrumentationOf_congr hc ha _ _ _), h.start⟩

/-- The callback is registered iff tier 0 was asked to. -/
theorem registers_eq (s : PluginState) (tb : QemuTb) (tbMeta : TbMeta) (b : Bool) :
    Translation.registers
        ⟨tb, tbMeta, instrumentationOf s tb (tier0Ops b tb.key tbMeta.execCount) tbMeta⟩ = b := by
  unfold Translation.registers instrumentationOf tier0Ops Tier1.tbOps Tier2.tbOps
  dsimp only
  cases b with
  | true => simp
  | false =>
      by_cases h1 : s.config.tier ≥ 1
      · by_cases h2 : s.config.tier ≥ 2
        · simp [h1, h2]
        · simp [h1, h2]
      · by_cases h2 : s.config.tier ≥ 2
        · simp [h1, h2]
        · simp [h1, h2]

/-! ## §2. What an execution does to the executing vCPU. -/

/-- The pending callsite after some instructions. -/
def pendingAfter (arch : Arch) (pending : UInt64) (insns : List QemuInsn) : UInt64 :=
  insns.foldl (fun p insn => if Tier2.classOf arch insn = .indirect then insn.vaddr else p) pending

/-- The scoreboard entry after an execution of which `started` instructions
began. -/
def vcpuAfter (s : PluginState) (tr : Translation) (started : Nat) (vs : VcpuState) : VcpuState :=
  let stored := 1 ≤ s.config.tier ∧ started = tr.tb.insns.length
  { lastTbEnd := if stored then tr.tbMeta.endAddr else vs.lastTbEnd
    fallThroughAddr := if stored then tr.tbMeta.fallThroughAddr else vs.fallThroughAddr
    pendingIndirectCallsite :=
      if 2 ≤ s.config.tier then pendingAfter s.targetArch 0 (tr.tb.insns.take started)
      else vs.pendingIndirectCallsite }

/-- The exec counts after a tick of one scoreboard on one vCPU. -/
def ticked (counts : Nat → Nat → UInt64) (scoreboard v : Nat) : Nat → Nat → UInt64 :=
  Function.update counts scoreboard
    (Function.update (counts scoreboard) v (counts scoreboard v + 1))

theorem ticked_apply (counts : Nat → Nat → UInt64) (scoreboard v sb w : Nat) :
    ticked counts scoreboard v sb w
      = counts sb w + (if sb = scoreboard ∧ w = v then 1 else 0) := by
  unfold ticked
  by_cases hs : sb = scoreboard
  · subst hs
    rw [Function.update_self]
    by_cases hw : w = v
    · subst hw
      simp
    · simp [hw]
  · simp [hs]

/-! ## §3. What an execution does to the plugin. -/

/-- The first-seen callback. -/
def afterSeen (m : Machine) (v : Nat) (tr : Translation) : PluginState :=
  if tr.registers ∧ m.execCounts tr.tbMeta.execCount v = 0 then m.plugin.firstSeenCb tr.tb.key
  else m.plugin

/-- The edge recorded at TB entry, from the scoreboard entry before it. -/
def entryEdge (s : PluginState) (vs : VcpuState) (tr : Translation) : Option Edge :=
  if 1 ≤ s.config.tier ∧ vs.fallThroughAddr ≠ tr.tbMeta.startAddr ∧ vs.lastTbEnd ≠ 0 then
    some ⟨vs.lastTbEnd, tr.tbMeta.startAddr⟩
  else none

/-- The indirect call recorded with it. -/
def entryCall (s : PluginState) (vs : VcpuState) (tr : Translation) : Option (UInt64 × UInt64) :=
  if (entryEdge s vs tr).isSome ∧ 2 ≤ s.config.tier ∧ vs.pendingIndirectCallsite ≠ 0 then
    some (vs.pendingIndirectCallsite, tr.tbMeta.startAddr)
  else none

/-- The calls of `record_edge` of one execution: none or one. -/
def edgeEvents (env : Env) (v : Nat) (edge : Option Edge) : List EdgeEvent :=
  edge.toList.map fun e => ⟨env, v, e⟩

/-- The calls of `record_indirect_call`: none or one. -/
def recordCalls (v : Nat) (s : PluginState) (calls : List (UInt64 × UInt64)) : PluginState :=
  calls.foldl (fun s c => s.recordIndirectCall v c.1 c.2) s

/-- The plugin after an execution. -/
def pluginAfter (env : Env) (v : Nat) (m : Machine) (tr : Translation) : PluginState :=
  recordCalls v
    (run (afterSeen m v tr) (edgeEvents env v (entryEdge m.plugin (m.vcpus v) tr)))
    (entryCall m.plugin (m.vcpus v) tr).toList

/-- What an execution emits. -/
def emittedAt (env : Env) (v : Nat) (m : Machine) (tr : Translation) : Emitted :=
  let evs := edgeEvents env v (entryEdge m.plugin (m.vcpus v) tr)
  { edges := evs.map EdgeEvent.edge
    calls := (entryCall m.plugin (m.vcpus v) tr).toList
    dropped := droppedIn (afterSeen m v tr) evs
    flushed := flushedIn (afterSeen m v tr) evs }

/-! ## §4. The three tiers at TB entry. -/

theorem foldl_tier0Ops (env : Env) (v : Nat) (m : Machine) (tr : Translation) :
    (tier0Ops tr.registers tr.tb.key tr.tbMeta.execCount).foldl (runTbOp env v) (m, Emitted.none)
      = ({ m with
            plugin := afterSeen m v tr
            execCounts := ticked m.execCounts tr.tbMeta.execCount v }, Emitted.none) := by
  -- the condition is on the count after the tick
  have hone : ticked m.execCounts tr.tbMeta.execCount v tr.tbMeta.execCount v = 1
      ↔ m.execCounts tr.tbMeta.execCount v = 0 := by
    rw [ticked_apply, if_pos ⟨rfl, rfl⟩]
    constructor
    · intro h
      exact (UInt64.add_left_inj 1).mp (by rw [h, UInt64.zero_add])
    · intro h
      rw [h, UInt64.zero_add]
  unfold tier0Ops afterSeen
  cases tr.registers with
  | false => rfl
  | true =>
      show runTbOp env v ({ m with
          execCounts := ticked m.execCounts tr.tbMeta.execCount v }, Emitted.none)
        (.condCb (.firstSeen tr.tb.key) .eq (.execCount tr.tbMeta.execCount) 1) = _
      unfold runTbOp
      show (if (ticked m.execCounts tr.tbMeta.execCount v tr.tbMeta.execCount v == 1) = true
        then _ else _) = _
      by_cases hz : m.execCounts tr.tbMeta.execCount v = 0
      · rw [if_pos (beq_iff_eq.mpr (hone.mpr hz)), if_pos ⟨rfl, hz⟩]
        rfl
      · rw [if_neg (fun h => hz (hone.mp (beq_iff_eq.mp h))), if_neg (fun h => hz h.2)]

theorem foldl_tier1Ops (env : Env) (v : Nat) (m : Machine) (tr : Translation) :
    (if m.plugin.config.tier ≥ 1 then Tier1.tbOps tr.tbMeta else []).foldl (runTbOp env v)
        (m, Emitted.none)
      = ({ m with
            plugin := recordCalls v
              (run m.plugin (edgeEvents env v (entryEdge m.plugin (m.vcpus v) tr)))
              (entryCall m.plugin (m.vcpus v) tr).toList },
          { edges := (edgeEvents env v (entryEdge m.plugin (m.vcpus v) tr)).map EdgeEvent.edge
            calls := (entryCall m.plugin (m.vcpus v) tr).toList
            dropped := droppedIn m.plugin (edgeEvents env v (entryEdge m.plugin (m.vcpus v) tr))
            flushed :=
              flushedIn m.plugin (edgeEvents env v (entryEdge m.plugin (m.vcpus v) tr)) }) := by
  by_cases hrec : 1 ≤ m.plugin.config.tier
      ∧ (m.vcpus v).fallThroughAddr ≠ tr.tbMeta.startAddr ∧ (m.vcpus v).lastTbEnd ≠ 0
  · -- the callback runs and records
    obtain ⟨htier, hft, hend⟩ := hrec
    have hedge : entryEdge m.plugin (m.vcpus v) tr
        = some ⟨(m.vcpus v).lastTbEnd, tr.tbMeta.startAddr⟩ := if_pos ⟨htier, hft, hend⟩
    rw [if_pos htier]
    show (if ((m.vcpus v).fallThroughAddr != tr.tbMeta.startAddr) = true then
      branchTakenCb env v m Emitted.none tr.tbMeta.startAddr else _) = _
    rw [if_pos (bne_iff_ne.mpr hft)]
    unfold branchTakenCb
    dsimp only
    rw [if_neg hend, show m.plugin.recordEdge env v (m.vcpus v).lastTbEnd tr.tbMeta.startAddr
      = Edges.step m.plugin ⟨env, v, ⟨(m.vcpus v).lastTbEnd, tr.tbMeta.startAddr⟩⟩ from rfl,
      config_step]
    unfold entryCall
    rw [hedge]
    by_cases hpend : m.plugin.config.tier ≥ 2 ∧ (m.vcpus v).pendingIndirectCallsite ≠ 0
    · rw [if_pos hpend, if_pos ⟨rfl, hpend.1, hpend.2⟩]
      simp [edgeEvents, run, recordCalls, droppedIn, flushedIn, collect, Emitted.none]
    · rw [if_neg hpend, if_neg (fun h => hpend h.2)]
      simp [edgeEvents, run, recordCalls, droppedIn, flushedIn, collect, Emitted.none]
  · -- tier 0, a fall-through or the initial entry
    have hedge : entryEdge m.plugin (m.vcpus v) tr = none := if_neg hrec
    have hcall : entryCall m.plugin (m.vcpus v) tr = none := by
      unfold entryCall
      rw [hedge]
      simp
    have hskip : (if m.plugin.config.tier ≥ 1 then Tier1.tbOps tr.tbMeta else []).foldl
        (runTbOp env v) (m, Emitted.none) = (m, Emitted.none) := by
      by_cases htier : m.plugin.config.tier ≥ 1
      · rw [if_pos htier]
        show (if ((m.vcpus v).fallThroughAddr != tr.tbMeta.startAddr) = true then
          branchTakenCb env v m Emitted.none tr.tbMeta.startAddr else _) = _
        by_cases hft : (m.vcpus v).fallThroughAddr = tr.tbMeta.startAddr
        · rw [if_neg (by simp [hft])]
        · have hend : (m.vcpus v).lastTbEnd = 0 := by
            by_contra hend
            exact hrec ⟨htier, hft, hend⟩
          rw [if_pos (bne_iff_ne.mpr hft)]
          exact if_pos hend
      · rw [if_neg htier]
        rfl
    rw [hskip, hedge, hcall]
    rfl

theorem foldl_tier2Ops (env : Env) (v : Nat) (m : Machine) (out : Emitted) :
    (if m.plugin.config.tier ≥ 2 then Tier2.tbOps else []).foldl (runTbOp env v) (m, out)
      = (if m.plugin.config.tier ≥ 2 then writeSlot m v .pendingIndirectCallsite 0 else m, out) := by
  by_cases htier : m.plugin.config.tier ≥ 2
  · rw [if_pos htier, if_pos htier]
    rfl
  · rw [if_neg htier, if_neg htier]
    rfl

/-! ## §5. The instructions. -/

/-- Replace one vCPU's scoreboard entry. -/
def setVcpu (m : Machine) (v : Nat) (vs : VcpuState) : Machine :=
  { m with vcpus := Function.update m.vcpus v vs }

theorem setVcpu_vcpus (m : Machine) (v : Nat) (vs : VcpuState) :
    (setVcpu m v vs).vcpus v = vs := Function.update_self ..

theorem setVcpu_setVcpu (m : Machine) (v : Nat) (vs vs' : VcpuState) :
    setVcpu (setVcpu m v vs) v vs' = setVcpu m v vs' := by
  unfold setVcpu
  rw [Function.update_idem]

theorem setVcpu_self (m : Machine) (v : Nat) : setVcpu m v (m.vcpus v) = m := by
  unfold setVcpu
  rw [Function.update_eq_self]

/-- Tier 2's stores of a sequence of instructions. -/
theorem foldl_tier2InsnOps (s : PluginState) (v : Nat) (insns : List QemuInsn) :
    ∀ m : Machine,
      (insns.map (tier2InsnOps s)).flatten.foldl (runInline v) m
        = setVcpu m v { m.vcpus v with
            pendingIndirectCallsite :=
              if 2 ≤ s.config.tier then
                pendingAfter s.targetArch (m.vcpus v).pendingIndirectCallsite insns
              else (m.vcpus v).pendingIndirectCallsite } := by
  by_cases htier : 2 ≤ s.config.tier
  · induction insns with
    | nil =>
        intro m
        rw [if_pos htier]
        exact (setVcpu_self m v).symm
    | cons insn insns ih =>
        intro m
        rw [List.map_cons, List.flatten_cons, List.foldl_append, ih, if_pos htier, if_pos htier]
        have hops : tier2InsnOps s insn = Tier2.insnOps s.targetArch insn := if_pos htier
        rw [hops]
        unfold Tier2.insnOps
        by_cases hcls : Tier2.classOf s.targetArch insn = .indirect
        · -- a later indirect instruction overwrites the slot
          have hstore : [InlineOp.store .pendingIndirectCallsite insn.vaddr].foldl (runInline v) m
              = setVcpu m v { m.vcpus v with pendingIndirectCallsite := insn.vaddr } := rfl
          rw [if_pos hcls, hstore, setVcpu_setVcpu, setVcpu_vcpus]
          unfold pendingAfter
          rw [List.foldl_cons, if_pos hcls]
        · rw [if_neg hcls]
          unfold pendingAfter
          rw [List.foldl_nil, List.foldl_cons, if_neg hcls]
  · intro m
    have hnil : (insns.map (tier2InsnOps s)).flatten = [] := by
      rw [List.flatten_eq_nil_iff]
      intro ops hops
      obtain ⟨insn, _, rfl⟩ := List.mem_map.mp hops
      exact if_neg htier
    rw [hnil, if_neg htier]
    exact (setVcpu_self m v).symm

/-- Tier 1's stores. -/
theorem foldl_tier1InsnOps (s : PluginState) (v : Nat) (m : Machine) (tbMeta : TbMeta) :
    (if s.config.tier ≥ 1 then Tier1.lastInsnOps tbMeta else []).foldl (runInline v) m
      = setVcpu m v { m.vcpus v with
          lastTbEnd := if 1 ≤ s.config.tier then tbMeta.endAddr else (m.vcpus v).lastTbEnd
          fallThroughAddr :=
            if 1 ≤ s.config.tier then tbMeta.fallThroughAddr
            else (m.vcpus v).fallThroughAddr } := by
  by_cases htier : 1 ≤ s.config.tier
  · rw [if_pos htier, if_pos htier, if_pos htier]
    show setVcpu (setVcpu m v { m.vcpus v with lastTbEnd := tbMeta.endAddr }) v
      { (setVcpu m v { m.vcpus v with lastTbEnd := tbMeta.endAddr }).vcpus v with
        fallThroughAddr := tbMeta.fallThroughAddr } = _
    rw [setVcpu_setVcpu, setVcpu_vcpus]
  · rw [if_neg htier, if_neg htier, if_neg htier]
    exact (setVcpu_self m v).symm

/-- The operations of the first `started` instructions: all of them with tier
1's stores before the last one's own, or a proper prefix without. -/
theorem take_insnOps (s : PluginState) (tb : QemuTb) (ops : List TbOp) (tbMeta : TbMeta)
    {started : Nat} (h : started ≤ tb.insns.length) :
    ((instrumentationOf s tb ops tbMeta).insnOps.take started).flatten
      = if started = tb.insns.length then
          (tb.insns.dropLast.map (tier2InsnOps s)).flatten
            ++ ((if s.config.tier ≥ 1 then Tier1.lastInsnOps tbMeta else [])
              ++ ([tb.insns.getLast tb.nonempty].map (tier2InsnOps s)).flatten)
        else ((tb.insns.take started).map (tier2InsnOps s)).flatten := by
  have hpos : 0 < tb.insns.length := List.length_pos_iff.mpr tb.nonempty
  have hlen : tb.insns.dropLast.length = tb.insns.length - 1 := List.length_dropLast
  unfold instrumentationOf
  dsimp only
  by_cases hall : started = tb.insns.length
  · rw [if_pos hall, List.take_of_length_le
      (by rw [List.length_append, List.length_map, hlen, List.length_singleton]; omega)]
    simp
  · have hlt : started ≤ tb.insns.length - 1 := by omega
    rw [if_neg hall, List.take_append_of_le_length (by rw [List.length_map, hlen]; exact hlt),
        ← List.map_take, List.dropLast_eq_take, List.take_take, Nat.min_eq_left hlt]

/-- **What the instructions leave** in the scoreboard entry. -/
theorem startInsns_eq (s : PluginState) (v : Nat) (m : Machine) (tb : QemuTb)
    (ops : List TbOp) (tbMeta : TbMeta) {started : Nat} (h : started ≤ tb.insns.length) :
    startInsns v m (instrumentationOf s tb ops tbMeta) started
      = setVcpu m v
          { lastTbEnd :=
              if 1 ≤ s.config.tier ∧ started = tb.insns.length then tbMeta.endAddr
              else (m.vcpus v).lastTbEnd
            fallThroughAddr :=
              if 1 ≤ s.config.tier ∧ started = tb.insns.length then tbMeta.fallThroughAddr
              else (m.vcpus v).fallThroughAddr
            pendingIndirectCallsite :=
              if 2 ≤ s.config.tier then
                pendingAfter s.targetArch (m.vcpus v).pendingIndirectCallsite
                  (tb.insns.take started)
              else (m.vcpus v).pendingIndirectCallsite } := by
  unfold startInsns
  rw [take_insnOps s tb ops tbMeta h]
  by_cases hall : started = tb.insns.length
  · -- the last instruction has tier 1's stores before tier 2's
    subst hall
    have hsplit : pendingAfter s.targetArch (m.vcpus v).pendingIndirectCallsite tb.insns
        = pendingAfter s.targetArch (pendingAfter s.targetArch
            (m.vcpus v).pendingIndirectCallsite tb.insns.dropLast)
            [tb.insns.getLast tb.nonempty] := by
      unfold pendingAfter
      rw [← List.foldl_append, List.dropLast_append_getLast]
    rw [if_pos rfl, List.foldl_append, List.foldl_append, foldl_tier2InsnOps,
        foldl_tier1InsnOps, foldl_tier2InsnOps, setVcpu_setVcpu, setVcpu_setVcpu,
        setVcpu_vcpus, setVcpu_vcpus, List.take_length]
    congr 1
    by_cases h2 : 2 ≤ s.config.tier
    · simp [h2, hsplit]
    · simp [h2]
  · rw [if_neg hall, foldl_tier2InsnOps]
    simp [hall]

/-! ## §6. The whole execution. -/

theorem config_afterSeen (m : Machine) (v : Nat) (tr : Translation) :
    (afterSeen m v tr).config = m.plugin.config := by
  unfold afterSeen
  split <;> rfl

theorem entryEdge_congr {s s' : PluginState} (hc : s.config = s'.config) (vs : VcpuState)
    (tr : Translation) : entryEdge s vs tr = entryEdge s' vs tr := by
  unfold entryEdge
  rw [hc]

theorem entryCall_congr {s s' : PluginState} (hc : s.config = s'.config) (vs : VcpuState)
    (tr : Translation) : entryCall s vs tr = entryCall s' vs tr := by
  unfold entryCall
  rw [entryEdge_congr hc, hc]

/-- Recording calls touches the call maps, and keeps their number. -/
theorem recordCalls_frame (v : Nat) (calls : List (UInt64 × UInt64)) :
    ∀ s : PluginState, ∃ maps, recordCalls v s calls = { s with indirectCalls := maps }
      ∧ maps.length = s.indirectCalls.length := by
  induction calls with
  | nil => intro s; exact ⟨s.indirectCalls, rfl, rfl⟩
  | cons c calls ih =>
      intro s
      show ∃ maps, recordCalls v (s.recordIndirectCall v c.1 c.2) calls = _ ∧ _
      unfold PluginState.recordIndirectCall
      cases hm : s.indirectCalls[v]? with
      | none => exact ih s
      | some vcpuMap =>
          obtain ⟨maps, heq, hlen⟩ := ih { s with indirectCalls := s.indirectCalls.set v _ }
          refine ⟨maps, heq, ?_⟩
          rw [hlen, List.length_set]

/-- **The frame of an execution**: besides what the first-seen callback did,
only slots, call maps, flushed counts and the log may differ, and there are
as many slots and maps as before. -/
theorem pluginAfter_eq (env : Env) (v : Nat) (m : Machine) (tr : Translation) :
    ∃ accs flushed writer maps,
      pluginAfter env v m tr = { afterSeen m v tr with
        edgeAccumulators := accs, flushedBranchEntries := flushed, writer := writer
        indirectCalls := maps }
        ∧ accs.length = (afterSeen m v tr).edgeAccumulators.length
        ∧ maps.length = (afterSeen m v tr).indirectCalls.length := by
  obtain ⟨accs, flushed, writer, hrun, haccs⟩ := run_frame
    (edgeEvents env v (entryEdge m.plugin (m.vcpus v) tr)) (afterSeen m v tr)
  obtain ⟨maps, hcalls, hmaps⟩ := recordCalls_frame v
    (entryCall m.plugin (m.vcpus v) tr).toList
    (run (afterSeen m v tr) (edgeEvents env v (entryEdge m.plugin (m.vcpus v) tr)))
  refine ⟨accs, flushed, writer, maps, ?_, haccs, ?_⟩
  · unfold pluginAfter
    rw [hcalls, hrun]
  · rw [hrun] at hmaps
    exact hmaps

theorem config_pluginAfter (env : Env) (v : Nat) (m : Machine) (tr : Translation) :
    (pluginAfter env v m tr).config = m.plugin.config := by
  obtain ⟨accs, flushed, writer, maps, h, _⟩ := pluginAfter_eq env v m tr
  rw [h]
  exact config_afterSeen m v tr

/-- **ONE EXECUTION**: the machine and what is emitted. -/
theorem execTb_eq (env : Env) (v : Nat) (m : Machine) {tr : Translation} {started : Nat}
    (htr : Instrumented m.plugin tr) (h : started ≤ tr.tb.insns.length) :
    execTb env v m tr started
      = ({ m with
            plugin := pluginAfter env v m tr
            execCounts := ticked m.execCounts tr.tbMeta.execCount v
            vcpus := Function.update m.vcpus v (vcpuAfter m.plugin tr started (m.vcpus v)) },
          emittedAt env v m tr) := by
  -- the callbacks run in registration order: first-seen, edge, call, then the insns
  unfold execTb enterTb
  have hseen := config_afterSeen m v tr
  rw [htr.instr]
  have htbOps : (instrumentationOf m.plugin tr.tb
      (tier0Ops tr.registers tr.tb.key tr.tbMeta.execCount) tr.tbMeta).tbOps
      = tier0Ops tr.registers tr.tb.key tr.tbMeta.execCount
        ++ ((if (afterSeen m v tr).config.tier ≥ 1 then Tier1.tbOps tr.tbMeta else [])
        ++ (if (pluginAfter env v m tr).config.tier ≥ 2 then Tier2.tbOps else [])) := by
    rw [hseen, config_pluginAfter]
    rfl
  rw [htbOps, List.foldl_append, foldl_tier0Ops, List.foldl_append, foldl_tier1Ops]
  dsimp only
  rw [entryEdge_congr hseen, entryCall_congr hseen]
  show (startInsns v (List.foldl (runTbOp env v) ({ m with
      plugin := pluginAfter env v m tr
      execCounts := ticked m.execCounts tr.tbMeta.execCount v }, emittedAt env v m tr) _).1 _ _,
    (List.foldl (runTbOp env v) ({ m with
      plugin := pluginAfter env v m tr
      execCounts := ticked m.execCounts tr.tbMeta.execCount v }, emittedAt env v m tr) _).2) = _
  rw [foldl_tier2Ops, startInsns_eq _ _ _ _ _ _ h, config_pluginAfter]
  by_cases h2 : m.plugin.config.tier ≥ 2
  · rw [if_pos h2, if_pos h2]
    show (setVcpu (setVcpu _ v _) v _, _) = _
    rw [setVcpu_setVcpu]
    simp [setVcpu, vcpuAfter, writeSlot, h2]
  · rw [if_neg h2, if_neg h2]
    simp [setVcpu, vcpuAfter, h2]

end QemuProfiler.Qemu

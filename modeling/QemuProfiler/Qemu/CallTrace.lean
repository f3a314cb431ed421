/-
  QemuProfiler.Qemu.CallTrace
  ───────────────────────────
  **INDIRECT CALLS AGAINST THE EXECUTION TRACE** (tier 2).

  The pending callsite is a relay with one slot per vCPU: an indirect
  instruction sets it, the branch callback of the NEXT TB reads it, and that
  TB clears it right afterwards.  `CallTracks` says what is in the slot, and
  `recorded_calls_exact` that each callsite is paired with the TB that
  follows it, at most once, and with no other.
-/
import QemuProfiler.Qemu.EdgeTrace

namespace QemuProfiler.Qemu

open QemuProfiler.Lib QemuProfiler.Plugin QemuProfiler.Edges

/-! ## §1. The counters. -/

/-- The count of one callsite and target in one vCPU's map. -/
def callsIn (cs tgt : UInt64) (vcpuMap : HashMap UInt64 (HashMap UInt64 UInt64)) : UInt64 :=
  ((vcpuMap.lookup cs).bind fun targets => targets.lookup tgt).getD 0

/-- The count over all vCPU maps. -/
def callCount (s : PluginState) (cs tgt : UInt64) : UInt64 :=
  (s.indirectCalls.map (callsIn cs tgt)).sum

/-- One more call in one map. -/
theorem callsIn_insert (vcpuMap : HashMap UInt64 (HashMap UInt64 UInt64))
    (c t cs tgt : UInt64) :
    callsIn cs tgt (vcpuMap.insert c (((vcpuMap.lookup c).getD ∅).bump t 1))
      = callsIn cs tgt vcpuMap + (if (c, t) = (cs, tgt) then 1 else 0) := by
  unfold callsIn
  by_cases hc : cs = c
  · subst hc
    rw [AList.lookup_insert, Option.bind_some, HashMap.lookup_bump]
    by_cases ht : tgt = t
    · subst ht
      rw [if_pos rfl, if_pos rfl, Option.getD_some]
      cases vcpuMap.lookup cs with
      | none => rfl
      | some targets => rfl
    · rw [if_neg ht, if_neg (fun h => ht (Prod.mk.inj h).2.symm), add_zero]
      cases vcpuMap.lookup cs with
      | none => rfl
      | some targets => rfl
  · rw [AList.lookup_insert_ne hc, if_neg (fun h => hc (Prod.mk.inj h).1.symm), add_zero]

/-- **One recorded call adds one**, at its callsite and target. -/
theorem callCount_recordIndirectCall (s : PluginState) {v : Nat}
    (hv : v < s.indirectCalls.length) (c t cs tgt : UInt64) :
    callCount (s.recordIndirectCall v c t) cs tgt
      = callCount s cs tgt + (if (c, t) = (cs, tgt) then 1 else 0) := by
  have hget : s.indirectCalls[v]? = some s.indirectCalls[v] := List.getElem?_eq_getElem hv
  have hsplit : s.indirectCalls
      = s.indirectCalls.take v ++ s.indirectCalls[v] :: s.indirectCalls.drop (v + 1) := by
    rw [← List.drop_eq_getElem_cons, List.take_append_drop]
  unfold callCount PluginState.recordIndirectCall
  rw [hget]
  dsimp only
  conv_rhs => rw [hsplit]
  rw [List.set_eq_take_append_cons_drop, if_pos hv, List.map_append, List.map_append,
      List.map_cons, List.map_cons, List.sum_append, List.sum_append, List.sum_cons,
      List.sum_cons, callsIn_insert]
  abel

/-- The calls of one execution. -/
theorem callCount_recordCalls (v : Nat) (cs tgt : UInt64) (calls : List (UInt64 × UInt64)) :
    ∀ s : PluginState, v < s.indirectCalls.length →
      callCount (recordCalls v s calls) cs tgt
        = callCount s cs tgt + UInt64.ofNat (calls.countP fun c => decide (c = (cs, tgt))) := by
  induction calls with
  | nil =>
      intro s _
      show callCount s cs tgt = callCount s cs tgt + 0
      rw [add_zero]
  | cons c calls ih =>
      intro s hv
      have hlen : (s.recordIndirectCall v c.1 c.2).indirectCalls.length
          = s.indirectCalls.length := by
        obtain ⟨maps, heq, hlen⟩ := recordCalls_frame v [c] s
        show (recordCalls v s [c]).indirectCalls.length = _
        rw [heq]
        exact hlen
      show callCount (recordCalls v (s.recordIndirectCall v c.1 c.2) calls) cs tgt = _
      rw [ih _ (by rw [hlen]; exact hv), callCount_recordIndirectCall s hv]
      by_cases hc : c = (cs, tgt)
      · rw [if_pos hc, List.countP_cons_of_pos (by simpa using hc), UInt64.ofNat_add, add_assoc,
            add_comm (1 : UInt64)]
        rfl
      · rw [if_neg hc, List.countP_cons_of_neg (by simpa using hc), add_zero]

/-! ## §2. The relay follows the trace. -/

/-- The address of the last indirect instruction. -/
def lastIndirect (arch : Arch) (insns : List QemuInsn) : Option UInt64 :=
  (insns.filter fun insn => Tier2.classOf arch insn = .indirect).getLast?.map QemuInsn.vaddr

/-- What is pending after some instructions: the last indirect one. -/
theorem pendingAfter_eq (arch : Arch) (insns : List QemuInsn) (pending : UInt64) :
    pendingAfter arch pending insns = (lastIndirect arch insns).getD pending := by
  induction insns using List.reverseRecOn with
  | nil => rfl
  | append_singleton insns insn ih =>
      unfold pendingAfter lastIndirect at ih ⊢
      rw [List.foldl_append, List.filter_append, ih]
      by_cases hc : Tier2.classOf arch insn = .indirect
      · simp [hc]
      · simp [hc]

/-- **THE SIMULATION**: what the last execution of a vCPU left pending. -/
def CallTracks (m : Machine) (rs : List ExecRecord) : Prop :=
  ∀ v, (m.vcpus v).pendingIndirectCallsite
    = ((onVcpu v rs).getLast?.bind fun r =>
        lastIndirect m.plugin.targetArch (r.tr.tb.insns.take r.started)).getD 0

/-- The call between an execution and the next one; the sentinel is no
callsite. -/
def callBetween (arch : Arch) (prev : Option ExecRecord) (r : ExecRecord) :
    List (UInt64 × UInt64) :=
  match prev with
  | none => []
  | some p =>
      if (lastIndirect arch p.tr.tb.insns).getD 0 ≠ 0
          ∧ r.tr.tbMeta.startAddr ≠ p.tr.tbMeta.fallThroughAddr ∧ p.tr.tbMeta.endAddr ≠ 0 then
        [((lastIndirect arch p.tr.tb.insns).getD 0, r.tr.tbMeta.startAddr)]
      else []

theorem CallTracks.exec {m : Machine} {rs : List ExecRecord} (h : CallTracks m rs)
    (htier : 2 ≤ m.plugin.config.tier) (r : ExecRecord) (m' : Machine)
    (harch : m'.plugin.targetArch = m.plugin.targetArch)
    (hm' : m'.vcpus
      = Function.update m.vcpus r.vcpu (vcpuAfter m.plugin r.tr r.started (m.vcpus r.vcpu))) :
    CallTracks m' (rs ++ [r]) := by
  intro v
  rw [hm', harch, onVcpu_concat]
  by_cases hv : v = r.vcpu
  · subst hv
    rw [Function.update_self, if_pos rfl, List.getLast?_append]
    unfold vcpuAfter
    dsimp only
    rw [if_pos htier, pendingAfter_eq]
    rfl
  · rw [Function.update_of_ne hv, if_neg (Ne.symm hv), List.append_nil]
    exact h v

/-- The callsite that the last execution of a vCPU left pending. -/
def leftPending (arch : Arch) (v : Nat) (past : List ExecRecord) : UInt64 :=
  ((onVcpu v past).getLast?.bind fun p =>
    lastIndirect arch (p.tr.tb.insns.take p.started)).getD 0

/-- The call paired at an entry: when the branch callback records. -/
def pairedCall (arch : Arch) (past : List ExecRecord) (r : ExecRecord) : List (UInt64 × UInt64) :=
  if branchEdge (lastComplete r.vcpu past) r ≠ [] ∧ leftPending arch r.vcpu past ≠ 0 then
    [(leftPending arch r.vcpu past, r.tr.tbMeta.startAddr)]
  else []

/-- When everything completes, it is the call of the previous execution. -/
theorem pairedCall_of_complete (arch : Arch) {past : List ExecRecord}
    (h : ∀ p ∈ past, p.complete = true) (r : ExecRecord) :
    pairedCall arch past r = callBetween arch (onVcpu r.vcpu past).getLast? r := by
  unfold pairedCall leftPending callBetween
  rw [lastComplete_eq_getLast? h]
  cases hlast : (onVcpu r.vcpu past).getLast? with
  | none =>
      -- the first execution of the vCPU: nothing is pending
      rw [if_neg]
      intro hand
      exact hand.2 rfl
  | some p =>
      have hall : p.tr.tb.insns.take p.started = p.tr.tb.insns := by
        have hc := h p (List.mem_of_mem_filter (List.mem_of_getLast? hlast))
        rw [of_decide_eq_true hc, List.take_length]
      have hedge : branchEdge (some p) r ≠ [] ↔ p.tr.tbMeta.endAddr ≠ 0
          ∧ r.tr.tbMeta.startAddr ≠ p.tr.tbMeta.fallThroughAddr := by
        unfold branchEdge
        dsimp only
        split <;> simp [*]
      rw [Option.bind_some, hall]
      dsimp only
      by_cases hz : (lastIndirect arch p.tr.tb.insns).getD 0 ≠ 0
          ∧ r.tr.tbMeta.startAddr ≠ p.tr.tbMeta.fallThroughAddr ∧ p.tr.tbMeta.endAddr ≠ 0
      · rw [if_pos hz, if_pos ⟨hedge.mpr ⟨hz.2.2, hz.2.1⟩, hz.1⟩]
      · rw [if_neg hz, if_neg]
        intro hand
        obtain ⟨hend, hft⟩ := hedge.mp hand.1
        exact hz ⟨hand.2, hft, hend⟩

/-! ## §3. Every run. -/

section Runs

variable {config : PluginConfig} {tier3 sysemu : Bool} {arch : String} {host : HostInfo}
  {evs : List Event} {m : Machine} {rs : List ExecRecord}

/-- Every run keeps the simulation of the relay. -/
theorem callTracks_run
    (h : runFrom (Machine.init config tier3 sysemu arch host) evs = some (m, rs))
    (htier : 2 ≤ config.tier) : CallTracks m rs := by
  refine runFrom_induction CallTracks (fun v => rfl) ?_ ?_ (fun m rs hp => hp) ?_ h
  · intro m rs v plugin hp hpl
    obtain ⟨i, j, rfl, _⟩ := ensureVcpuState_eq hpl
    exact hp
  · intro m rs tb _ hp v
    have ht := vcpuTbTrans_spec m.host m.nextScoreboard m.plugin tb
    have harch : (translate m tb).plugin.targetArch = m.plugin.targetArch := ht.same.targetArch
    rw [harch]
    exact hp v
  · intro m rs env v tr started hreach hp _ _ _
    obtain ⟨evs, hreach⟩ := hreach
    exact hp.exec ((runFrom_inv hreach).tier_le htier) ⟨v, tr, started, emittedAt env v m tr⟩ _ (pluginAfter_frame env v m tr).1 rfl

/-- **WHAT EACH ENTRY PAIRS**, in every run. -/
theorem pairedCall_along
    (h : runFrom (Machine.init config tier3 sysemu arch host) evs = some (m, rs))
    (htier : 2 ≤ config.tier) :
    Along (fun past r => r.emitted.calls = pairedCall (Arch.fromName arch) past r) rs := by
  have htier1 : 1 ≤ config.tier := UInt8.le_trans (by decide) htier
  refine runFrom_induction (fun _ rs =>
      Along (fun past r => r.emitted.calls = pairedCall (Arch.fromName arch) past r) rs)
    (along_nil _) (fun m rs v plugin hp _ => hp) (fun m rs tb _ hp => hp) (fun m rs hp => hp) ?_ h
  intro m rs env v tr started hreach hp _ _ _
  obtain ⟨evs, hreach⟩ := hreach
  have hinv := runFrom_inv hreach
  have hedge := (tracks_run hreach htier1).entryEdge_eq (hinv.tier_le htier1)
    ⟨v, tr, started, emittedAt env v m tr⟩
  have hpend := callTracks_run hreach htier v
  rw [hinv.arch_eq] at hpend
  rw [along_concat]
  refine ⟨hp, ?_⟩
  show (entryCall m.plugin (m.vcpus v) tr).toList = _
  unfold pairedCall entryCall leftPending
  rw [← hedge, ← hpend]
  dsimp only
  cases entryEdge m.plugin (m.vcpus v) tr with
  | none => simp
  | some e =>
      by_cases hz : (m.vcpus v).pendingIndirectCallsite = 0
      · simp [hz]
      · simp [hz, hinv.tier_le htier]

/-- **WHAT EACH ENTRY PAIRS**, in every run of completed executions. -/
theorem calls_along (h : runFrom (Machine.init config tier3 sysemu arch host) evs = some (m, rs))
    (htier : 2 ≤ config.tier) (hcomplete : ∀ r ∈ rs, r.complete = true) :
    Along (fun past r => r.emitted.calls
      = callBetween (Arch.fromName arch) (ofParty ExecRecord.vcpu r.vcpu past).getLast? r) rs := by
  intro past r rest hsplit
  rw [pairedCall_along h htier past r rest hsplit]
  refine pairedCall_of_complete _ ?_ r
  intro p hp
  exact hcomplete p (by rw [hsplit]; exact List.mem_append_left _ hp)

/-- Recording edges leaves the call maps alone. -/
theorem callCount_run (s : PluginState) (evs : List EdgeEvent) (cs tgt : UInt64) :
    callCount (run s evs) cs tgt = callCount s cs tgt := by
  obtain ⟨accs, flushed, writer, heq, _⟩ := run_frame evs s
  rw [heq]
  rfl

/-- **THE ACCOUNT OF THE CALLS** of a run. -/
theorem calls_accounted
    (h : runFrom (Machine.init config tier3 sysemu arch host) evs = some (m, rs))
    (htier : 2 ≤ config.tier) (cs tgt : UInt64) :
    callCount m.plugin cs tgt = UInt64.ofNat
      ((rs.flatMap fun r => r.emitted.calls).countP fun c => decide (c = (cs, tgt))) := by
  refine runFrom_induction (fun m rs => callCount m.plugin cs tgt = UInt64.ofNat
      ((rs.flatMap fun r => r.emitted.calls).countP fun c => decide (c = (cs, tgt))))
    rfl ?_ ?_ (fun m rs hp => hp) ?_ h
  · -- a new vCPU starts with an empty map
    intro m rs v plugin hp hpl
    obtain ⟨i, j, rfl, _⟩ := ensureVcpuState_eq hpl
    have hfresh : ((List.replicate j (∅ : HashMap UInt64 (HashMap UInt64 UInt64))).map
        (callsIn cs tgt)).sum = 0 := by
      apply List.sum_eq_zero
      intro x hx
      obtain ⟨vcpuMap, hmem, rfl⟩ := List.mem_map.mp hx
      rw [List.eq_of_mem_replicate hmem]
      rfl
    rw [← hp]
    show ((m.plugin.indirectCalls ++ List.replicate j ∅).map (callsIn cs tgt)).sum = _
    rw [List.map_append, List.sum_append, hfresh, add_zero]
    rfl
  · intro m rs tb _ hp
    have ht := vcpuTbTrans_spec m.host m.nextScoreboard m.plugin tb
    have hsame : callCount (translate m tb).plugin cs tgt = callCount m.plugin cs tgt := by
      unfold callCount
      exact congrArg (fun l => (l.map (callsIn cs tgt)).sum) ht.same.indirectCalls
    rw [hsame]
    exact hp
  · -- the first-seen and edge callbacks leave the call maps alone
    intro m rs env v tr started hreach hp _ hv _
    obtain ⟨evs, hreach⟩ := hreach
    have hseen : callCount (afterSeen m v tr) cs tgt = callCount m.plugin cs tgt
        ∧ (afterSeen m v tr).indirectCalls.length = m.plugin.indirectCalls.length := by
      unfold afterSeen
      split <;> exact ⟨rfl, rfl⟩
    have hlen : v < (run (afterSeen m v tr)
        (edgeEvents env v (entryEdge m.plugin (m.vcpus v) tr))).indirectCalls.length := by
      obtain ⟨accs, flushed, writer, heq, _⟩ := run_frame
        (edgeEvents env v (entryEdge m.plugin (m.vcpus v) tr)) (afterSeen m v tr)
      rw [heq]
      show v < (afterSeen m v tr).indirectCalls.length
      rw [hseen.2]
      exact lt_of_lt_of_le hv ((runFrom_inv hreach).callSlots htier)
    rw [List.flatMap_append, List.flatMap_singleton, List.countP_append, UInt64.ofNat_add, ← hp]
    show callCount (recordCalls v _ _) cs tgt = _
    rw [callCount_recordCalls v cs tgt _ _ hlen, callCount_run, hseen.1]
    rfl

/-! ## §4. Completed executions. -/

/-- Two executions with an indirect call from `cs` to `tgt` between them. -/
def callsFrom (arch : Arch) (cs tgt : UInt64) (a b : ExecRecord) : Bool :=
  cs ≠ 0 ∧ lastIndirect arch a.tr.tb.insns = some cs ∧ b.tr.tbMeta.startAddr = tgt
    ∧ tgt ≠ a.tr.tbMeta.fallThroughAddr ∧ a.tr.tbMeta.endAddr ≠ 0

theorem count_callBetween (arch : Arch) (cs tgt : UInt64) (a b : ExecRecord) :
    (callBetween arch (some a) b).countP (fun c => decide (c = (cs, tgt)))
      = if callsFrom arch cs tgt a b then 1 else 0 := by
  unfold callBetween callsFrom
  dsimp only
  cases hind : lastIndirect arch a.tr.tb.insns with
  | none => simp
  | some cs' =>
      rw [Option.getD_some]
      by_cases hb : cs' ≠ 0 ∧ b.tr.tbMeta.startAddr ≠ a.tr.tbMeta.fallThroughAddr
          ∧ a.tr.tbMeta.endAddr ≠ 0
      · rw [if_pos hb, List.countP_singleton]
        simp only [Prod.mk.injEq, Option.some.injEq, decide_eq_true_eq]
        congr 1
        rw [eq_iff_iff]
        constructor
        · intro hand
          obtain ⟨rfl, rfl⟩ := hand
          exact ⟨hb.1, rfl, rfl, hb.2⟩
        · intro hand
          obtain ⟨_, hcs, htgt, _⟩ := hand
          exact ⟨hcs, htgt⟩
      · rw [if_neg hb, List.countP_nil, if_neg]
        rw [decide_eq_true_eq, Option.some.injEq]
        intro hand
        obtain ⟨hz, rfl, rfl, hne⟩ := hand
        exact hb ⟨hz, hne⟩

/-- **INDIRECT CALL PAIRING IS EXACT** on completed executions, for any number
of vCPUs and any interleaving:
  • each vCPU pairs the last indirect instruction of an execution with the TB
    it executes next, if that is not its fall-through, and nothing else,
  • at most one pair is recorded at an entry,
  • the final count of a callsite and target over all vCPU maps is the number
    of such pairs. -/
theorem recorded_calls_exact
    (h : runFrom (Machine.init config tier3 sysemu arch host) evs = some (m, rs))
    (htier : 2 ≤ config.tier) (hcomplete : ∀ r ∈ rs, r.complete = true) :
    (∀ v, (onVcpu v rs).flatMap (fun r => r.emitted.calls)
        = (pairs (onVcpu v rs)).flatMap fun ab =>
            callBetween (Arch.fromName arch) (some ab.1) ab.2)
      ∧ (∀ r ∈ rs, r.emitted.calls.length ≤ 1)
      ∧ ∀ cs tgt, callCount m.plugin cs tgt
          = UInt64.ofNat (pairCount ExecRecord.vcpu m.numVcpus
              (callsFrom (Arch.fromName arch) cs tgt) rs) := by
  have halong := calls_along h htier hcomplete
  have hinv := runFrom_inv h
  refine ⟨?_, ?_, ?_⟩
  -- the relay along one vCPU, one entry, and the sum over the maps
  · intro v
    exact flatMap_pairs ExecRecord.vcpu (fun r => r.emitted.calls) (callBetween _)
      (fun _ => rfl) v rs halong
  · intro r hr
    obtain ⟨past, rest, hsplit⟩ := List.append_of_mem hr
    rw [halong past r rest hsplit]
    unfold callBetween
    cases (ofParty ExecRecord.vcpu r.vcpu past).getLast? with
    | none => exact Nat.zero_le 1
    | some p =>
        dsimp only
        split
        · exact le_refl 1
        · exact Nat.zero_le 1
  · intro cs tgt
    rw [calls_accounted h htier cs tgt,
        countP_relay ExecRecord.vcpu m.numVcpus (fun r => r.emitted.calls) (callBetween _)
          (fun _ => rfl) rs (fun r hr => (hinv.executed r hr).2) halong _ _
          (count_callBetween (Arch.fromName arch) cs tgt)]

/-- A block that ends in a return (RISC-V `jalr`). -/
def retBlock (vaddr : UInt64) : QemuTb :=
  { vaddr := vaddr
    insns := [{ vaddr := vaddr, size := 4, data := [0x13, 0, 0, 0], symbol := none },
      { vaddr := vaddr + 4, size := 4, data := [0x67, 0x80, 0, 0], symbol := none }]
    nonempty := by simp }

/-- A return to another block, on each of two vCPUs, interleaved. -/
def returnEvents : List Event :=
  [.vcpuInit 0, .vcpuInit 1, .translate (retBlock 0x10), .translate (nopBlock 0x40 0),
    .exec 0 0 2 ⟨[], 0⟩, .exec 1 0 2 ⟨[], 0⟩, .exec 1 1 1 ⟨[], 0⟩, .exec 0 1 1 ⟨[], 0⟩]

theorem recorded_calls_two_returns :
    callCount (outcome 2 returnEvents).1.plugin 0x14 0x40 = 2 :=
  ((recorded_calls_exact (runFrom_outcome _ _ (by decide)) (by decide) (by decide)).2.2
    0x14 0x40).trans (by decide)

end Runs

end QemuProfiler.Qemu

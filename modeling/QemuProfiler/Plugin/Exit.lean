/-
  QemuProfiler.Plugin.Exit
  ────────────────────────
  The exit handler (`plugin_exit` in `lib.rs`) and the fall-through
  computation (`compute_fall_throughs` in `tier1.rs`).

  The handler is the list of writer calls it makes (`exitCalls`), each one
  with its result dropped.  `execSum` is `qemu_plugin_u64_sum` on a
  scoreboard; all map iteration orders are in `ExitOrders`, with ONE order
  for every pass over the unchanged `tb_map`.
-/
import QemuProfiler.Plugin.Instrument

namespace QemuProfiler.Plugin

open QemuProfiler.Lib

/-! ## §1. Orders. -/

/-- The iteration orders of the exit handler, and its clock. -/
structure ExitOrders where
  symbols : IterOrder
  tbMap : IterOrder
  /-- Drain order of each vCPU's accumulator. -/
  drains : Nat → IterOrder
  mergedEdges : IterOrder
  flushed : IterOrder
  /-- Order in which `sort_unstable_by_key` leaves equal keys. -/
  tbIndexTies : IterOrder
  directCalls : IterOrder
  /-- Callsites of each vCPU's indirect-call map. -/
  callsites : Nat → IterOrder
  /-- Targets of each callsite of each vCPU. -/
  targets : Nat → UInt64 → IterOrder
  mergedCalls : IterOrder
  deviceAccesses : IterOrder
  disconEvents : IterOrder
  wallTimeNs : UInt64

/-- All maps in the order of their lists. -/
def listOrders : ExitOrders :=
  { symbols := [], tbMap := [], drains := fun _ => [], mergedEdges := [], flushed := []
    tbIndexTies := [], directCalls := [], callsites := fun _ => [], targets := fun _ _ => []
    mergedCalls := [], deviceAccesses := [], disconEvents := [], wallTimeNs := 0 }

/-- `tb_map.values()`. -/
def tbMetas (o : ExitOrders) (state : PluginState) : List TbMeta :=
  (state.tbMap.iter o.tbMap).map Prod.snd

theorem tbMetas_perm (o : ExitOrders) (state : PluginState) :
    (tbMetas o state).Perm (state.tbMap.items.map Prod.snd) :=
  (shuffle_perm o.tbMap state.tbMap.items).map Prod.snd

/-! ## §2. Fall-throughs. -/

/-- Branch entries by target: flushed counts first, then the exit edges. -/
def branchEntryCounts (o : ExitOrders) (branchEdges : List Triple)
    (extraBranchEntries : HashMap UInt64 UInt64) : HashMap UInt64 UInt64 :=
  let counts := (extraBranchEntries.iter o.flushed).foldl (fun m e => m.bump e.1 e.2) ∅
  branchEdges.foldl (fun m e => m.bump e.2.1 e.2.2) counts

/-- `fall_through_addr` → `end_addr` of a predecessor (the last one wins). -/
def predecessors (metas : List TbMeta) : HashMap UInt64 UInt64 :=
  metas.foldl (fun m tb => m.insert tb.fallThroughAddr tb.endAddr) ∅

/-- The body of the loop over TBs: at most one fall-through edge into
`startAddr`, from the predecessor if one is known. -/
def fallThroughEdge (pred : Option UInt64) (startAddr totalExec branchCount : UInt64) :
    Option Triple :=
  if totalExec = 0 then none
  else
    -- saturating_sub
    let ftCount := if branchCount ≤ totalExec then totalExec - branchCount else 0
    if 0 < ftCount then pred.map fun predEnd => (predEnd, startAddr, ftCount)
    else none

/-- The loop body with its map lookups. -/
def fallThroughOf (counts preds : HashMap UInt64 UInt64) (execSum : Nat → UInt64)
    (tb : TbMeta) : Option Triple :=
  fallThroughEdge (preds.lookup tb.startAddr) tb.startAddr (execSum tb.execCount)
    ((counts.lookup tb.startAddr).getD 0)

/-- Compute fall-through edges at exit time. -/
def computeFallThroughs (o : ExitOrders) (state : PluginState) (execSum : Nat → UInt64)
    (branchEdges : List Triple) (extraBranchEntries : HashMap UInt64 UInt64) : List Triple :=
  let metas := tbMetas o state
  metas.filterMap
    (fallThroughOf (branchEntryCounts o branchEdges extraBranchEntries) (predecessors metas)
      execSum)

/-! ## §3. The sections of the exit handler. -/

/-- Symbol table. -/
def exitSymbols (o : ExitOrders) (state : PluginState) : List WriteCall :=
  (state.symbols.iter o.symbols).map fun (id, name) => .symbolEntry id 0 name

/-- TB execution data. -/
def exitTbEntries (o : ExitOrders) (state : PluginState) (execSum : Nat → UInt64) :
    List TbEntry :=
  (tbMetas o state).map fun tb =>
    (tb.startAddr, tb.endAddr, tb.nInsns, execSum tb.execCount, tb.firstSeenSeq)

/-- The edges of all vCPUs, drained one vCPU after the other. -/
def drainAll (o : ExitOrders) (state : PluginState) : List Triple :=
  state.edgeAccumulators.zipIdx.flatMap fun (acc, v) => (acc.drain (o.drains v)).1

/-- An edge as a counted key. -/
def counted (e : Triple) : (UInt64 × UInt64) × UInt64 := ((e.1, e.2.1), e.2.2)

/-- Edges drained from all vCPUs and merged. -/
def exitEdges (o : ExitOrders) (state : PluginState) : List Triple :=
  ((HashMap.tally ((drainAll o state).map counted)).iter o.mergedEdges).map
    fun ((f, t), c) => (f, t, c)

/-- The fall-through edges, flushed counts included. -/
def exitFallThroughs (o : ExitOrders) (state : PluginState) (execSum : Nat → UInt64) :
    List Triple :=
  computeFallThroughs o state execSum (exitEdges o state) state.flushedBranchEntries

/-- TBs sorted by start address, with their end and exec count. -/
def tbIndex (o : ExitOrders) (state : PluginState) (execSum : Nat → UInt64) : List Triple :=
  (shuffle o.tbIndexTies ((tbMetas o state).map fun tb =>
      (tb.startAddr, tb.endAddr, execSum tb.execCount))).insertionSort (fun a b => a.1 ≤ b.1)

/-- Direct calls, weighted with the containing TB's exec count: the last
entry of the index that starts at or before the callsite. -/
def exitDirectCalls (o : ExitOrders) (state : PluginState) (execSum : Nat → UInt64) :
    List Triple :=
  (state.directCalls.iter o.directCalls).map fun ((cs, tgt), _) =>
    match ((tbIndex o state execSum).takeWhile fun e => e.1 ≤ cs).getLast? with
    | none => (cs, tgt, 0)
    | some (_, endAddr, exec) => (cs, tgt, if cs ≤ endAddr then exec else 0)

/-- The indirect calls of one vCPU as counted keys. -/
def vcpuIndirect (o : ExitOrders) (v : Nat) (vcpuMap : HashMap UInt64 (HashMap UInt64 UInt64)) :
    List ((UInt64 × UInt64) × UInt64) :=
  (vcpuMap.iter (o.callsites v)).flatMap fun (callsite, targets) =>
    (targets.iter (o.targets v callsite)).map fun (target, count) => ((callsite, target), count)

/-- Indirect calls of all vCPUs, merged. -/
def exitIndirectCalls (o : ExitOrders) (state : PluginState) : List Triple :=
  ((HashMap.tally (state.indirectCalls.zipIdx.flatMap fun (m, v) => vcpuIndirect o v m)).iter
    o.mergedCalls).map fun ((cs, tgt), cnt) => (cs, tgt, cnt)

/-- Resource data (tier 3). -/
def exitResources (o : ExitOrders) (state : PluginState) : List WriteCall :=
  ((tbMetas o state).filter fun tb => tb.coprocFlags ≠ 0).map
      (fun tb => .tbResource tb.startAddr tb.coprocFlags 0)
    ++ ((state.deviceAccesses.iter o.deviceAccesses).flatMap fun (tbAddr, devices) =>
          devices.map fun dev => .deviceAccess tbAddr dev)
    ++ ((state.disconEvents.iter o.disconEvents).map fun ((dtype, f, t), count) =>
          .discontinuity dtype f t count)

/-! ## §4. The handler. -/

/-- The writer calls of `plugin_exit`, in order. -/
def exitCalls (o : ExitOrders) (state : PluginState) (execSum : Nat → UInt64) :
    List WriteCall :=
  exitSymbols o state
    ++ ([.tbExecBatch (exitTbEntries o state execSum)]
    ++ ((if state.config.tier ≥ 1 then
          [.branchEdgeBatch (exitEdges o state),
            .fallThroughBatch (exitFallThroughs o state execSum)]
        else [])
    ++ ((if state.config.tier ≥ 2 then
          [.directCallBatch (exitDirectCalls o state execSum),
            .indirectCallBatch (exitIndirectCalls o state)]
        else [])
    ++ ((if state.tier3 && state.config.tier ≥ 3 then exitResources o state else [])
    ++ [.footer o.wallTimeNs]))))

/-- Plugin exit callback: what is in the writer when the plugin ends; without
a writer nothing happens. -/
def pluginExit (o : ExitOrders) (state : PluginState) (execSum : Nat → UInt64) :
    Option ProfileWriter :=
  state.writer.map fun w => (exitCalls o state execSum).foldl ProfileWriter.perform w

end QemuProfiler.Plugin

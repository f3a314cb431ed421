/-
  QemuProfiler.Plugin.Sections
  ────────────────────────────
  The callbacks, cut where other threads can come in: at every lock they take
  and every atomic they access.

  A callback that is not interrupted is the composition of its sections; that
  is the last statement of each part.
-/
import QemuProfiler.Plugin.Instrument

namespace QemuProfiler.Plugin

open QemuProfiler.Lib

/-! ## §1. `init_writer_if_needed`. -/

/-- The thread that won the exchange creates the log and stores the writer. -/
def openWriter (host : HostInfo) (state : PluginState) : PluginState :=
  if host.outputOpens then
    let w := ProfileWriter.new state.config.tier state.sysemu state.config.streaming
      host.startCode host.startCode host.endCode host.entryCode
    let w := w.perform (.stringMeta "binary_path" (binaryPathOf host state))
    let w := w.perform (.stringMeta "arch" state.arch)
    let w := w.perform (.stringMeta "mode" (if state.sysemu then "sysemu" else "linux-user"))
    { state with writer := some w }
  else state

theorem initWriterIfNeeded_eq (host : HostInfo) (state : PluginState) :
    initWriterIfNeeded host state
      = if state.writerInitialized then state
        else openWriter host { state with writerInitialized := true } := rfl

/-! ## §2. `vcpu_tb_trans`. -/

/-- The section of tier 0 under the lock of `tb_map`: look up or create. -/
def Tier0.mapSection (symId : UInt16) (scoreboard : Nat) (state : PluginState) (tb : QemuTb) :
    PluginState × List TbOp × TbMeta :=
  match state.tbMap.lookup tb.key with
  | some existing => (state, [.inline (.add (.execCount existing.execCount) 1)], existing)
  | none =>
      let tbMeta : TbMeta :=
        { startAddr := tb.vaddr
          endAddr := tb.endAddr
          nInsns := UInt16.ofNat tb.insns.length
          symId := symId
          execCount := scoreboard
          firstSeenSeq := 0
          fallThroughAddr := tb.fallThroughAddr
          endsWithIndirect := false
          coprocFlags := 0 }
      ({ state with tbMap := state.tbMap.insert tb.key tbMeta },
        [.inline (.add (.execCount scoreboard) 1),
          .condCb (.firstSeen tb.key) .eq (.execCount scoreboard) 1],
        tbMeta)

/-- Interning changes the symbol tables and their counter only. -/
theorem Tier0.symbolOf_frame (state : PluginState) (tb : QemuTb) :
    ∃ next ids symbols, (symbolOf state tb).2
      = { state with nextSymId := next, symbolIds := ids, symbols := symbols } := by
  unfold symbolOf
  cases (tb.insns.head tb.nonempty).symbol with
  | none => exact ⟨_, _, _, rfl⟩
  | some name =>
      show ∃ next ids symbols, (state.internSymbol name).2
        = { state with nextSymId := next, symbolIds := ids, symbols := symbols }
      unfold PluginState.internSymbol
      cases state.symbolIds.lookup name with
      | some id => exact ⟨_, _, _, rfl⟩
      | none =>
          dsimp only
          by_cases hfull : state.nextSymId.toNat > 65535
          · rw [if_pos hfull]
            exact ⟨_, _, _, rfl⟩
          · rw [if_neg hfull]
            exact ⟨_, _, _, rfl⟩

theorem Tier0.instrumentTb_eq (scoreboard : Nat) (state : PluginState) (tb : QemuTb) :
    Tier0.instrumentTb scoreboard state tb
      = Tier0.mapSection (symbolOf state tb).1 scoreboard (symbolOf state tb).2 tb := rfl

/-- Tiers 2 and 3, behind the `TbMeta` pointer.  Nothing reads what they set
before the exit handler does. -/
def laterTiers (state : PluginState) (tb : QemuTb) : PluginState :=
  let state := if state.config.tier ≥ 2 then Tier2.instrumentTb state tb else state
  if state.tier3 && state.config.tier ≥ 3 then
    { state with
      tbMap := state.tbMap.modify tb.key fun m =>
        { m with coprocFlags := Tier3.classifyTb state.targetArch tb } }
  else state

theorem vcpuTbTrans_eq (host : HostInfo) (scoreboard : Nat) (state : PluginState) (tb : QemuTb) :
    vcpuTbTrans host scoreboard state tb
      = (let r := Tier0.instrumentTb scoreboard (initWriterIfNeeded host state) tb
        (laterTiers r.1 tb, instrumentationOf r.1 tb r.2.1 r.2.2, r.2.2)) := rfl

/-! ## §3. `first_seen_cb`. -/

namespace PluginState

/-- `fetch_add` on the sequence counter. -/
def takeNumber (state : PluginState) : PluginState :=
  { state with sequenceCounter := state.sequenceCounter + 1 }

/-- The store behind the `TbMeta` pointer. -/
def storeNumber (state : PluginState) (key : TbKey) (seq : UInt64) : PluginState :=
  { state with tbMap := state.tbMap.modify key fun m => { m with firstSeenSeq := seq } }

theorem firstSeenCb_eq (state : PluginState) (key : TbKey) :
    state.firstSeenCb key = state.takeNumber.storeNumber key state.sequenceCounter := rfl

/-! ## §4. `record_edge`. -/

/-- The part on the vCPU's own accumulator, with the edges it drained if it
has reached the threshold. -/
def recordLocal (env : Env) (state : PluginState) (vcpuIndex : Nat)
    (fromAddr toAddr : UInt64) : PluginState × Option (List Triple) :=
  match state.edgeAccumulators[vcpuIndex]? with
  | none => (state, none)
  | some acc =>
      let acc := acc.record env.iter fromAddr toAddr
      if state.config.streaming && acc.shouldFlush state.config.topN then
        let edges := (acc.drain env.iter).1
        let acc := (acc.drain env.iter).2
        ({ state with edgeAccumulators := state.edgeAccumulators.set vcpuIndex acc }, some edges)
      else ({ state with edgeAccumulators := state.edgeAccumulators.set vcpuIndex acc }, none)

/-- `flush_edges`, under the lock of `flushed_branch_entries`. -/
def addFlushed (state : PluginState) (edges : List Triple) : PluginState :=
  { state with
    flushedBranchEntries :=
      edges.foldl (fun m e => m.bump e.2.1 e.2.2) state.flushedBranchEntries }

/-- `flush_edges`, under the lock of the writer: without one, nothing is
written. -/
def writeBatch (env : Env) (state : PluginState) (vcpuIndex : Nat) (edges : List Triple) :
    PluginState :=
  { state with
    writer := state.writer.map fun w =>
      let w := w.perform (.branchEdgeBatch edges)
      w.perform (.flushMarker env.elapsed (UInt32.ofNat vcpuIndex) (UInt32.ofNat edges.length)) }

theorem recordEdge_eq (env : Env) (state : PluginState) (vcpuIndex : Nat)
    (fromAddr toAddr : UInt64) :
    state.recordEdge env vcpuIndex fromAddr toAddr
      = (let r := state.recordLocal env vcpuIndex fromAddr toAddr
        match r.2 with
        | none => r.1
        | some edges => (r.1.addFlushed edges).writeBatch env vcpuIndex edges) := by
  unfold recordEdge recordLocal
  cases state.edgeAccumulators[vcpuIndex]? with
  | none => rfl
  | some acc =>
      dsimp only
      by_cases hflush : (state.config.streaming
          && (acc.record env.iter fromAddr toAddr).shouldFlush state.config.topN) = true
      · rw [if_pos hflush, if_pos hflush]
        rfl
      · rw [if_neg hflush, if_neg hflush]

end PluginState

end QemuProfiler.Plugin

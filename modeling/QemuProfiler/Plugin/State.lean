/-
  QemuProfiler.Plugin.State
  ─────────────────────────
  The global plugin state (`plugin/src/state.rs`) and the operations that the
  callbacks perform on it: symbol interning, per-vCPU slots, edge recording
  with streaming flushes, indirect-call recording.

  Conventions of the model:
    • a mutex or an atomic is the value it protects; every operation below is
      one step,
    • a per-vCPU store is the list of its initialised slots, and growing it
      past `MAX_VCPUS` is the panic `none`,
    • a `*const TbMeta` is the key it is stored under (entries are never
      removed), a scoreboard is its number,
    • what an operation does not determine itself (iteration order of a map
      it drains, clock) is its `Env`.
-/
import QemuProfiler.Plugin.Decoder
import QemuProfiler.Plugin.EdgeStorage

namespace QemuProfiler.Plugin

open QemuProfiler.Lib

/-! ## §1. Data. -/

/-- A TB is identified by its start address and instruction count. -/
structure TbKey where
  startAddr : UInt64
  nInsns : UInt16
  deriving DecidableEq, Repr

/-- Per-TB metadata collected at translation time. -/
structure TbMeta where
  startAddr : UInt64
  endAddr : UInt64
  nInsns : UInt16
  symId : UInt16
  /-- Number of the scoreboard with the per-vCPU exec counts. -/
  execCount : Nat
  /-- Set once on first execution via conditional callback. -/
  firstSeenSeq : UInt64
  /-- Fall-through address (start of next sequential TB). -/
  fallThroughAddr : UInt64
  endsWithIndirect : Bool
  coprocFlags : UInt32
  deriving DecidableEq, Repr

/-- Per-vCPU scoreboard state, zero until first written. -/
structure VcpuState where
  /-- End address of the last-executed TB. -/
  lastTbEnd : UInt64
  /-- Expected next-sequential address after the last TB. -/
  fallThroughAddr : UInt64
  /-- Callsite of a pending indirect call from the previous TB. -/
  pendingIndirectCallsite : UInt64
  deriving DecidableEq, Repr

def VcpuState.zero : VcpuState := ⟨0, 0, 0⟩

/-- Configuration parsed from plugin arguments. -/
structure PluginConfig where
  tier : UInt8
  topN : UInt64
  streaming : Bool
  binaryPath : Option String
  deriving DecidableEq, Repr

/-- The defaults of the plugin arguments. -/
def PluginConfig.default : PluginConfig :=
  { tier := 1, topN := 65536, streaming := false, binaryPath := none }

/-- Global plugin state. -/
structure PluginState where
  config : PluginConfig
  /-- Built with the `tier3` feature. -/
  tier3 : Bool
  sysemu : Bool
  arch : String
  targetArch : Arch
  /-- Map of all known TBs. -/
  tbMap : HashMap TbKey TbMeta
  /-- Monotonic counter for first-seen sequence assignment. -/
  sequenceCounter : UInt64
  symbols : HashMap UInt16 String
  symbolIds : HashMap String UInt16
  nextSymId : UInt64
  edgeAccumulators : List EdgeAccumulator
  /-- Per vCPU: callsite → target → count. -/
  indirectCalls : List (HashMap UInt64 (HashMap UInt64 UInt64))
  /-- Direct calls discovered at translation time. -/
  directCalls : HashMap (UInt64 × UInt64) Unit
  disconEvents : HashMap (UInt32 × UInt64 × UInt64) UInt64
  deviceAccesses : HashMap UInt64 (List String)
  /-- Branch-entry counts of flushed batches: target → count. -/
  flushedBranchEntries : HashMap UInt64 UInt64
  writer : Option ProfileWriter
  writerInitialized : Bool

def PluginState.new (config : PluginConfig) (tier3 sysemu : Bool) (arch : String) :
    PluginState :=
  { config := config, tier3 := tier3, sysemu := sysemu, arch := arch
    targetArch := Arch.fromName arch, tbMap := ∅, sequenceCounter := 1, symbols := ∅
    symbolIds := ∅, nextSymId := 1, edgeAccumulators := [], indirectCalls := []
    directCalls := ∅, disconEvents := ∅, deviceAccesses := ∅, flushedBranchEntries := ∅
    writer := none, writerInitialized := false }

/-- What a callback reads from outside: the iteration order of the edge map
it may prune or drain, and the clock. -/
structure Env where
  iter : IterOrder
  elapsed : UInt64
  deriving DecidableEq, Repr

namespace PluginState

/-! ## §2. Symbols and per-vCPU slots. -/

/-- Look up or insert a symbol; `0` when the table is full. -/
def internSymbol (state : PluginState) (name : String) : UInt16 × PluginState :=
  match state.symbolIds.lookup name with
  | some id => (id, state)
  | none =>
      let rawId := state.nextSymId
      let state := { state with nextSymId := state.nextSymId + 1 }
      if rawId.toNat > 65535 then (0, state)
      else
        let id := rawId.toUInt16
        (id, { state with
          symbolIds := state.symbolIds.insert name id
          symbols := state.symbols.insert id name })

end PluginState

def maxVcpus : Nat := 256

/-- Push fresh slots until there are `count` of them. -/
def growTo {α : Type} (count : Nat) (fresh : α) (slots : List α) : Option (List α) :=
  if slots.length < count then
    if count ≤ maxVcpus then some (slots ++ List.replicate (count - slots.length) fresh)
    else none -- "too many vCPUs"
  else some slots

namespace PluginState

/-- Ensure per-vCPU slots exist for the given vCPU count. -/
def ensureVcpuState (state : PluginState) (vcpuCount : Nat) : Option PluginState := do
  let accs ← growTo vcpuCount (EdgeAccumulator.new state.config.topN state.config.streaming)
    state.edgeAccumulators
  let calls ← if state.config.tier ≥ 2 then growTo vcpuCount ∅ state.indirectCalls
    else some state.indirectCalls
  some { state with edgeAccumulators := accs, indirectCalls := calls }

/-! ## §3. Recording edges. -/

end PluginState

/-- Run a writer call and drop its result, as `let _ = writer.…` does. -/
def ProfileWriter.perform (w : ProfileWriter) (call : WriteCall) : ProfileWriter :=
  match call.run w with
  | .ok _ w => w
  | .error _ w => w

namespace PluginState

/-- Flush a batch of edges to the profile writer (streaming mode). -/
def flushEdges (env : Env) (state : PluginState) (vcpuIndex : Nat) (edges : List Triple) :
    PluginState :=
  -- accumulate target → count for the fall-through computation
  let flushed := edges.foldl (fun m e => m.bump e.2.1 e.2.2) state.flushedBranchEntries
  let writer := state.writer.map fun w =>
    let w := w.perform (.branchEdgeBatch edges)
    w.perform (.flushMarker env.elapsed (UInt32.ofNat vcpuIndex) (UInt32.ofNat edges.length))
  { state with flushedBranchEntries := flushed, writer := writer }

/-- Record a branch edge for a vCPU; a vCPU without slot records nothing.
In streaming mode, flushes at the `top_n` threshold. -/
def recordEdge (env : Env) (state : PluginState) (vcpuIndex : Nat)
    (fromAddr toAddr : UInt64) : PluginState :=
  match state.edgeAccumulators[vcpuIndex]? with
  | none => state
  | some acc =>
      let acc := acc.record env.iter fromAddr toAddr
      if state.config.streaming && acc.shouldFlush state.config.topN then
        let edges := (acc.drain env.iter).1
        let acc := (acc.drain env.iter).2
        flushEdges env { state with edgeAccumulators := state.edgeAccumulators.set vcpuIndex acc }
          vcpuIndex edges
      else { state with edgeAccumulators := state.edgeAccumulators.set vcpuIndex acc }

/-- Record an indirect call target for a vCPU. -/
def recordIndirectCall (state : PluginState) (vcpuIndex : Nat) (callsite target : UInt64) :
    PluginState :=
  match state.indirectCalls[vcpuIndex]? with
  | none => state
  | some vcpuMap =>
      let targets := (vcpuMap.lookup callsite).getD ∅
      let vcpuMap := vcpuMap.insert callsite (targets.bump target 1)
      { state with indirectCalls := state.indirectCalls.set vcpuIndex vcpuMap }

/-- The body of `first_seen_cb`: take a number, store it in the TB. -/
def firstSeenCb (state : PluginState) (key : TbKey) : PluginState :=
  let seq := state.sequenceCounter
  { state with
    sequenceCounter := state.sequenceCounter + 1
    tbMap := state.tbMap.modify key fun m => { m with firstSeenSeq := seq } }

end PluginState

end QemuProfiler.Plugin

/-
  QemuProfiler.Plugin.Instrument
  ──────────────────────────────
  What the plugin attaches to a translated TB: the three `instrument_tb`
  functions (`tier0.rs`, `tier1.rs`, `tier2.rs`), the resource flags of
  `tier3.rs`, and the translation callback that runs them in this order
  (`lib.rs`).

  A registration is data: an inline operation on a scoreboard slot, or a
  callback under a condition on one.  The lists keep registration order.
-/
import QemuProfiler.Plugin.State

namespace QemuProfiler.Plugin

open QemuProfiler.Lib

/-! ## §1. Guest code and registrations. -/

/-- An instruction as the emulator presents it to the plugin. -/
structure QemuInsn where
  vaddr : UInt64
  size : Nat
  data : List UInt8
  symbol : Option String
  deriving DecidableEq, Repr

/-- A TB as the emulator presents it: it has at least one instruction. -/
structure QemuTb where
  vaddr : UInt64
  insns : List QemuInsn
  nonempty : insns ≠ []

/-- The `u64` slots that inline operations and conditions address. -/
inductive Slot where
  /-- The exec-count scoreboard with this number. -/
  | execCount (scoreboard : Nat)
  | lastTbEnd
  | fallThroughAddr
  | pendingIndirectCallsite
  deriving DecidableEq, Repr

/-- An inline operation on the executing vCPU's slot. -/
inductive InlineOp where
  | add (slot : Slot) (imm : UInt64)
  | store (slot : Slot) (imm : UInt64)
  deriving DecidableEq, Repr

/-- The callbacks with their user data. -/
inductive Callback where
  | firstSeen (key : TbKey)
  | branchTaken (toAddr : UInt64)
  deriving DecidableEq, Repr

/-- Conditions on a slot. -/
inductive Cond where
  | eq
  | ne
  deriving DecidableEq, Repr

/-- A registration at TB level. -/
inductive TbOp where
  | inline (op : InlineOp)
  | condCb (cb : Callback) (cond : Cond) (slot : Slot) (imm : UInt64)
  deriving DecidableEq, Repr

/-- Everything registered on one translation, in registration order. -/
structure Instrumentation where
  tbOps : List TbOp
  /-- The operations of each instruction. -/
  insnOps : List (List InlineOp)
  deriving DecidableEq, Repr

/-! ## §2. Tier 0: exec count and first-seen sequence. -/

/-- `end_addr`: address of the last instruction. -/
def QemuTb.endAddr (tb : QemuTb) : UInt64 := (tb.insns.getLast tb.nonempty).vaddr

/-- `fall_through_addr`: address behind the last instruction. -/
def QemuTb.fallThroughAddr (tb : QemuTb) : UInt64 :=
  let last := tb.insns.getLast tb.nonempty
  last.vaddr + UInt64.ofNat last.size

def QemuTb.key (tb : QemuTb) : TbKey := ⟨tb.vaddr, UInt16.ofNat tb.insns.length⟩

namespace Tier0

/-- Symbol of the first instruction, interned. -/
def symbolOf (state : PluginState) (tb : QemuTb) : UInt16 × PluginState :=
  match (tb.insns.head tb.nonempty).symbol with
  | some name => state.internSymbol name
  | none => (0, state)

/-- Set up tier 0 on a translated TB and return its metadata; `scoreboard` is
the one the emulator hands out if a new one is asked for. -/
def instrumentTb (scoreboard : Nat) (state : PluginState) (tb : QemuTb) :
    PluginState × List TbOp × TbMeta :=
  let symId := (symbolOf state tb).1
  let state := (symbolOf state tb).2
  match state.tbMap.lookup tb.key with
  | some existing =>
      -- retranslation: reuse the existing scoreboard
      (state, [.inline (.add (.execCount existing.execCount) 1)], existing)
  | none =>
      let tbMeta : TbMeta :=
        { startAddr := tb.vaddr
          endAddr := tb.endAddr
          nInsns := UInt16.ofNat tb.insns.length
          symId := symId
          execCount := scoreboard
          firstSeenSeq := 0
          fallThroughAddr := tb.fallThroughAddr
          endsWithIndirect := false
          coprocFlags := 0 }
      ({ state with tbMap := state.tbMap.insert tb.key tbMeta },
        [.inline (.add (.execCount scoreboard) 1),
          .condCb (.firstSeen tb.key) .eq (.execCount scoreboard) 1],
        tbMeta)

end Tier0

/-! ## §3. Tier 1: edges. -/

namespace Tier1

/-- The conditional callback at TB entry. -/
def tbOps (tbMeta : TbMeta) : List TbOp :=
  [.condCb (.branchTaken tbMeta.startAddr) .ne .fallThroughAddr tbMeta.startAddr]

/-- The stores of the last instruction. -/
def lastInsnOps (tbMeta : TbMeta) : List InlineOp :=
  [.store .lastTbEnd tbMeta.endAddr, .store .fallThroughAddr tbMeta.fallThroughAddr]

end Tier1

/-! ## §4. Tier 2: calls. -/

namespace Tier2

/-- How the plugin classifies an instruction: from at most 16 bytes. -/
def classOf (arch : Arch) (insn : QemuInsn) : InsnClass :=
  classify arch (insn.data.take 16) insn.vaddr insn.size

/-- The store registered on an instruction, if it is indirect. -/
def insnOps (arch : Arch) (insn : QemuInsn) : List InlineOp :=
  if classOf arch insn = .indirect then [.store .pendingIndirectCallsite insn.vaddr] else []

/-- The pending callsite is cleared at TB entry. -/
def tbOps : List TbOp := [.inline (.store .pendingIndirectCallsite 0)]

/-- Direct calls go to the table of known pairs. -/
def recordDirect (arch : Arch) (calls : HashMap (UInt64 × UInt64) Unit) (insn : QemuInsn) :
    HashMap (UInt64 × UInt64) Unit :=
  match classOf arch insn with
  | .direct target =>
      if (insn.vaddr, target) ∈ calls then calls else calls.insert (insn.vaddr, target) ()
  | _ => calls

def instrumentTb (state : PluginState) (tb : QemuTb) : PluginState :=
  let endsWithIndirect := classOf state.targetArch (tb.insns.getLast tb.nonempty) = .indirect
  { state with
    directCalls := tb.insns.foldl (recordDirect state.targetArch) state.directCalls
    tbMap :=
      if endsWithIndirect then
        state.tbMap.modify tb.key fun m => { m with endsWithIndirect := true }
      else state.tbMap }

end Tier2

/-! ## §5. Tier 3: resource flags. -/

namespace Tier3

def classifyTb (arch : Arch) (tb : QemuTb) : UInt32 :=
  tb.insns.foldl (fun flags insn => flags ||| classifyResources arch (insn.data.take 16)) 0

end Tier3

/-! ## §6. The translation callback. -/

/-- What the emulator tells about the guest binary, and whether the output
file can be opened. -/
structure HostInfo where
  pathToBinary : Option String
  startCode : UInt64
  endCode : UInt64
  entryCode : UInt64
  outputOpens : Bool
  deriving DecidableEq, Repr

/-- The configured path of the guest binary, else what the emulator knows. -/
def binaryPathOf (host : HostInfo) (state : PluginState) : String :=
  match state.config.binaryPath with
  | some p => p
  | none => host.pathToBinary.getD ""

/-- Lazily initialise the profile writer on the first translation. -/
def initWriterIfNeeded (host : HostInfo) (state : PluginState) : PluginState :=
  if state.writerInitialized then state
  else
    let state := { state with writerInitialized := true }
    if host.outputOpens then
      let w := ProfileWriter.new state.config.tier state.sysemu state.config.streaming
        host.startCode host.startCode host.endCode host.entryCode
      let w := w.perform (.stringMeta "binary_path" (binaryPathOf host state))
      let w := w.perform (.stringMeta "arch" state.arch)
      let w := w.perform (.stringMeta "mode" (if state.sysemu then "sysemu" else "linux-user"))
      { state with writer := some w }
    else state

/-- What tier 2 registers on one instruction, if it is on. -/
def tier2InsnOps (state : PluginState) (insn : QemuInsn) : List InlineOp :=
  if state.config.tier ≥ 2 then Tier2.insnOps state.targetArch insn else []

/-- The instrumentation of one translation: tier 0 always, then tiers 1 and 2
by configuration; `tbMeta` is the entry tier 0 returned. -/
def instrumentationOf (state : PluginState) (tb : QemuTb) (tier0 : List TbOp)
    (tbMeta : TbMeta) : Instrumentation :=
  { tbOps := tier0
      ++ ((if state.config.tier ≥ 1 then Tier1.tbOps tbMeta else [])
      ++ (if state.config.tier ≥ 2 then Tier2.tbOps else []))
    insnOps := tb.insns.dropLast.map (tier2InsnOps state)
      ++ [(if state.config.tier ≥ 1 then Tier1.lastInsnOps tbMeta else [])
        ++ tier2InsnOps state (tb.insns.getLast tb.nonempty)] }

/-- TB translation callback: the main instrumentation point.  Next to the new
state: what it registered, and the metadata it worked with. -/
def vcpuTbTrans (host : HostInfo) (scoreboard : Nat) (state : PluginState) (tb : QemuTb) :
    PluginState × Instrumentation × TbMeta :=
  let state := initWriterIfNeeded host state
  let (state, tier0, tbMeta) := Tier0.instrumentTb scoreboard state tb
  let instr := instrumentationOf state tb tier0 tbMeta
  let state := if state.config.tier ≥ 2 then Tier2.instrumentTb state tb else state
  let state :=
    if state.tier3 && state.config.tier ≥ 3 then
      { state with
        tbMap := state.tbMap.modify tb.key fun m =>
          { m with coprocFlags := Tier3.classifyTb state.targetArch tb } }
    else state
  (state, instr, tbMeta)

end QemuProfiler.Plugin

/-
  QemuProfiler.Qemu.Machine
  ─────────────────────────
  The emulator as the plugin sees it: vCPUs appear, TBs are translated, the
  code cache is flushed, and vCPUs execute live translations in any
  interleaving.

  An execution runs the TB-level registrations in registration order at TB
  entry, and the operations of an instruction just before it executes.  It
  may be ABANDONED: only the first `started` instructions begin, so the
  stores of the last one do not run unless all of them do.

  A step emits one `ExecRecord` per execution, with what the callbacks
  recorded during it.

  Callbacks run in one go here; `Threads.Refinement` shows that these runs are
  schedules of the system in which they are interleaved.
-/
import Mathlib.Logic.Function.Basic
import QemuProfiler.Lib.Runs
import QemuProfiler.Lib.Trace
import QemuProfiler.Edges.Accounting

namespace QemuProfiler.Qemu

open QemuProfiler.Lib QemuProfiler.Plugin QemuProfiler.Edges

/-! ## §1. State. -/

/-- Translated code: the guest TB, the metadata it was instrumented with and
what is registered on it. -/
structure Translation where
  tb : QemuTb
  tbMeta : TbMeta
  instr : Instrumentation

/-- The emulator with the plugin loaded. -/
structure Machine where
  plugin : PluginState
  host : HostInfo
  /-- Exec-count scoreboards: number, vCPU, value. -/
  execCounts : Nat → Nat → UInt64
  /-- The scoreboard of `VcpuState`. -/
  vcpus : Nat → VcpuState
  numVcpus : Nat
  nextScoreboard : Nat
  /-- All translations ever made, in order. -/
  translations : List Translation
  /-- Translations before this index were flushed from the code cache. -/
  liveFrom : Nat

/-- The emulator right after the plugin was installed. -/
def Machine.init (config : PluginConfig) (tier3 sysemu : Bool) (arch : String)
    (host : HostInfo) : Machine :=
  { plugin := PluginState.new config tier3 sysemu arch, host := host
    execCounts := fun _ _ => 0, vcpus := fun _ => VcpuState.zero, numVcpus := 0
    nextScoreboard := 0, translations := [], liveFrom := 0 }

/-- What the callbacks of one execution recorded. -/
structure Emitted where
  edges : List Edge
  /-- Indirect calls: callsite and target. -/
  calls : List (UInt64 × UInt64)
  /-- Entries truncated by a prune. -/
  dropped : List (Edge × UInt64)
  /-- Edges flushed to the log. -/
  flushed : List (Edge × UInt64)

def Emitted.none : Emitted := ⟨[], [], [], []⟩

/-- One execution of a translation. -/
structure ExecRecord where
  vcpu : Nat
  tr : Translation
  /-- Number of instructions that began to execute. -/
  started : Nat
  emitted : Emitted

/-- All instructions began: the stores of the last one have run. -/
def ExecRecord.complete (r : ExecRecord) : Bool := r.started = r.tr.tb.insns.length

/-! ## §2. Inline operations. -/

def readSlot (m : Machine) (v : Nat) : Slot → UInt64
  | .execCount scoreboard => m.execCounts scoreboard v
  | .lastTbEnd => (m.vcpus v).lastTbEnd
  | .fallThroughAddr => (m.vcpus v).fallThroughAddr
  | .pendingIndirectCallsite => (m.vcpus v).pendingIndirectCallsite

/-- Write the executing vCPU's slot. -/
def writeSlot (m : Machine) (v : Nat) (slot : Slot) (x : UInt64) : Machine :=
  match slot with
  | .execCount scoreboard =>
      { m with
        execCounts := Function.update m.execCounts scoreboard
          (Function.update (m.execCounts scoreboard) v x) }
  | .lastTbEnd =>
      { m with vcpus := Function.update m.vcpus v { m.vcpus v with lastTbEnd := x } }
  | .fallThroughAddr =>
      { m with vcpus := Function.update m.vcpus v { m.vcpus v with fallThroughAddr := x } }
  | .pendingIndirectCallsite =>
      { m with
        vcpus := Function.update m.vcpus v { m.vcpus v with pendingIndirectCallsite := x } }

def runInline (v : Nat) (m : Machine) : InlineOp → Machine
  | .add slot imm => writeSlot m v slot (readSlot m v slot + imm)
  | .store slot imm => writeSlot m v slot imm

/-! ## §3. Callbacks. -/

/-- `branch_taken_cb`: record the edge from the last TB, and the pending
indirect call. -/
def branchTakenCb (env : Env) (v : Nat) (m : Machine) (out : Emitted) (toAddr : UInt64) :
    Machine × Emitted :=
  let fromAddr := (m.vcpus v).lastTbEnd
  -- initial state before any TB
  if fromAddr = 0 then (m, out)
  else
    let ev : EdgeEvent := ⟨env, v, ⟨fromAddr, toAddr⟩⟩
    let plugin := m.plugin.recordEdge env v fromAddr toAddr
    let out := { out with
      edges := out.edges ++ [ev.edge]
      dropped := out.dropped ++ droppedOf m.plugin ev
      flushed := out.flushed ++ flushedOf m.plugin ev }
    let pending := (m.vcpus v).pendingIndirectCallsite
    if plugin.config.tier ≥ 2 ∧ pending ≠ 0 then
      ({ m with plugin := plugin.recordIndirectCall v pending toAddr },
        { out with calls := out.calls ++ [(pending, toAddr)] })
    else ({ m with plugin := plugin }, out)

def runCallback (env : Env) (v : Nat) (m : Machine) (out : Emitted) :
    Callback → Machine × Emitted
  | .firstSeen key => ({ m with plugin := m.plugin.firstSeenCb key }, out)
  | .branchTaken toAddr => branchTakenCb env v m out toAddr

def Cond.holds : Cond → UInt64 → UInt64 → Bool
  | .eq, x, imm => x == imm
  | .ne, x, imm => x != imm

/-- One TB-level registration. -/
def runTbOp (env : Env) (v : Nat) (s : Machine × Emitted) : TbOp → Machine × Emitted
  | .inline op => (runInline v s.1 op, s.2)
  | .condCb cb cond slot imm =>
      if Cond.holds cond (readSlot s.1 v slot) imm then runCallback env v s.1 s.2 cb else s

/-! ## §4. Executions and events. -/

/-- TB entry. -/
def enterTb (env : Env) (v : Nat) (m : Machine) (instr : Instrumentation) :
    Machine × Emitted :=
  instr.tbOps.foldl (runTbOp env v) (m, Emitted.none)

/-- The first `started` instructions. -/
def startInsns (v : Nat) (m : Machine) (instr : Instrumentation) (started : Nat) : Machine :=
  (instr.insnOps.take started).flatten.foldl (runInline v) m

def execTb (env : Env) (v : Nat) (m : Machine) (tr : Translation) (started : Nat) :
    Machine × Emitted :=
  let (m, out) := enterTb env v m tr.instr
  (startInsns v m tr.instr started, out)

/-- Translation: the emulator presents the TB, the plugin instruments it. -/
def translate (m : Machine) (tb : QemuTb) : Machine :=
  let (plugin, instr, tbMeta) := vcpuTbTrans m.host m.nextScoreboard m.plugin tb
  { m with
    plugin := plugin
    nextScoreboard := m.nextScoreboard + 1
    translations := m.translations ++ [⟨tb, tbMeta, instr⟩] }

inductive Event where
  /-- A vCPU comes up. -/
  | vcpuInit (v : Nat)
  | translate (tb : QemuTb)
  /-- The code cache is flushed. -/
  | flush
  /-- vCPU `v` executes translation `tid`; `started` instructions begin. -/
  | exec (v tid started : Nat) (env : Env)

/-- One event; `none` when it is not possible. -/
def step (m : Machine) : Event → Option (Machine × List ExecRecord)
  | .vcpuInit v =>
      match m.plugin.ensureVcpuState (v + 1) with
      | none => none
      | some plugin =>
          some ({ m with plugin := plugin, numVcpus := max m.numVcpus (v + 1) }, [])
  | .translate tb => some (translate m tb, [])
  | .flush => some ({ m with liveFrom := m.translations.length }, [])
  | .exec v tid started env =>
      match m.translations[tid]? with
      | none => none
      | some tr =>
          if v < m.numVcpus ∧ m.liveFrom ≤ tid ∧ started ≤ tr.tb.insns.length then
            let (m', out) := execTb env v m tr started
            some (m', [⟨v, tr, started, out⟩])
          else none

/-- Runs of the emulator from the installation of the plugin. -/
def runFrom (m : Machine) (evs : List Event) : Option (Machine × List ExecRecord) :=
  runSteps step m evs

/-- `qemu_plugin_u64_sum` on a scoreboard. -/
def execSum (m : Machine) (scoreboard : Nat) : UInt64 :=
  ((List.range m.numVcpus).map (m.execCounts scoreboard)).sum

/-- The executions of one vCPU, in order. -/
def onVcpu (v : Nat) (rs : List ExecRecord) : List ExecRecord := ofParty ExecRecord.vcpu v rs

end QemuProfiler.Qemu

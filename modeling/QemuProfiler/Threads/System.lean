/-
  QemuProfiler.Threads.System
  ───────────────────────────
  The emulator with one thread per vCPU, and the callbacks interleaved at
  their sections: a thread is suspended at every lock and every atomic access
  of a callback on translated code, and any other thread may go on there.

  The callback of a new vCPU is NOT cut: `ensure_vcpu_state` runs as one step,
  so no result over these runs speaks of calls of it that race for a slot.
  They are the subject of `Threads.Slots`, on a model of their own.

  Steps of a thread:
    • `vcpu_tb_trans`: the load of the writer flag, the compare-exchange, the
      store of the writer, the symbol table, the section under the lock of
      `tb_map`, and the later tiers; the emulator runs the translation only
      after the callback returned,
    • an execution: its registrations one by one, the first one (the exec
      count) at entry; `first_seen_cb` has two sections, `record_edge` three.

  A step emits what the statements about runs count (`Action`).
-/
import QemuProfiler.Plugin.Sections
import QemuProfiler.Qemu.Machine

namespace QemuProfiler.Threads

open QemuProfiler.Lib QemuProfiler.Plugin QemuProfiler.Qemu

/-! ## §1. State. -/

/-- Where a vCPU's thread is: the section it runs next. -/
inductive Thread where
  | idle
  /-- `init_writer_if_needed`: relaxed load of `writer_initialized`. -/
  | loadFlag (tb : QemuTb)
  /-- … its compare-exchange. -/
  | exchangeFlag (tb : QemuTb)
  /-- … won: create the log and store the writer. -/
  | storeWriter (tb : QemuTb)
  | internSymbol (tb : QemuTb)
  /-- Tier 0 under the lock of `tb_map`. -/
  | mapTb (tb : QemuTb) (symId : UInt16)
  /-- The later tiers; then the callback returns. -/
  | laterTiers (tr : Translation)
  /-- Executing: the registrations still to run. -/
  | ops (rest : List TbOp)
  /-- `first_seen_cb` has its number and is about to store it. -/
  | storeNumber (key : TbKey) (seq : UInt64) (rest : List TbOp)
  /-- `flush_edges` before its first section … -/
  | addFlushed (edges : List Triple) (toAddr : UInt64) (rest : List TbOp)
  /-- … and before its second. -/
  | writeBatch (edges : List Triple) (toAddr : UInt64) (rest : List TbOp)
  /-- `branch_taken_cb` after `record_edge`. -/
  | pendingCall (toAddr : UInt64) (rest : List TbOp)

def Thread.isIdle : Thread → Bool
  | .idle => true
  | _ => false

structure System where
  machine : Machine
  threads : Nat → Thread

/-- Right after the plugin was installed. -/
def System.init (config : PluginConfig) (tier3 sysemu : Bool) (arch : String)
    (host : HostInfo) : System :=
  ⟨Machine.init config tier3 sysemu arch host, fun _ => .idle⟩

/-- What happened in a step. -/
inductive Action where
  /-- A vCPU entered a translation. -/
  | executed (v : Nat) (tr : Translation)
  /-- A number was taken for a TB. -/
  | numbered (key : TbKey)
  /-- `record_edge` drained its accumulator. -/
  | drained (edges : List Triple)
  /-- A batch went to the log … -/
  | logged (edges : List Triple)
  /-- … or there was no log. -/
  | lost (edges : List Triple)

/-! ## §2. The sections. -/

def Machine.withPlugin (m : Machine) (plugin : PluginState) : Machine :=
  { m with plugin := plugin }

/-- The first section of a callback. -/
def startCallback (env : Env) (v : Nat) (m : Machine) (rest : List TbOp) :
    Callback → Machine × Thread × List Action
  | .firstSeen key =>
      (Machine.withPlugin m m.plugin.takeNumber, .storeNumber key m.plugin.sequenceCounter rest,
        [.numbered key])
  | .branchTaken toAddr =>
      -- initial state before any TB: nothing is recorded
      let fromAddr := (m.vcpus v).lastTbEnd
      if fromAddr = 0 then (m, .ops rest, [])
      else
        let r := m.plugin.recordLocal env v fromAddr toAddr
        match r.2 with
        | none => (Machine.withPlugin m r.1, .pendingCall toAddr rest, [])
        | some edges => (Machine.withPlugin m r.1, .addFlushed edges toAddr rest, [.drained edges])

/-- One registration. -/
def runOp (env : Env) (v : Nat) (m : Machine) (rest : List TbOp) :
    TbOp → Machine × Thread × List Action
  | .inline op => (runInline v m op, .ops rest, [])
  | .condCb cb cond slot imm =>
      if Cond.holds cond (readSlot m v slot) imm then startCallback env v m rest cb
      else (m, .ops rest, [])

/-- The section a thread runs next. -/
def advance (env : Env) (v : Nat) (m : Machine) : Thread → Machine × Thread × List Action
  | .idle => (m, .idle, [])
  -- `init_writer_if_needed`: the load, the exchange, then the opening of the log
  | .loadFlag tb =>
      (m, if m.plugin.writerInitialized then .internSymbol tb else .exchangeFlag tb, [])
  | .exchangeFlag tb =>
      if m.plugin.writerInitialized then (m, .internSymbol tb, [])
      else (Machine.withPlugin m { m.plugin with writerInitialized := true }, .storeWriter tb, [])
  | .storeWriter tb =>
      (Machine.withPlugin m (openWriter m.host m.plugin), .internSymbol tb, [])
  -- `tier0::instrument_tb`: the symbol tables and the TB map, each under its lock
  | .internSymbol tb =>
      let r := Tier0.symbolOf m.plugin tb
      (Machine.withPlugin m r.2, .mapTb tb r.1, [])
  | .mapTb tb symId =>
      let r := Tier0.mapSection symId m.nextScoreboard m.plugin tb
      ({ m with plugin := r.1, nextScoreboard := m.nextScoreboard + 1 },
        .laterTiers ⟨tb, r.2.2, instrumentationOf r.1 tb r.2.1 r.2.2⟩, [])
  | .laterTiers tr =>
      ({ m with
          plugin := Plugin.laterTiers m.plugin tr.tb
          translations := m.translations ++ [tr] }, .idle, [])
  -- generated code: registration after registration, in the order of the tiers
  | .ops [] => (m, .idle, [])
  | .ops (op :: rest) => runOp env v m rest op
  | .storeNumber key seq rest =>
      (Machine.withPlugin m (m.plugin.storeNumber key seq), .ops rest, [])
  -- `flush_edges`: the flushed entries and the writer have a lock of their own
  | .addFlushed edges toAddr rest =>
      (Machine.withPlugin m (m.plugin.addFlushed edges), .writeBatch edges toAddr rest, [])
  | .writeBatch edges toAddr rest =>
      (Machine.withPlugin m (m.plugin.writeBatch env v edges), .pendingCall toAddr rest,
        [if m.plugin.writer.isSome then .logged edges else .lost edges])
  | .pendingCall toAddr rest =>
      let pending := (m.vcpus v).pendingIndirectCallsite
      if m.plugin.config.tier ≥ 2 ∧ pending ≠ 0 then
        (Machine.withPlugin m (m.plugin.recordIndirectCall v pending toAddr), .ops rest, [])
      else (m, .ops rest, [])

/-! ## §3. Events. -/

/-- The registrations of an execution in which `started` instructions begin. -/
def opsOf (tr : Translation) (started : Nat) : List TbOp :=
  tr.instr.tbOps ++ (tr.instr.insnOps.take started).flatten.map .inline

inductive Event where
  /-- A vCPU comes up: `ensure_vcpu_state`, uninterrupted. -/
  | vcpuInit (v : Nat)
  /-- vCPU `v` calls `vcpu_tb_trans`. -/
  | translate (v : Nat) (tb : QemuTb)
  /-- The code cache is flushed. -/
  | flush
  /-- vCPU `v` enters translation `tid`; `started` instructions will begin. -/
  | exec (v tid started : Nat) (env : Env)
  /-- The thread of vCPU `v` runs its next section. -/
  | run (v : Nat) (env : Env)

/-- The system after thread `v` ran a section. -/
def System.afterSection (s : System) (v : Nat) (r : Machine × Thread × List Action) :
    System × List Action :=
  (⟨r.1, Function.update s.threads v r.2.1⟩, r.2.2)

/-- One event; `none` when it is not possible. -/
def step (s : System) : Event → Option (System × List Action)
  | .vcpuInit v =>
      match s.machine.plugin.ensureVcpuState (v + 1) with
      | none => none
      | some plugin =>
          some (⟨{ s.machine with
            plugin := plugin, numVcpus := max s.machine.numVcpus (v + 1) }, s.threads⟩, [])
  | .translate v tb =>
      if v < s.machine.numVcpus ∧ (s.threads v).isIdle then
        some (s.afterSection v (s.machine, .loadFlag tb, []))
      else none
  | .flush =>
      some (⟨{ s.machine with liveFrom := s.machine.translations.length }, s.threads⟩, [])
  | .exec v tid started env =>
      match s.machine.translations[tid]? with
      | none => none
      | some tr =>
          if v < s.machine.numVcpus ∧ (s.threads v).isIdle ∧ s.machine.liveFrom ≤ tid
              ∧ started ≤ tr.tb.insns.length then
            -- entering and the first registration are one step
            let r := advance env v s.machine (.ops (opsOf tr started))
            some (s.afterSection v (r.1, r.2.1, .executed v tr :: r.2.2))
          else none
  | .run v env =>
      if v < s.machine.numVcpus then
        some (s.afterSection v (advance env v s.machine (s.threads v)))
      else none

/-- Runs from the installation of the plugin. -/
def runFrom (s : System) (evs : List Event) : Option (System × List Action) :=
  runSteps step s evs

/-! ## §4. What a run did. -/

/-- The executions, by vCPU and translation. -/
def executionsOf (out : List Action) : List (Nat × Translation) :=
  out.filterMap fun
    | .executed v tr => some (v, tr)
    | _ => none

/-- The TBs for which numbers were taken, in order. -/
def numberedOf (out : List Action) : List TbKey :=
  out.filterMap fun
    | .numbered key => some key
    | _ => none

/-- The drained entries. -/
def drainedOf (out : List Action) : List Triple :=
  out.flatMap fun
    | .drained edges => edges
    | _ => []

/-- The entries that went to the log. -/
def loggedOf (out : List Action) : List Triple :=
  out.flatMap fun
    | .logged edges => edges
    | _ => []

/-- The entries for which there was no log. -/
def lostOf (out : List Action) : List Triple :=
  out.flatMap fun
    | .lost edges => edges
    | _ => []

@[simp] theorem executionsOf_append (out out' : List Action) :
    executionsOf (out ++ out') = executionsOf out ++ executionsOf out' :=
  List.filterMap_append

@[simp] theorem numberedOf_append (out out' : List Action) :
    numberedOf (out ++ out') = numberedOf out ++ numberedOf out' :=
  List.filterMap_append

@[simp] theorem drainedOf_append (out out' : List Action) :
    drainedOf (out ++ out') = drainedOf out ++ drainedOf out' :=
  List.flatMap_append

@[simp] theorem loggedOf_append (out out' : List Action) :
    loggedOf (out ++ out') = loggedOf out ++ loggedOf out' :=
  List.flatMap_append

@[simp] theorem lostOf_append (out out' : List Action) :
    lostOf (out ++ out') = lostOf out ++ lostOf out' :=
  List.flatMap_append

end QemuProfiler.Threads

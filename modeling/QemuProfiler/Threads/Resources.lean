/-
  QemuProfiler.Threads.Resources
  ──────────────────────────────
  **THE RUNTIME PART OF TIER 3** in interleaved runs: while translated code
  executes, vCPUs access memory and are interrupted.

    • `observer` — tier 3 is an observer of the system: a step can be taken
      with any content of its two tables, and takes no notice of it,
    • `observed` — so a run without its runtime events is a run,
    • `tables_run` — and the tables are what was observed, one after the other.
-/
import QemuProfiler.Lib.Observer
import QemuProfiler.Plugin.Resources
import QemuProfiler.Threads.Notes

namespace QemuProfiler.Threads

open QemuProfiler.Lib QemuProfiler.Plugin QemuProfiler.Qemu QemuProfiler.Edges

/-! ## §1. Events. -/

/-- What happens while code executes. -/
inductive Runtime where
  /-- vCPU `v` accesses memory in an instruction of translation `tid`. -/
  | memAccess (v tid insn : Nat) (hwaddr : Option Tier3.HwAddr)
  /-- The control flow of vCPU `v` is interrupted. -/
  | discontinuity (v : Nat) (disconType : UInt32) (fromPc toPc : UInt64)

/-- What was seen, whether a callback was registered or not. -/
inductive Seen where
  /-- An access by a TB with this start. -/
  | accessed (tbStart : UInt64) (hwaddr : Option Tier3.HwAddr)
  | discontinued (disconType : UInt32) (fromPc toPc : UInt64)
  deriving DecidableEq

def System.withPlugin (s : System) (plugin : PluginState) : System :=
  ⟨Machine.withPlugin s.machine plugin, s.threads⟩

/-- A runtime event.  The configuration that decided about registrations is
fixed, so they are looked up when the event happens. -/
def observe (apiVersion : Int) (s : System) : Runtime → Option (System × List (Action ⊕ Seen))
  | .memAccess v tid insn hwaddr =>
      match s.machine.translations[tid]? with
      | none => none
      | some tr =>
          if v < s.machine.numVcpus ∧ insn < tr.tb.insns.length then
            some (s.withPlugin (((Tier3.memCbs s.machine.plugin tr.tb)[insn]?).toList.foldl
                (Tier3.memAccessCb hwaddr) s.machine.plugin),
              [.inr (.accessed tr.tb.vaddr hwaddr)])
          else none
  | .discontinuity v disconType fromPc toPc =>
      if v < s.machine.numVcpus then
        some (if Tier3.disconRegistered s.machine.plugin apiVersion then
            s.withPlugin (Tier3.disconCb s.machine.plugin disconType fromPc toPc) else s,
          [.inr (.discontinued disconType fromPc toPc)])
      else none

/-- One event of the system or its runtime. -/
def stepWith (apiVersion : Int) (s : System) :
    Event ⊕ Runtime → Option (System × List (Action ⊕ Seen))
  | .inl e => (step s e).map fun r => (r.1, r.2.map Sum.inl)
  | .inr x => observe apiVersion s x

def runWith (apiVersion : Int) (s : System) (evs : List (Event ⊕ Runtime)) :
    Option (System × List (Action ⊕ Seen)) :=
  runSteps (stepWith apiVersion) s evs

/-! ## §2. The two tables. -/

/-- The tables of tier 3. -/
structure Tables where
  discons : HashMap (UInt32 × UInt64 × UInt64) UInt64
  devices : HashMap UInt64 (List String)

def tablesOf (p : PluginState) : Tables := ⟨p.disconEvents, p.deviceAccesses⟩

def withTables (t : Tables) (p : PluginState) : PluginState :=
  { p with disconEvents := t.discons, deviceAccesses := t.devices }

def Machine.withTables (t : Tables) (m : Machine) : Machine :=
  Machine.withPlugin m (Threads.withTables t m.plugin)

def System.withTables (t : Tables) (s : System) : System :=
  s.withPlugin (Threads.withTables t s.machine.plugin)

theorem ensureVcpuState_withTables (t : Tables) (p : PluginState) (n : Nat) :
    (withTables t p).ensureVcpuState n = (p.ensureVcpuState n).map (withTables t) := by
  unfold withTables PluginState.ensureVcpuState
  dsimp only
  cases growTo n (EdgeAccumulator.new p.config.topN p.config.streaming) p.edgeAccumulators with
  | none => rfl
  | some accs =>
      by_cases htier : p.config.tier ≥ 2
      · simp only [if_pos htier]
        cases growTo n ∅ p.indirectCalls with
        | none => rfl
        | some calls => rfl
      · simp only [if_neg htier]
        rfl

theorem symbolOf_withTables (t : Tables) (p : PluginState) (tb : QemuTb) :
    Tier0.symbolOf (withTables t p) tb
      = ((Tier0.symbolOf p tb).1, withTables t (Tier0.symbolOf p tb).2) := by
  unfold Tier0.symbolOf
  cases (tb.insns.head tb.nonempty).symbol with
  | none => rfl
  | some name =>
      unfold withTables PluginState.internSymbol
      dsimp only
      cases p.symbolIds.lookup name with
      | some id => rfl
      | none =>
          dsimp only
          split <;> rfl

theorem mapSection_withTables (t : Tables) (symId : UInt16) (scoreboard : Nat) (p : PluginState)
    (tb : QemuTb) :
    Tier0.mapSection symId scoreboard (withTables t p) tb
      = (withTables t (Tier0.mapSection symId scoreboard p tb).1,
        (Tier0.mapSection symId scoreboard p tb).2) := by
  unfold withTables Tier0.mapSection
  dsimp only
  cases p.tbMap.lookup tb.key with
  | some existing => rfl
  | none => rfl

theorem laterTiers_withTables (t : Tables) (p : PluginState) (tb : QemuTb) :
    laterTiers (withTables t p) tb = withTables t (laterTiers p tb) := by
  -- tier 2, then tier 3
  have htier2 : (if (withTables t p).config.tier ≥ 2 then Tier2.instrumentTb (withTables t p) tb
        else withTables t p)
      = withTables t (if p.config.tier ≥ 2 then Tier2.instrumentTb p tb else p) := by
    show (if p.config.tier ≥ 2 then withTables t (Tier2.instrumentTb p tb)
      else withTables t p) = _
    split <;> rfl
  have htier3 : ∀ q : PluginState,
      (if (withTables t q).tier3 && decide ((withTables t q).config.tier ≥ 3) then
        { withTables t q with
          tbMap := (withTables t q).tbMap.modify tb.key fun m =>
            { m with coprocFlags := Tier3.classifyTb (withTables t q).targetArch tb } }
        else withTables t q)
      = withTables t (if q.tier3 && decide (q.config.tier ≥ 3) then
          { q with
            tbMap := q.tbMap.modify tb.key fun m =>
              { m with coprocFlags := Tier3.classifyTb q.targetArch tb } }
          else q) := by
    intro q
    unfold withTables
    dsimp only
    split <;> rfl
  unfold laterTiers
  dsimp only
  rw [htier2]
  exact htier3 _

theorem openWriter_withTables (t : Tables) (host : HostInfo) (p : PluginState) :
    openWriter host (withTables t p) = withTables t (openWriter host p) := by
  unfold openWriter withTables
  dsimp only
  split <;> rfl

theorem recordLocal_withTables (t : Tables) (env : Env) (p : PluginState) (v : Nat)
    (fromAddr toAddr : UInt64) :
    (withTables t p).recordLocal env v fromAddr toAddr
      = (withTables t (p.recordLocal env v fromAddr toAddr).1,
        (p.recordLocal env v fromAddr toAddr).2) := by
  unfold withTables PluginState.recordLocal
  dsimp only
  cases p.edgeAccumulators[v]? with
  | none => rfl
  | some acc =>
      dsimp only
      split <;> rfl

theorem recordIndirectCall_withTables (t : Tables) (p : PluginState) (v : Nat)
    (callsite target : UInt64) :
    (withTables t p).recordIndirectCall v callsite target
      = withTables t (p.recordIndirectCall v callsite target) := by
  unfold withTables PluginState.recordIndirectCall
  dsimp only
  cases p.indirectCalls[v]? with
  | none => rfl
  | some vcpuMap => rfl

theorem runInline_withTables (t : Tables) (v : Nat) (m : Machine) (op : InlineOp) :
    runInline v (Machine.withTables t m) op = Machine.withTables t (runInline v m op) := by
  cases op with
  | add slot imm => cases slot <;> rfl
  | store slot imm => cases slot <;> rfl

theorem readSlot_withTables (t : Tables) (m : Machine) (v : Nat) (slot : Slot) :
    readSlot (Machine.withTables t m) v slot = readSlot m v slot := by
  cases slot <;> rfl

theorem startCallback_withTables (t : Tables) (env : Env) (v : Nat) (m : Machine)
    (rest : List TbOp) (cb : Callback) :
    startCallback env v (Machine.withTables t m) rest cb
      = (Machine.withTables t (startCallback env v m rest cb).1,
        (startCallback env v m rest cb).2) := by
  cases cb with
  | firstSeen key => rfl
  | branchTaken toAddr =>
      unfold startCallback
      dsimp only
      by_cases hend : (m.vcpus v).lastTbEnd = 0
      · rw [if_pos hend]
        exact if_pos hend
      · have hlocal : (Machine.withTables t m).plugin.recordLocal env v
              ((Machine.withTables t m).vcpus v).lastTbEnd toAddr = _ :=
          recordLocal_withTables t env m.plugin v (m.vcpus v).lastTbEnd toAddr
        rw [if_neg hend]
        refine (if_neg hend).trans ?_
        rw [hlocal]
        cases (m.plugin.recordLocal env v (m.vcpus v).lastTbEnd toAddr).2 <;> rfl

/-- **No section reads or writes the two tables.** -/
theorem advance_withTables (t : Tables) (env : Env) (v : Nat) (m : Machine) (th : Thread) :
    advance env v (Machine.withTables t m) th
      = (Machine.withTables t (advance env v m th).1, (advance env v m th).2) := by
  cases th with
  -- what a section tests is not in the tables, so both machines take the same branch
  | exchangeFlag tb =>
      unfold advance
      by_cases hflag : m.plugin.writerInitialized = true
      · have hflag' : (Machine.withTables t m).plugin.writerInitialized = true := hflag
        dsimp only
        rw [if_pos hflag, if_pos hflag']
      · have hflag' : ¬ (Machine.withTables t m).plugin.writerInitialized = true := hflag
        dsimp only
        rw [if_neg hflag, if_neg hflag']
        rfl
  | storeWriter tb =>
      show (Machine.withPlugin m (openWriter m.host (withTables t m.plugin)), _) = _
      rw [openWriter_withTables]
      rfl
  | internSymbol tb =>
      show (Machine.withPlugin m (Tier0.symbolOf (withTables t m.plugin) tb).2,
        Thread.mapTb tb (Tier0.symbolOf (withTables t m.plugin) tb).1, []) = _
      rw [symbolOf_withTables]
      rfl
  | mapTb tb symId =>
      show ({ m with
          plugin := (Tier0.mapSection symId m.nextScoreboard (withTables t m.plugin) tb).1
          nextScoreboard := m.nextScoreboard + 1 },
        Thread.laterTiers ⟨tb,
          (Tier0.mapSection symId m.nextScoreboard (withTables t m.plugin) tb).2.2,
          instrumentationOf
            (Tier0.mapSection symId m.nextScoreboard (withTables t m.plugin) tb).1 tb
            (Tier0.mapSection symId m.nextScoreboard (withTables t m.plugin) tb).2.1
            (Tier0.mapSection symId m.nextScoreboard (withTables t m.plugin) tb).2.2⟩, []) = _
      rw [mapSection_withTables]
      rfl
  | laterTiers tr =>
      show ({ m with
          plugin := laterTiers (withTables t m.plugin) tr.tb
          translations := m.translations ++ [tr] }, Thread.idle, []) = _
      rw [laterTiers_withTables]
      rfl
  | ops rest =>
      cases rest with
      | nil => rfl
      | cons op rest =>
          cases op with
          | inline op =>
              show (runInline v (Machine.withTables t m) op, _) = _
              rw [runInline_withTables]
              rfl
          | condCb cb cond slot imm =>
              show (if Cond.holds cond (readSlot (Machine.withTables t m) v slot) imm then
                  startCallback env v (Machine.withTables t m) rest cb
                else (Machine.withTables t m, Thread.ops rest, [])) = (Machine.withTables t
                  (if Cond.holds cond (readSlot m v slot) imm then startCallback env v m rest cb
                    else (m, Thread.ops rest, [])).1, _)
              rw [readSlot_withTables]
              show _ = (_, (if Cond.holds cond (readSlot m v slot) imm then
                startCallback env v m rest cb else (m, Thread.ops rest, [])).2)
              by_cases hcond : Cond.holds cond (readSlot m v slot) imm = true
              · rw [if_pos hcond, if_pos hcond]
                exact startCallback_withTables t env v m rest cb
              · rw [if_neg hcond, if_neg hcond]
  | pendingCall toAddr rest =>
      unfold advance
      by_cases hcall : m.plugin.config.tier ≥ 2 ∧ (m.vcpus v).pendingIndirectCallsite ≠ 0
      · have hcall' : (Machine.withTables t m).plugin.config.tier ≥ 2
            ∧ ((Machine.withTables t m).vcpus v).pendingIndirectCallsite ≠ 0 := hcall
        dsimp only
        rw [if_pos hcall, if_pos hcall']
        show (Machine.withPlugin m ((withTables t m.plugin).recordIndirectCall v _ toAddr), _) = _
        rw [recordIndirectCall_withTables]
        rfl
      · have hcall' : ¬ ((Machine.withTables t m).plugin.config.tier ≥ 2
            ∧ ((Machine.withTables t m).vcpus v).pendingIndirectCallsite ≠ 0) := hcall
        dsimp only
        rw [if_neg hcall, if_neg hcall']
  | _ => rfl

/-- **The steps of the system commute with setting them.** -/
theorem step_withTables (t : Tables) (s : System) (e : Event) :
    Threads.step (s.withTables t) e
      = (Threads.step s e).map fun r => (r.1.withTables t, r.2) := by
  cases e with
  | vcpuInit v =>
      unfold Threads.step
      have hplugin : (s.withTables t).machine.plugin.ensureVcpuState (v + 1) = _ :=
        ensureVcpuState_withTables t s.machine.plugin (v + 1)
      dsimp only
      rw [hplugin]
      cases s.machine.plugin.ensureVcpuState (v + 1) <;> rfl
  -- the guards of an event read threads, translations and vCPU numbers only
  | translate v tb =>
      unfold Threads.step
      by_cases hok : v < s.machine.numVcpus ∧ (s.threads v).isIdle = true
      · have hok' : v < (s.withTables t).machine.numVcpus
            ∧ ((s.withTables t).threads v).isIdle = true := hok
        dsimp only
        rw [if_pos hok, if_pos hok']
        rfl
      · have hok' : ¬ (v < (s.withTables t).machine.numVcpus
            ∧ ((s.withTables t).threads v).isIdle = true) := hok
        dsimp only
        rw [if_neg hok, if_neg hok']
        rfl
  | flush => rfl
  | exec v tid started env =>
      unfold Threads.step
      have htr : (s.withTables t).machine.translations[tid]? = s.machine.translations[tid]? := rfl
      dsimp only
      rw [htr]
      cases s.machine.translations[tid]? with
      | none => rfl
      | some tr =>
          dsimp only
          have hadv : advance env v (s.withTables t).machine (.ops (opsOf tr started)) = _ :=
            advance_withTables t env v s.machine (.ops (opsOf tr started))
          by_cases hok : v < s.machine.numVcpus ∧ (s.threads v).isIdle = true
              ∧ s.machine.liveFrom ≤ tid ∧ started ≤ tr.tb.insns.length
          · have hok' : v < (s.withTables t).machine.numVcpus
                ∧ ((s.withTables t).threads v).isIdle = true
                ∧ (s.withTables t).machine.liveFrom ≤ tid ∧ started ≤ tr.tb.insns.length := hok
            rw [if_pos hok, if_pos hok', hadv]
            rfl
          · have hok' : ¬ (v < (s.withTables t).machine.numVcpus
                ∧ ((s.withTables t).threads v).isIdle = true
                ∧ (s.withTables t).machine.liveFrom ≤ tid
                ∧ started ≤ tr.tb.insns.length) := hok
            rw [if_neg hok, if_neg hok']
            rfl
  | run v env =>
      unfold Threads.step
      have hadv : advance env v (s.withTables t).machine ((s.withTables t).threads v) = _ :=
        advance_withTables t env v s.machine (s.threads v)
      by_cases hv : v < s.machine.numVcpus
      · have hv' : v < (s.withTables t).machine.numVcpus := hv
        dsimp only
        rw [if_pos hv, if_pos hv', hadv]
        rfl
      · have hv' : ¬ v < (s.withTables t).machine.numVcpus := hv
        dsimp only
        rw [if_neg hv, if_neg hv']
        rfl

/-! ## §3. What decides about registrations. -/

/-- Are accesses recorded, and discontinuities? -/
def registrations (apiVersion : Int) (p : PluginState) : Bool × Bool :=
  (p.tier3 && p.config.tier ≥ 3 && p.sysemu, Tier3.disconRegistered p apiVersion)

/-- Configuration, features, mode and architecture. -/
def settingsOf (p : PluginState) : PluginConfig × Bool × Bool × String :=
  (p.config, p.tier3, p.sysemu, p.arch)

theorem registrations_congr (apiVersion : Int) {p q : PluginState}
    (h : settingsOf p = settingsOf q) :
    registrations apiVersion p = registrations apiVersion q := by
  simp only [settingsOf, Prod.mk.injEq] at h
  unfold registrations Tier3.disconRegistered
  rw [h.1, h.2.1, h.2.2.1]

theorem advance_settings (env : Env) (v : Nat) (m : Machine) (th : Thread) :
    settingsOf (advance env v m th).1.plugin = settingsOf m.plugin := by
  cases th with
  | exchangeFlag tb =>
      unfold advance
      dsimp only
      split <;> rfl
  | storeWriter tb =>
      obtain ⟨writer, heq⟩ := openWriter_frame m.host m.plugin
      show settingsOf (openWriter m.host m.plugin) = _
      rw [heq]
      rfl
  | internSymbol tb =>
      obtain ⟨next, ids, symbols, heq⟩ := Tier0.symbolOf_frame m.plugin tb
      show settingsOf (Tier0.symbolOf m.plugin tb).2 = _
      rw [heq]
      rfl
  | mapTb tb symId =>
      show settingsOf (Tier0.mapSection symId m.nextScoreboard m.plugin tb).1 = _
      unfold Tier0.mapSection
      cases m.plugin.tbMap.lookup tb.key <;> rfl
  | laterTiers tr =>
      obtain ⟨calls, tbMap, heq⟩ := laterTiers_frame m.plugin tr.tb
      show settingsOf (laterTiers m.plugin tr.tb) = _
      rw [heq]
      rfl
  | ops rest =>
      cases rest with
      | nil => rfl
      | cons op rest =>
          obtain ⟨accs, n, heq, _⟩ := runOp_frame env v m rest op
          show settingsOf (runOp env v m rest op).1.plugin = _
          rw [heq]
          rfl
  | pendingCall toAddr rest =>
      unfold advance
      dsimp only
      split
      · show settingsOf (m.plugin.recordIndirectCall v _ toAddr) = _
        unfold PluginState.recordIndirectCall
        cases m.plugin.indirectCalls[v]? <;> rfl
      · rfl
  | _ => rfl

/-- **No step changes them.** -/
theorem step_settings {s s' : System} {e : Event} {acts : List Action}
    (h : Threads.step s e = some (s', acts)) :
    settingsOf s'.machine.plugin = settingsOf s.machine.plugin := by
  rcases step_sections h with ⟨v, plugin, _, hp, rfl, _⟩ | ⟨v, tb, _, _, _, rfl, _⟩
    | ⟨_, rfl, _⟩ | ⟨v, tid, started, env, tr, _, _, _, _, _, rfl, _⟩ | ⟨v, env, _, _, rfl, _⟩
  · obtain ⟨i, j, heq, _⟩ := ensureVcpuState_eq hp
    rw [heq]
    rfl
  · rfl
  · rfl
  · exact advance_settings env v s.machine _
  · exact advance_settings env v s.machine _

/-- Nor the tables: a step can be taken with any tables. -/
theorem step_tables {s s' : System} {e : Event} {acts : List Action}
    (h : Threads.step s e = some (s', acts)) :
    tablesOf s'.machine.plugin = tablesOf s.machine.plugin := by
  have hself : s.withTables (tablesOf s.machine.plugin) = s := rfl
  have hcomm := step_withTables (tablesOf s.machine.plugin) s e
  rw [hself, h, Option.map_some, Option.some.injEq, Prod.mk.injEq] at hcomm
  exact congrArg (fun s => tablesOf s.machine.plugin) hcomm.1

/-! ## §4. Tier 3 as an observer. -/

/-- One observation, given the registrations. -/
def Tables.note (on : Bool × Bool) (t : Tables) : Seen → Tables
  | .accessed tbStart hwaddr =>
      if on.1 then
        match Tier3.deviceOf hwaddr with
        | none => t
        | some name =>
            { t with
              devices := t.devices.insert tbStart
                (Tier3.pushNew ((t.devices.lookup tbStart).getD []) name) }
      else t
  | .discontinued disconType fromPc toPc =>
      if on.2 then { t with discons := t.discons.bump (disconType, fromPc, toPc) 1 } else t

/-- The callbacks of an access on one instruction. -/
theorem memCbs_note (apiVersion : Int) (p : PluginState) (tb : QemuTb) {insn : Nat}
    (hinsn : insn < tb.insns.length) (hwaddr : Option Tier3.HwAddr) :
    ((Tier3.memCbs p tb)[insn]?).toList.foldl (Tier3.memAccessCb hwaddr) p
      = withTables ((tablesOf p).note (registrations apiVersion p) (.accessed tb.vaddr hwaddr))
          p := by
  have hcb : (Tier3.instrumentMemCb tb tb.vaddr)[insn]? = some tb.vaddr := by
    unfold Tier3.instrumentMemCb
    rw [List.getElem?_map, List.getElem?_eq_getElem hinsn]
    rfl
  unfold Tier3.memCbs Tables.note registrations
  dsimp only
  cases p.tier3 && decide (p.config.tier ≥ 3) with
  | false => rfl
  | true =>
      cases p.sysemu with
      | false => rfl
      | true =>
          rw [if_pos rfl, if_pos rfl, if_pos (show (true && true) = true from rfl), hcb]
          show Tier3.memAccessCb hwaddr p tb.vaddr = _
          unfold Tier3.memAccessCb
          cases Tier3.deviceOf hwaddr <;> rfl

/-- **One runtime event** is one observation. -/
theorem observe_note {apiVersion : Int} {s s' : System} {x : Runtime} {out : List (Action ⊕ Seen)}
    (h : observe apiVersion s x = some (s', out)) :
    ∃ note : Seen, out = [.inr note] ∧ s' = s.withTables ((tablesOf s.machine.plugin).note
      (registrations apiVersion s.machine.plugin) note) := by
  cases x with
  | memAccess v tid insn hwaddr =>
      simp only [observe] at h
      cases htr : s.machine.translations[tid]? with
      | none => simp [htr] at h
      | some tr =>
          simp only [htr] at h
          by_cases hok : v < s.machine.numVcpus ∧ insn < tr.tb.insns.length
          · rw [if_pos hok, Option.some.injEq, Prod.mk.injEq] at h
            refine ⟨_, h.2.symm, h.1.symm.trans ?_⟩
            rw [memCbs_note apiVersion _ _ hok.2]
            rfl
          · rw [if_neg hok] at h
            exact absurd h (by simp)
  | discontinuity v disconType fromPc toPc =>
      simp only [observe] at h
      by_cases hv : v < s.machine.numVcpus
      · rw [if_pos hv, Option.some.injEq, Prod.mk.injEq] at h
        refine ⟨_, h.2.symm, h.1.symm.trans ?_⟩
        show _ = s.withTables (if Tier3.disconRegistered s.machine.plugin apiVersion then _ else _)
        split <;> rfl
      · rw [if_neg hv] at h
        exact absurd h (by simp)

/-- **TIER 3 IS AN OBSERVER** of the system. -/
theorem observer (apiVersion : Int) :
    Observer Threads.step System.withTables (stepWith apiVersion) where
  put_put := fun _ _ _ => rfl
  own := fun _ _ => rfl
  commutes := step_withTables
  seen := by
    intro s x s' out h
    obtain ⟨note, hout, hs'⟩ := observe_note h
    exact ⟨_, [note], hs', hout⟩

section Runs

variable {apiVersion : Int} {config : PluginConfig} {tier3 sysemu : Bool} {arch : String}
  {host : HostInfo} {evs : List (Event ⊕ Runtime)} {s : System} {out : List (Action ⊕ Seen)}

/-- **The run without its runtime events.** -/
theorem observed
    (h : runWith apiVersion (System.init config tier3 sysemu arch host) evs = some (s, out)) :
    ∃ s₀ t, runFrom (System.init config tier3 sysemu arch host) (ownOf evs)
        = some (s₀, ownOf out) ∧ s = s₀.withTables t :=
  observed_run (observer apiVersion) evs (System.init config tier3 sysemu arch host) ⟨∅, ∅⟩ s out h

/-- The settings of a run are those of its installation, with or without
runtime events. -/
theorem settings_run
    (h : runWith apiVersion (System.init config tier3 sysemu arch host) evs = some (s, out)) :
    settingsOf s.machine.plugin = (config, tier3, sysemu, arch) := by
  obtain ⟨s₀, t, hrun, rfl⟩ := observed h
  exact runSteps_invariant Threads.step
    (fun s _ => settingsOf s.machine.plugin = (config, tier3, sysemu, arch))
    (fun _ _ _ _ _ hs hstep => (step_settings hstep).trans hs) (ownOf evs)
    (System.init config tier3 sysemu arch host) [] s₀ (ownOf out) rfl hrun

/-- **The tables of a run** are its observations one after the other. -/
theorem tables_run
    (h : runWith apiVersion (System.init config tier3 sysemu arch host) evs = some (s, out)) :
    tablesOf s.machine.plugin = (seenOf out).foldl
      (Tables.note (registrations apiVersion (PluginState.new config tier3 sysemu arch))) ⟨∅, ∅⟩ := by
  have hview := observing_run
    (fun s : System => (registrations apiVersion s.machine.plugin, tablesOf s.machine.plugin))
    (fun k x => (k.1, k.2.note k.1 x)) ?_ ?_ evs _ s out h
  · have hfold : ∀ (on : Bool × Bool) (l : List Seen) (t : Tables),
        (l.foldl (fun k x => (k.1, Tables.note k.1 k.2 x)) (on, t)) = (on, l.foldl (Tables.note on) t) := by
      intro on l
      induction l with
      | nil => intro t; rfl
      | cons x l ih => intro t; exact ih (t.note on x)
    rw [hfold] at hview
    exact (Prod.mk.inj hview).2
  · intro s e s' out hstep
    obtain ⟨⟨s₁, acts⟩, hown, heq⟩ := Option.map_eq_some_iff.mp hstep
    simp only [Prod.mk.injEq] at heq
    obtain ⟨rfl, rfl⟩ := heq
    refine ⟨?_, seenOf_map_inl acts⟩
    rw [registrations_congr apiVersion (step_settings hown), step_tables hown]
  · intro s x s' out hstep
    obtain ⟨note, rfl, rfl⟩ := observe_note hstep
    rfl

end Runs

/-! ## §5. What the tables hold. -/

/-- The discontinuities, in order. -/
def disconsOf (l : List Seen) : List (UInt32 × UInt64 × UInt64) :=
  l.filterMap fun
    | .discontinued disconType fromPc toPc => some (disconType, fromPc, toPc)
    | _ => none

/-- The devices that TBs at `a` accessed, in order and with repetitions. -/
def devicesOf (a : UInt64) (l : List Seen) : List String :=
  l.filterMap fun
    | .accessed tbStart hwaddr => if tbStart = a then Tier3.deviceOf hwaddr else none
    | _ => none

theorem foldl_note_discons (on : Bool × Bool) (l : List Seen) :
    ∀ t : Tables, (l.foldl (Tables.note on) t).discons
      = if on.2 then ((disconsOf l).map fun k => (k, (1 : UInt64))).foldl
          (fun m e => m.bump e.1 e.2) t.discons else t.discons := by
  induction l with
  | nil =>
      intro t
      split <;> rfl
  | cons x l ih =>
      intro t
      rw [List.foldl_cons, ih]
      cases x with
      | accessed tbStart hwaddr =>
          have hsame : (t.note on (.accessed tbStart hwaddr)).discons = t.discons := by
            unfold Tables.note
            dsimp only
            split
            · cases Tier3.deviceOf hwaddr <;> rfl
            · rfl
          rw [hsame]
          rfl
      | discontinued disconType fromPc toPc =>
          by_cases hon : on.2 = true
          · have hbump : (t.note on (.discontinued disconType fromPc toPc)).discons
                = t.discons.bump (disconType, fromPc, toPc) 1 := by
              show (if on.2 then _ else t : Tables).discons = _
              rw [if_pos hon]
            rw [if_pos hon, if_pos hon, hbump]
            rfl
          · have hsame : (t.note on (.discontinued disconType fromPc toPc)).discons
                = t.discons := by
              show (if on.2 then _ else t : Tables).discons = _
              rw [if_neg hon]
            rw [if_neg hon, if_neg hon, hsame]

/-- One access, seen from the entry of one TB. -/
theorem lookup_note_accessed (on : Bool × Bool) (t : Tables) (tbStart a : UInt64)
    (hwaddr : Option Tier3.HwAddr) :
    (t.note on (.accessed tbStart hwaddr)).devices.lookup a
      = if on.1 = true ∧ devicesOf a [.accessed tbStart hwaddr] ≠ [] then
          some ((devicesOf a [.accessed tbStart hwaddr]).foldl Tier3.pushNew
            ((t.devices.lookup a).getD []))
        else t.devices.lookup a := by
  have hone : devicesOf a [.accessed tbStart hwaddr]
      = (if tbStart = a then Tier3.deviceOf hwaddr else none).toList := by
    unfold devicesOf
    rw [List.filterMap_cons]
    dsimp only
    cases (if tbStart = a then Tier3.deviceOf hwaddr else none) <;> rfl
  rw [hone]
  unfold Tables.note
  dsimp only
  by_cases hon : on.1 = true
  · rw [if_pos hon]
    cases Tier3.deviceOf hwaddr with
    | none => simp
    | some name =>
        dsimp only
        by_cases ha : tbStart = a
        · subst ha
          rw [if_pos rfl, AList.lookup_insert, if_pos ⟨hon, by simp⟩]
          rfl
        · rw [if_neg ha, AList.lookup_insert_ne (Ne.symm ha), if_neg (by simp)]
  · rw [if_neg hon, if_neg fun h => hon h.1]

theorem devicesOf_cons (a : UInt64) (x : Seen) (l : List Seen) :
    devicesOf a (x :: l) = devicesOf a [x] ++ devicesOf a l := by
  rw [← List.singleton_append]
  exact List.filterMap_append

theorem lookup_foldl_note (on : Bool × Bool) (a : UInt64) (l : List Seen) :
    ∀ t : Tables, (l.foldl (Tables.note on) t).devices.lookup a
      = if on.1 = true ∧ devicesOf a l ≠ [] then
          some ((devicesOf a l).foldl Tier3.pushNew ((t.devices.lookup a).getD []))
        else t.devices.lookup a := by
  induction l with
  | nil =>
      intro t
      rw [if_neg fun h => h.2 rfl]
      rfl
  | cons x l ih =>
      intro t
      have hone : (t.note on x).devices.lookup a
          = if on.1 = true ∧ devicesOf a [x] ≠ [] then
              some ((devicesOf a [x]).foldl Tier3.pushNew ((t.devices.lookup a).getD []))
            else t.devices.lookup a := by
        cases x with
        | accessed tbStart hwaddr => exact lookup_note_accessed on t tbStart a hwaddr
        | discontinued disconType fromPc toPc =>
            rw [if_neg fun h => h.2 rfl]
            show (if on.2 then _ else t : Tables).devices.lookup a = _
            split <;> rfl
      rw [List.foldl_cons, ih, hone, devicesOf_cons a x l, List.foldl_append]
      by_cases hon : on.1 = true
      · by_cases hx : devicesOf a [x] = []
        · rw [hx]
          simp
        · by_cases hl : devicesOf a l = []
          · simp [hon, hx, hl]
          · simp [hon, hx, hl]
      · simp [hon]

end QemuProfiler.Threads

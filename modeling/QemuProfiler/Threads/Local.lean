/-
  QemuProfiler.Threads.Local
  ──────────────────────────
  **WHAT BELONGS TO ONE vCPU.**

  A callback reads the scoreboard entry and the exec counts of the vCPU that
  executes, and the configuration.  Other threads leave all of these alone, so
  what is left of an execution records what it would record uninterrupted:

    • `advance_other` — a section of another thread changes nothing local,
    • `advance_due` — a section records the first part of what is due,
    • `due_opsOf` — at entry, what is due is what an uninterrupted execution
      records.
-/
import QemuProfiler.Threads.Invariant

namespace QemuProfiler.Threads

open QemuProfiler.Lib QemuProfiler.Plugin QemuProfiler.Qemu QemuProfiler.Edges

/-! ## §1. Local data. -/

/-- The data of a vCPU and the configuration are the same. -/
structure SameLocal (v : Nat) (m m' : Machine) : Prop where
  vcpu : m'.vcpus v = m.vcpus v
  counts : ∀ sb, m'.execCounts sb v = m.execCounts sb v
  config : m'.plugin.config = m.plugin.config

theorem SameLocal.refl (v : Nat) (m : Machine) : SameLocal v m m := ⟨rfl, fun _ => rfl, rfl⟩

theorem SameLocal.symm {v : Nat} {m m' : Machine} (h : SameLocal v m m') : SameLocal v m' m :=
  ⟨h.vcpu.symm, fun sb => (h.counts sb).symm, h.config.symm⟩

theorem SameLocal.trans {v : Nat} {m m' m'' : Machine} (h : SameLocal v m m')
    (h' : SameLocal v m' m'') : SameLocal v m m'' :=
  ⟨h'.vcpu.trans h.vcpu, fun sb => (h'.counts sb).trans (h.counts sb), h'.config.trans h.config⟩

/-- A new plugin state with the same configuration. -/
theorem SameLocal.withPlugin (v : Nat) {m : Machine} {plugin : PluginState}
    (h : plugin.config = m.plugin.config) : SameLocal v m (Machine.withPlugin m plugin) :=
  ⟨rfl, fun _ => rfl, h⟩

theorem SameLocal.readSlot {v : Nat} {m m' : Machine} (h : SameLocal v m m') (slot : Slot) :
    readSlot m' v slot = readSlot m v slot := by
  cases slot with
  | execCount sb => exact h.counts sb
  | lastTbEnd => exact congrArg VcpuState.lastTbEnd h.vcpu
  | fallThroughAddr => exact congrArg VcpuState.fallThroughAddr h.vcpu
  | pendingIndirectCallsite => exact congrArg VcpuState.pendingIndirectCallsite h.vcpu

theorem SameLocal.writeSlot {v : Nat} {m m' : Machine} (h : SameLocal v m m') (slot : Slot)
    (x : UInt64) : SameLocal v (writeSlot m v slot x) (writeSlot m' v slot x) := by
  cases slot with
  | execCount scoreboard =>
      refine ⟨h.vcpu, ?_, h.config⟩
      intro sb
      show Function.update m'.execCounts scoreboard _ sb v
        = Function.update m.execCounts scoreboard _ sb v
      by_cases hsb : sb = scoreboard
      · rw [hsb, Function.update_self, Function.update_self, Function.update_self,
            Function.update_self]
      · rw [Function.update_of_ne hsb, Function.update_of_ne hsb]
        exact h.counts sb
  | _ =>
      refine ⟨?_, h.counts, h.config⟩
      show Function.update m'.vcpus v _ v = Function.update m.vcpus v _ v
      rw [Function.update_self, Function.update_self, h.vcpu]

theorem SameLocal.runInline {v : Nat} {m m' : Machine} (h : SameLocal v m m') (op : InlineOp) :
    SameLocal v (runInline v m op) (runInline v m' op) := by
  cases op with
  | add slot imm =>
      show SameLocal v (Qemu.writeSlot m v slot (Qemu.readSlot m v slot + imm))
        (Qemu.writeSlot m' v slot (Qemu.readSlot m' v slot + imm))
      rw [h.readSlot]
      exact h.writeSlot slot _
  | store slot imm => exact h.writeSlot slot imm

/-- An inline operation of one vCPU is none of another's business. -/
theorem runInline_other {u v : Nat} (huv : u ≠ v) (m : Machine) (op : InlineOp) :
    SameLocal u m (runInline v m op) := by
  have hwrite : ∀ slot x, SameLocal u m (writeSlot m v slot x) := by
    intro slot x
    cases slot with
    | execCount scoreboard =>
        refine ⟨rfl, ?_, rfl⟩
        intro sb
        show Function.update m.execCounts scoreboard _ sb u = m.execCounts sb u
        by_cases hsb : sb = scoreboard
        · rw [hsb, Function.update_self, Function.update_of_ne huv]
        · rw [Function.update_of_ne hsb]
    | _ => exact ⟨Function.update_of_ne huv _ _, fun _ => rfl, rfl⟩
  cases op with
  | add slot imm => exact hwrite slot _
  | store slot imm => exact hwrite slot imm

/-! ## §2. What is due. -/

/-- The edge that a registration records. -/
def opEdges (v : Nat) (m : Machine) : TbOp → List Edge
  | .condCb (.branchTaken toAddr) cond slot imm =>
      if Cond.holds cond (readSlot m v slot) imm ∧ (m.vcpus v).lastTbEnd ≠ 0 then
        [⟨(m.vcpus v).lastTbEnd, toAddr⟩]
      else []
  | _ => []

/-- The indirect call that is paired with a target. -/
def callAt (v : Nat) (m : Machine) (toAddr : UInt64) : List (UInt64 × UInt64) :=
  if m.plugin.config.tier ≥ 2 ∧ (m.vcpus v).pendingIndirectCallsite ≠ 0 then
    [((m.vcpus v).pendingIndirectCallsite, toAddr)]
  else []

/-- The calls that a registration records: next to its edges. -/
def opCalls (v : Nat) (m : Machine) (op : TbOp) : List (UInt64 × UInt64) :=
  (opEdges v m op).flatMap fun e => callAt v m e.toAddr

/-- What a registration does to the vCPU's own data. -/
def opLocal (v : Nat) (m : Machine) : TbOp → Machine
  | .inline op => runInline v m op
  | .condCb _ _ _ _ => m

/-- The vCPU's own data after some registrations. -/
def settle (v : Nat) (m : Machine) (ops : List TbOp) : Machine := ops.foldl (opLocal v) m

/-- The edges that some registrations record. -/
def dueEdges (v : Nat) : Machine → List TbOp → List Edge
  | _, [] => []
  | m, op :: ops => opEdges v m op ++ dueEdges v (opLocal v m op) ops

/-- The calls that they record. -/
def dueCalls (v : Nat) : Machine → List TbOp → List (UInt64 × UInt64)
  | _, [] => []
  | m, op :: ops => opCalls v m op ++ dueCalls v (opLocal v m op) ops

section Congruence

variable {v : Nat} {m m' : Machine}

theorem SameLocal.opEdges (h : SameLocal v m m') (op : TbOp) :
    opEdges v m' op = opEdges v m op := by
  cases op with
  | inline op => rfl
  | condCb cb cond slot imm =>
      cases cb with
      | firstSeen key => rfl
      | branchTaken toAddr =>
          unfold Threads.opEdges
          dsimp only
          rw [h.readSlot, h.vcpu]

theorem SameLocal.callAt (h : SameLocal v m m') (toAddr : UInt64) :
    callAt v m' toAddr = callAt v m toAddr := by
  unfold Threads.callAt
  rw [h.config, h.vcpu]

theorem SameLocal.opCalls (h : SameLocal v m m') (op : TbOp) :
    opCalls v m' op = opCalls v m op := by
  unfold Threads.opCalls
  rw [h.opEdges]
  exact List.flatMap_congr fun e _ => h.callAt e.toAddr

theorem SameLocal.opLocal (h : SameLocal v m m') (op : TbOp) :
    SameLocal v (opLocal v m op) (opLocal v m' op) := by
  cases op with
  | inline op => exact h.runInline op
  | condCb cb cond slot imm => exact h

theorem SameLocal.settle (ops : List TbOp) : ∀ {m m' : Machine}, SameLocal v m m' →
    SameLocal v (settle v m ops) (settle v m' ops) := by
  induction ops with
  | nil => intro m m' h; exact h
  | cons op ops ih => intro m m' h; exact ih (h.opLocal op)

/-- **What is due depends on local data only.** -/
theorem SameLocal.dueEdges (ops : List TbOp) : ∀ {m m' : Machine}, SameLocal v m m' →
    dueEdges v m' ops = dueEdges v m ops := by
  induction ops with
  | nil => intro m m' _; rfl
  | cons op ops ih =>
      intro m m' h
      rw [Threads.dueEdges, Threads.dueEdges, h.opEdges, ih (h.opLocal op)]

theorem SameLocal.dueCalls (ops : List TbOp) : ∀ {m m' : Machine}, SameLocal v m m' →
    dueCalls v m' ops = dueCalls v m ops := by
  induction ops with
  | nil => intro m m' _; rfl
  | cons op ops ih =>
      intro m m' h
      rw [Threads.dueCalls, Threads.dueCalls, h.opCalls, ih (h.opLocal op)]

end Congruence

/-! ## §3. An execution that is not interrupted. -/

/-- `branch_taken_cb`, from the vCPU's own data. -/
theorem branchTakenCb_local (env : Env) (v : Nat) (m : Machine) (out : Emitted) (toAddr : UInt64)
    (cond : Cond) (slot : Slot) (imm : UInt64)
    (hcond : Cond.holds cond (readSlot m v slot) imm = true) :
    SameLocal v m (branchTakenCb env v m out toAddr).1
      ∧ (branchTakenCb env v m out toAddr).2.edges
          = out.edges ++ opEdges v m (.condCb (.branchTaken toAddr) cond slot imm)
      ∧ (branchTakenCb env v m out toAddr).2.calls
          = out.calls ++ opCalls v m (.condCb (.branchTaken toAddr) cond slot imm) := by
  have hconf : (m.plugin.recordEdge env v (m.vcpus v).lastTbEnd toAddr).config = m.plugin.config :=
    config_step m.plugin ⟨env, v, ⟨(m.vcpus v).lastTbEnd, toAddr⟩⟩
  unfold branchTakenCb
  dsimp only
  by_cases hend : (m.vcpus v).lastTbEnd = 0
  · have hedges : opEdges v m (.condCb (.branchTaken toAddr) cond slot imm) = [] :=
      if_neg fun h => h.2 hend
    unfold opCalls
    rw [if_pos hend, hedges]
    exact ⟨SameLocal.refl .., (List.append_nil _).symm, (List.append_nil _).symm⟩
  · have hedges : opEdges v m (.condCb (.branchTaken toAddr) cond slot imm)
        = [⟨(m.vcpus v).lastTbEnd, toAddr⟩] := if_pos ⟨hcond, hend⟩
    unfold opCalls
    rw [if_neg hend, hconf, hedges, List.flatMap_singleton]
    unfold callAt
    by_cases hcall : m.plugin.config.tier ≥ 2 ∧ (m.vcpus v).pendingIndirectCallsite ≠ 0
    · rw [if_pos hcall, if_pos hcall]
      refine ⟨⟨rfl, fun _ => rfl, ?_⟩, rfl, rfl⟩
      -- neither recording touches the configuration
      obtain ⟨maps, heq, _⟩ := recordCalls_frame v
        [((m.vcpus v).pendingIndirectCallsite, toAddr)]
        (m.plugin.recordEdge env v (m.vcpus v).lastTbEnd toAddr)
      show (recordCalls v _ [((m.vcpus v).pendingIndirectCallsite, toAddr)]).config = _
      rw [heq]
      exact hconf
    · rw [if_neg hcall, if_neg hcall]
      exact ⟨⟨rfl, fun _ => rfl, hconf⟩, rfl, (List.append_nil _).symm⟩

/-- One registration. -/
theorem runTbOp_local (env : Env) (v : Nat) (m : Machine) (out : Emitted) (op : TbOp) :
    SameLocal v (opLocal v m op) (runTbOp env v (m, out) op).1
      ∧ (runTbOp env v (m, out) op).2.edges = out.edges ++ opEdges v m op
      ∧ (runTbOp env v (m, out) op).2.calls = out.calls ++ opCalls v m op := by
  cases op with
  | inline op => exact ⟨SameLocal.refl .., (List.append_nil _).symm, (List.append_nil _).symm⟩
  | condCb cb cond slot imm =>
      unfold runTbOp
      dsimp only
      by_cases hcond : Cond.holds cond (readSlot m v slot) imm = true
      · rw [if_pos hcond]
        cases cb with
        | firstSeen key =>
            exact ⟨⟨rfl, fun _ => rfl, rfl⟩, (List.append_nil _).symm, (List.append_nil _).symm⟩
        | branchTaken toAddr => exact branchTakenCb_local env v m out toAddr cond slot imm hcond
      · rw [if_neg hcond]
        have hnone : opEdges v m (.condCb cb cond slot imm) = [] := by
          cases cb with
          | firstSeen key => rfl
          | branchTaken toAddr => exact if_neg fun h => hcond h.1
        unfold opCalls
        rw [hnone]
        exact ⟨SameLocal.refl .., (List.append_nil _).symm, (List.append_nil _).symm⟩

/-- **Uninterrupted registrations** record what is due. -/
theorem foldl_runTbOp (env : Env) (v : Nat) (ops : List TbOp) :
    ∀ (m m' : Machine) (out : Emitted), SameLocal v m m' →
      SameLocal v (settle v m ops) (ops.foldl (runTbOp env v) (m', out)).1
        ∧ (ops.foldl (runTbOp env v) (m', out)).2.edges = out.edges ++ dueEdges v m ops
        ∧ (ops.foldl (runTbOp env v) (m', out)).2.calls = out.calls ++ dueCalls v m ops := by
  induction ops with
  | nil =>
      intro m m' out h
      exact ⟨h, (List.append_nil _).symm, (List.append_nil _).symm⟩
  | cons op ops ih =>
      intro m m' out h
      obtain ⟨hloc, hedges, hcalls⟩ := runTbOp_local env v m' out op
      obtain ⟨hrest, hrestEdges, hrestCalls⟩ := ih (opLocal v m op)
        (runTbOp env v (m', out) op).1 (runTbOp env v (m', out) op).2 ((h.opLocal op).trans hloc)
      rw [List.foldl_cons]
      refine ⟨hrest, ?_, ?_⟩
      · rw [hrestEdges, hedges, h.opEdges, dueEdges, List.append_assoc]
      · rw [hrestCalls, hcalls, h.opCalls, dueCalls, List.append_assoc]

/-- The registrations of an execution, run in one go, are the execution. -/
theorem foldl_opsOf (env : Env) (v : Nat) (m : Machine) (tr : Translation) (started : Nat) :
    (opsOf tr started).foldl (runTbOp env v) (m, Emitted.none) = execTb env v m tr started := by
  have hinline : ∀ (ops : List InlineOp) (s : Machine × Emitted),
      (ops.map TbOp.inline).foldl (runTbOp env v) s = (ops.foldl (runInline v) s.1, s.2) := by
    intro ops
    induction ops with
    | nil => intro s; rfl
    | cons op ops ih =>
        intro s
        rw [List.map_cons, List.foldl_cons, ih]
        rfl
  unfold opsOf execTb startInsns enterTb
  rw [List.foldl_append, hinline]

/-- **AT ENTRY**, what is due is what an uninterrupted execution records, and
the vCPU's data end up the same. -/
theorem due_opsOf (v : Nat) (m : Machine) {tr : Translation} {started : Nat}
    (htr : Instrumented m.plugin tr) (h : started ≤ tr.tb.insns.length) :
    dueEdges v m (opsOf tr started) = (entryEdge m.plugin (m.vcpus v) tr).toList
      ∧ dueCalls v m (opsOf tr started) = (entryCall m.plugin (m.vcpus v) tr).toList
      ∧ (settle v m (opsOf tr started)).vcpus v
          = vcpuAfter m.plugin tr started (m.vcpus v) := by
  obtain ⟨hloc, hedges, hcalls⟩ := foldl_runTbOp ⟨[], 0⟩ v (opsOf tr started) m m Emitted.none
    (SameLocal.refl v m)
  rw [foldl_opsOf, execTb_eq ⟨[], 0⟩ v m htr h] at hloc hedges hcalls
  refine ⟨?_, ?_, ?_⟩
  · rw [Emitted.none, List.nil_append] at hedges
    rw [← hedges]
    show ((entryEdge m.plugin (m.vcpus v) tr).toList.map fun e => (⟨⟨[], 0⟩, v, e⟩ : EdgeEvent)).map
      EdgeEvent.edge = _
    rw [List.map_map]
    exact List.map_id _
  · rw [Emitted.none, List.nil_append] at hcalls
    exact hcalls.symm
  · rw [← hloc.vcpu]
    exact Function.update_self ..

/-! ## §4. Sections. -/

/-- The edge that a section passes to `record_edge`. -/
def Thread.edgesNow (v : Nat) (m : Machine) : Thread → List Edge
  | .ops (op :: _) => opEdges v m op
  | _ => []

/-- The call that a section passes to `record_indirect_call`. -/
def Thread.callsNow (v : Nat) (m : Machine) : Thread → List (UInt64 × UInt64)
  | .pendingCall toAddr _ => callAt v m toAddr
  | _ => []

/-- The call that `branch_taken_cb`, once begun, has yet to record. -/
def Thread.owedCalls (v : Nat) (m : Machine) : Thread → List (UInt64 × UInt64)
  | .addFlushed _ toAddr _ => callAt v m toAddr
  | .writeBatch _ toAddr _ => callAt v m toAddr
  | .pendingCall toAddr _ => callAt v m toAddr
  | _ => []

/-- All calls that a thread has yet to record. -/
def Thread.dueCalls (v : Nat) (m : Machine) (th : Thread) : List (UInt64 × UInt64) :=
  th.owedCalls v m ++ Threads.dueCalls v m th.queue

/-- **A SECTION**: `th` before it, `th'` after it.  It records the first part
of what is due and leaves the rest. -/
structure Section (v : Nat) (m : Machine) (th : Thread) (m' : Machine) (th' : Thread) : Prop where
  settled : SameLocal v (settle v m th.queue) (settle v m' th'.queue)
  edges : dueEdges v m th.queue = th.edgesNow v m ++ dueEdges v m' th'.queue
  calls : th.dueCalls v m = th.callsNow v m ++ th'.dueCalls v m'

/-- Sections of a translation record nothing, and leave local data alone. -/
theorem section_of_same {v : Nat} {m m' : Machine} {th th' : Thread} (h : SameLocal v m m')
    (hq : th'.queue = th.queue) (hedges : th.edgesNow v m = [])
    (hcalls : th.owedCalls v m = th.callsNow v m ++ th'.owedCalls v m') :
    Section v m th m' th' := by
  refine ⟨?_, ?_, ?_⟩
  · rw [hq]
    exact h.settle th.queue
  · rw [hedges, hq, h.dueEdges th.queue]
    rfl
  · unfold Thread.dueCalls
    rw [hcalls, hq, h.dueCalls th.queue, List.append_assoc]

/-- Callbacks change the plugin only, and not its configuration. -/
theorem startCallback_same (u : Nat) (env : Env) (v : Nat) (m : Machine) (rest : List TbOp)
    (cb : Callback) : SameLocal u m (startCallback env v m rest cb).1 := by
  cases cb with
  | firstSeen key => exact SameLocal.withPlugin u rfl
  | branchTaken toAddr =>
      obtain ⟨accs, heq, _⟩ := recordLocal_spec env m.plugin v (m.vcpus v).lastTbEnd toAddr
      have hconf : (m.plugin.recordLocal env v (m.vcpus v).lastTbEnd toAddr).1.config
          = m.plugin.config := by rw [heq]
      unfold startCallback
      dsimp only
      by_cases hend : (m.vcpus v).lastTbEnd = 0
      · rw [if_pos hend]
        exact SameLocal.refl u m
      · rw [if_neg hend]
        cases (m.plugin.recordLocal env v (m.vcpus v).lastTbEnd toAddr).2 with
        | none => exact SameLocal.withPlugin u hconf
        | some edges => exact SameLocal.withPlugin u hconf

/-- **Only inline operations change local data.** -/
theorem advance_same (u : Nat) (env : Env) (v : Nat) (m : Machine) (th : Thread)
    (h : ∀ op rest, th ≠ .ops (.inline op :: rest)) : SameLocal u m (advance env v m th).1 := by
  cases th with
  | exchangeFlag tb =>
      unfold advance
      dsimp only
      by_cases hflag : m.plugin.writerInitialized = true
      · rw [if_pos hflag]
        exact SameLocal.refl u m
      · rw [if_neg hflag]
        exact SameLocal.withPlugin u rfl
  | storeWriter tb =>
      obtain ⟨writer, heq⟩ := openWriter_frame m.host m.plugin
      exact SameLocal.withPlugin u (by rw [heq])
  | internSymbol tb => exact SameLocal.withPlugin u (symbolOf_same m.plugin tb).1.config
  | mapTb tb symId =>
      exact ⟨rfl, fun _ => rfl, (mapSection_spec symId m.nextScoreboard m.plugin tb).same.config⟩
  | laterTiers tr => exact ⟨rfl, fun _ => rfl, (laterTiers_spec m.plugin tr.tb).1.config⟩
  | ops rest =>
      cases rest with
      | nil => exact SameLocal.refl u m
      | cons op rest =>
          cases op with
          | inline op => exact absurd rfl (h op rest)
          | condCb cb cond slot imm =>
              show SameLocal u m (runOp env v m rest (.condCb cb cond slot imm)).1
              unfold runOp
              dsimp only
              by_cases hcond : Cond.holds cond (readSlot m v slot) imm = true
              · rw [if_pos hcond]
                exact startCallback_same u env v m rest cb
              · rw [if_neg hcond]
                exact SameLocal.refl u m
  | pendingCall toAddr rest =>
      unfold advance
      dsimp only
      by_cases hcall : m.plugin.config.tier ≥ 2 ∧ (m.vcpus v).pendingIndirectCallsite ≠ 0
      · rw [if_pos hcall]
        obtain ⟨maps, heq, _⟩ := recordCalls_frame v
          [((m.vcpus v).pendingIndirectCallsite, toAddr)] m.plugin
        refine SameLocal.withPlugin u ?_
        show (recordCalls v m.plugin [((m.vcpus v).pendingIndirectCallsite, toAddr)]).config = _
        rw [heq]
      · rw [if_neg hcall]
        exact SameLocal.refl u m
  | storeNumber key seq rest => exact SameLocal.withPlugin u rfl
  | addFlushed edges toAddr rest => exact SameLocal.withPlugin u rfl
  | writeBatch edges toAddr rest => exact SameLocal.withPlugin u rfl
  | idle => exact SameLocal.refl u m
  | loadFlag tb => exact SameLocal.refl u m

/-- **A SECTION OF ANOTHER THREAD** changes nothing local. -/
theorem advance_other {u v : Nat} (huv : u ≠ v) (env : Env) (m : Machine) (th : Thread) :
    SameLocal u m (advance env v m th).1 := by
  by_cases h : ∃ op rest, th = .ops (.inline op :: rest)
  · obtain ⟨op, rest, rfl⟩ := h
    exact runInline_other huv m op
  · exact advance_same u env v m th fun op rest heq => h ⟨op, rest, heq⟩

/-- A callback that is called records its edge in its first section. -/
theorem startCallback_section (env : Env) (v : Nat) (m : Machine) (rest : List TbOp)
    (cb : Callback) (cond : Cond) (slot : Slot) (imm : UInt64)
    (hcond : Cond.holds cond (readSlot m v slot) imm = true) :
    Section v m (.ops (.condCb cb cond slot imm :: rest)) (startCallback env v m rest cb).1
      (startCallback env v m rest cb).2.1 := by
  have hsame := startCallback_same v env v m rest cb
  cases cb with
  | firstSeen key =>
      exact ⟨hsame.settle rest, (hsame.dueEdges rest).symm, (hsame.dueCalls rest).symm⟩
  | branchTaken toAddr =>
      unfold startCallback at hsame ⊢
      dsimp only at hsame ⊢
      by_cases hend : (m.vcpus v).lastTbEnd = 0
      · have hnone : opEdges v m (.condCb (.branchTaken toAddr) cond slot imm) = [] :=
          if_neg fun h => h.2 hend
        rw [if_pos hend]
        refine ⟨SameLocal.refl .., rfl, ?_⟩
        show opCalls v m (.condCb (.branchTaken toAddr) cond slot imm) ++ Threads.dueCalls v m rest
          = Threads.dueCalls v m rest
        unfold opCalls
        rw [hnone]
        rfl
      · have hcall : opCalls v m (.condCb (.branchTaken toAddr) cond slot imm)
            = callAt v m toAddr := by
          have hedge : opEdges v m (.condCb (.branchTaken toAddr) cond slot imm)
              = [⟨(m.vcpus v).lastTbEnd, toAddr⟩] := if_pos ⟨hcond, hend⟩
          unfold opCalls
          rw [hedge, List.flatMap_singleton]
        rw [if_neg hend] at hsame ⊢
        -- drained or not, the call stays to be recorded, and then the rest
        cases hdrain : (m.plugin.recordLocal env v (m.vcpus v).lastTbEnd toAddr).2 with
        | none =>
            rw [hdrain] at hsame
            refine ⟨hsame.settle rest, congrArg _ (hsame.dueEdges rest).symm, ?_⟩
            show opCalls v m (.condCb (.branchTaken toAddr) cond slot imm)
                ++ Threads.dueCalls v m rest
              = callAt v _ toAddr ++ Threads.dueCalls v _ rest
            rw [hcall, hsame.callAt, hsame.dueCalls rest]
        | some edges =>
            rw [hdrain] at hsame
            refine ⟨hsame.settle rest, congrArg _ (hsame.dueEdges rest).symm, ?_⟩
            show opCalls v m (.condCb (.branchTaken toAddr) cond slot imm)
                ++ Threads.dueCalls v m rest
              = callAt v _ toAddr ++ Threads.dueCalls v _ rest
            rw [hcall, hsame.callAt, hsame.dueCalls rest]

/-- One registration. -/
theorem runOp_section (env : Env) (v : Nat) (m : Machine) (op : TbOp) (rest : List TbOp) :
    Section v m (.ops (op :: rest)) (runOp env v m rest op).1 (runOp env v m rest op).2.1 := by
  cases op with
  | inline op => exact ⟨SameLocal.refl .., rfl, rfl⟩
  | condCb cb cond slot imm =>
      unfold runOp
      dsimp only
      by_cases hcond : Cond.holds cond (readSlot m v slot) imm = true
      · rw [if_pos hcond]
        exact startCallback_section env v m rest cb cond slot imm hcond
      · have hnone : opEdges v m (.condCb cb cond slot imm) = [] := by
          cases cb with
          | firstSeen key => rfl
          | branchTaken toAddr => exact if_neg fun h => hcond h.1
        rw [if_neg hcond]
        refine ⟨SameLocal.refl .., ?_, ?_⟩
        · show opEdges v m (.condCb cb cond slot imm) ++ dueEdges v m rest
            = opEdges v m (.condCb cb cond slot imm) ++ dueEdges v m rest
          rfl
        · show opCalls v m (.condCb cb cond slot imm) ++ Threads.dueCalls v m rest
            = Threads.dueCalls v m rest
          unfold opCalls
          rw [hnone]
          rfl

/-- **ONE SECTION** records the first part of what is due. -/
theorem advance_due (env : Env) (v : Nat) (m : Machine) (th : Thread) :
    Section v m th (advance env v m th).1 (advance env v m th).2.1 := by
  cases th with
  | ops rest =>
      cases rest with
      | nil => exact section_of_same (SameLocal.refl v m) rfl rfl rfl
      | cons op rest => exact runOp_section env v m op rest
  | loadFlag tb =>
      unfold advance
      dsimp only
      split <;> exact section_of_same (SameLocal.refl v m) rfl rfl rfl
  | exchangeFlag tb =>
      have hsame := advance_same v env v m (.exchangeFlag tb) fun _ _ => by simp
      unfold advance at hsame ⊢
      dsimp only at hsame ⊢
      by_cases hflag : m.plugin.writerInitialized = true
      · rw [if_pos hflag] at hsame ⊢
        exact section_of_same hsame rfl rfl rfl
      · rw [if_neg hflag] at hsame ⊢
        exact section_of_same hsame rfl rfl rfl
  | addFlushed edges toAddr rest =>
      have hsame := advance_same v env v m (.addFlushed edges toAddr rest) fun _ _ => by simp
      exact section_of_same hsame rfl rfl (hsame.callAt toAddr).symm
  | writeBatch edges toAddr rest =>
      have hsame := advance_same v env v m (.writeBatch edges toAddr rest) fun _ _ => by simp
      exact section_of_same hsame rfl rfl (hsame.callAt toAddr).symm
  | pendingCall toAddr rest =>
      have hsame := advance_same v env v m (.pendingCall toAddr rest) fun _ _ => by simp
      unfold advance at hsame ⊢
      dsimp only at hsame ⊢
      by_cases hcall : m.plugin.config.tier ≥ 2 ∧ (m.vcpus v).pendingIndirectCallsite ≠ 0
      · rw [if_pos hcall] at hsame ⊢
        exact section_of_same hsame rfl rfl (List.append_nil _).symm
      · rw [if_neg hcall] at hsame ⊢
        exact section_of_same hsame rfl rfl (List.append_nil _).symm
  | idle => exact section_of_same (advance_same v env v m _ fun _ _ => by simp) rfl rfl rfl
  | storeWriter tb =>
      exact section_of_same (advance_same v env v m _ fun _ _ => by simp) rfl rfl rfl
  | internSymbol tb =>
      exact section_of_same (advance_same v env v m _ fun _ _ => by simp) rfl rfl rfl
  | mapTb tb symId =>
      exact section_of_same (advance_same v env v m _ fun _ _ => by simp) rfl rfl rfl
  | laterTiers tr => exact section_of_same (advance_same v env v m _ fun _ _ => by simp) rfl rfl rfl
  | storeNumber key seq rest =>
      exact section_of_same (advance_same v env v m _ fun _ _ => by simp) rfl rfl rfl

end QemuProfiler.Threads

/-
  QemuProfiler.Threads.Refinement
  ───────────────────────────────
  **RUNS OF THE MACHINE ARE SCHEDULES OF THE SYSTEM.**

  `Qemu.Machine` runs every callback in one go, `Threads.System` section by
  section.  The machine's runs are the system's in which a thread that has
  begun goes on alone until it is idle again (`Alone`):

    • `alone_translate`, `alone_execTb` — a translation and an execution,
    • `step_is_schedule`, `run_is_schedule` — an event and a run, with the same
      executions, recorded edges and calls, pruned and flushed entries,
    • `machine_of_system` — so what holds in every interleaving holds of the
      machine; `machine_records` are its recorded edges and calls, got from
      those of the system.
-/
import QemuProfiler.Threads.EdgeTrace

namespace QemuProfiler.Threads

open QemuProfiler.Lib QemuProfiler.Plugin QemuProfiler.Qemu QemuProfiler.Edges

/-! ## §1. One thread, alone. -/

/-- Thread `v` goes from `th` to `th'`, section by section, and no other thread
comes in; with what it emits and what an observer notes. -/
inductive Alone (env : Env) (v : Nat) :
    Machine → Thread → Machine → Thread → List Action → List Note → Prop where
  | refl (m : Machine) (th : Thread) : Alone env v m th m th [] []
  | cons {m m' : Machine} {th th' : Thread} {acts : List Action} {notes : List Note}
      (hv : v < m.numVcpus)
      (h : Alone env v (advance env v m th).1 (advance env v m th).2.1 m' th' acts notes) :
      Alone env v m th m' th' ((advance env v m th).2.2 ++ acts)
        (sectionNotes env v m th ++ notes)

section Alone

variable {env : Env} {v : Nat} {m m' m'' : Machine} {th th' th'' : Thread}
  {acts acts' : List Action} {notes notes' : List Note}

theorem Alone.trans (h : Alone env v m th m' th' acts notes)
    (h' : Alone env v m' th' m'' th'' acts' notes') :
    Alone env v m th m'' th'' (acts ++ acts') (notes ++ notes') := by
  induction h with
  | refl m th => exact h'
  | cons hv _ ih =>
      rw [List.append_assoc, List.append_assoc]
      exact Alone.cons hv (ih h')

/-- One section. -/
theorem Alone.single (env : Env) (m : Machine) (th : Thread) (hv : v < m.numVcpus) :
    Alone env v m th (advance env v m th).1 (advance env v m th).2.1 (advance env v m th).2.2
      (sectionNotes env v m th) := by
  have hrest : Alone env v (advance env v m th).1 (advance env v m th).2.1 (advance env v m th).1
      (advance env v m th).2.1 [] [] := Alone.refl _ _
  have h := Alone.cons hv hrest
  rw [List.append_nil, List.append_nil] at h
  exact h

/-- A thread that executes runs a section at least. -/
theorem Alone.first {ops : List TbOp} (h : Alone env v m (.ops ops) m' .idle acts notes) :
    ∃ acts' notes', Alone env v (advance env v m (.ops ops)).1 (advance env v m (.ops ops)).2.1 m'
        .idle acts' notes'
      ∧ acts = (advance env v m (.ops ops)).2.2 ++ acts'
      ∧ notes = sectionNotes env v m (.ops ops) ++ notes' := by
  cases h with
  | cons _ h => exact ⟨_, _, h, rfl, rfl⟩

/-- **A SCHEDULE** that lets the thread run. -/
theorem Alone.schedule (h : Alone env v m th m' th' acts notes) :
    ∀ threads : Nat → Thread, threads v = th →
      ∃ evs, runFrom ⟨m, threads⟩ evs = some (⟨m', Function.update threads v th'⟩, acts)
        ∧ notesOf ⟨m, threads⟩ evs = notes := by
  induction h with
  | refl m th =>
      intro threads hth
      refine ⟨[], ?_, rfl⟩
      rw [← hth, Function.update_eq_self]
      rfl
  | @cons m m' th th' acts notes hv _ ih =>
      intro threads hth
      obtain ⟨evs, hrun, hnotes⟩ := ih
        (Function.update threads v (advance env v m th).2.1) (Function.update_self ..)
      have hstep : step ⟨m, threads⟩ (.run v env)
          = some (⟨(advance env v m th).1, Function.update threads v (advance env v m th).2.1⟩,
            (advance env v m th).2.2) := by
        subst hth
        exact if_pos hv
      refine ⟨.run v env :: evs, ?_, ?_⟩
      · rw [Function.update_idem] at hrun
        exact runSteps_append step [.run v env] evs (runSteps_singleton hstep) hrun
      · unfold notesOf at hnotes ⊢
        rw [watch_cons hstep, hnotes]
        subst hth
        rfl

end Alone

/-! ## §2. Registrations. -/

/-- **THE SAME IS RECORDED**: what `out'` has more than `out` is what the
sections emit and an observer notes. -/
structure Records (v : Nat) (out out' : Emitted) (acts : List Action) (notes : List Note) :
    Prop where
  entries : entriesOf notes = []
  edges : out'.edges.map (fun e => (v, e)) = out.edges.map (fun e => (v, e)) ++ recordedEdges notes
  calls : out'.calls.map (fun c => (v, c)) = out.calls.map (fun c => (v, c)) ++ recordedCalls notes
  dropped : out'.dropped = out.dropped ++ prunedEntries notes
  flushed : out'.flushed.map toTriple = out.flushed.map toTriple ++ drainedOf acts

theorem Records.refl (v : Nat) (out : Emitted) : Records v out out [] [] :=
  ⟨rfl, (List.append_nil _).symm, (List.append_nil _).symm, (List.append_nil _).symm,
    (List.append_nil _).symm⟩

theorem Records.trans {v : Nat} {out out' out'' : Emitted} {acts acts' : List Action}
    {notes notes' : List Note} (h : Records v out out' acts notes)
    (h' : Records v out' out'' acts' notes') :
    Records v out out'' (acts ++ acts') (notes ++ notes') := by
  refine ⟨?_, ?_, ?_, ?_, ?_⟩
  · rw [entriesOf_append, h.entries, h'.entries]
    rfl
  · rw [h'.edges, h.edges, recordedEdges_append, List.append_assoc]
  · rw [h'.calls, h.calls, recordedCalls_append, List.append_assoc]
  · rw [h'.dropped, h.dropped, prunedEntries_append, List.append_assoc]
  · rw [h'.flushed, h.flushed, drainedOf_append, List.append_assoc]

section Registrations

variable {env : Env} {v : Nat} {m : Machine}

theorem records_section (th : Thread) {out out' : Emitted} {acts : List Action}
    (hedges : out'.edges = out.edges ++ th.edgesNow v m)
    (hcalls : out'.calls = out.calls ++ th.callsNow v m)
    (hdropped : out'.dropped
      = out.dropped ++ (th.edgesNow v m).flatMap fun e => droppedOf m.plugin ⟨env, v, e⟩)
    (hflushed : out'.flushed.map toTriple = out.flushed.map toTriple ++ drainedOf acts) :
    Records v out out' acts (sectionNotes env v m th) := by
  refine ⟨entriesOf_section env v m th, ?_, ?_, ?_, hflushed⟩
  · rw [hedges, List.map_append, recordedEdges_section]
  · rw [hcalls, List.map_append, recordedCalls_section]
  · rw [hdropped, prunedEntries_section]

/-- A section that records nothing. -/
theorem records_nothing (th : Thread) (out : Emitted) {acts : List Action}
    (hedges : th.edgesNow v m = []) (hcalls : th.callsNow v m = [])
    (hdrained : drainedOf acts = []) :
    Records v out out acts (sectionNotes env v m th) := by
  refine records_section th ?_ ?_ ?_ ?_
  · rw [hedges, List.append_nil]
  · rw [hcalls, List.append_nil]
  · rw [hedges]
    exact (List.append_nil _).symm
  · rw [hdrained, List.append_nil]

/-- `branch_taken_cb` after `record_edge`. -/
theorem alone_pendingCall (env : Env) {m : Machine} (hv : v < m.numVcpus) (toAddr : UInt64)
    (rest : List TbOp) (out : Emitted) :
    ∃ notes, Alone env v m (.pendingCall toAddr rest)
        (if m.plugin.config.tier ≥ 2 ∧ (m.vcpus v).pendingIndirectCallsite ≠ 0 then
          { m with
            plugin := m.plugin.recordIndirectCall v (m.vcpus v).pendingIndirectCallsite toAddr }
        else m) (.ops rest) [] notes
      ∧ Records v out { out with calls := out.calls ++ callAt v m toAddr } [] notes := by
  have hsec := Alone.single env m (.pendingCall toAddr rest) hv
  have hrec : Records v out { out with calls := out.calls ++ callAt v m toAddr } []
      (sectionNotes env v m (.pendingCall toAddr rest)) :=
    records_section (.pendingCall toAddr rest) (List.append_nil _).symm rfl
      (List.append_nil _).symm (List.append_nil _).symm
  refine ⟨_, ?_, hrec⟩
  unfold advance at hsec
  dsimp only at hsec
  by_cases hcall : m.plugin.config.tier ≥ 2 ∧ (m.vcpus v).pendingIndirectCallsite ≠ 0
  · rw [if_pos hcall] at hsec ⊢
    exact hsec
  · rw [if_neg hcall] at hsec ⊢
    exact hsec

/-- What a call of `record_edge` adds. -/
def withEdge (env : Env) (v : Nat) (m : Machine) (out : Emitted) (e : Edge) : Emitted :=
  { out with
    edges := out.edges ++ [e]
    dropped := out.dropped ++ droppedOf m.plugin ⟨env, v, e⟩
    flushed := out.flushed ++ flushedOf m.plugin ⟨env, v, e⟩ }

/-- `record_edge`, up to the section of `branch_taken_cb` behind it. -/
theorem alone_recordEdge (hv : v < m.numVcpus) {cond : Cond} {slot : Slot} {imm : UInt64}
    (hcond : Cond.holds cond (readSlot m v slot) imm = true)
    (hend : (m.vcpus v).lastTbEnd ≠ 0) (toAddr : UInt64) (rest : List TbOp) (out : Emitted) :
    ∃ acts notes, Alone env v m (.ops (.condCb (.branchTaken toAddr) cond slot imm :: rest))
        { m with plugin := m.plugin.recordEdge env v (m.vcpus v).lastTbEnd toAddr }
        (.pendingCall toAddr rest) acts notes
      ∧ Records v out (withEdge env v m out ⟨(m.vcpus v).lastTbEnd, toAddr⟩) acts notes := by
  obtain ⟨_, hdrain⟩ := recordLocal_eq env m.plugin v ⟨(m.vcpus v).lastTbEnd, toAddr⟩
  dsimp only at hdrain
  have hfirst := Alone.single env m
    (.ops (.condCb (.branchTaken toAddr) cond slot imm :: rest)) hv
  have hnow : Thread.edgesNow v m (.ops (.condCb (.branchTaken toAddr) cond slot imm :: rest))
      = [⟨(m.vcpus v).lastTbEnd, toAddr⟩] := if_pos ⟨hcond, hend⟩
  have hadv : advance env v m (.ops (.condCb (.branchTaken toAddr) cond slot imm :: rest))
      = startCallback env v m rest (.branchTaken toAddr) := if_pos hcond
  unfold startCallback at hadv
  dsimp only at hadv
  rw [if_neg hend] at hadv
  have hrec : ∀ acts : List Action,
      drainedOf acts = ((m.plugin.recordLocal env v (m.vcpus v).lastTbEnd toAddr).2).getD [] →
      Records v out (withEdge env v m out ⟨(m.vcpus v).lastTbEnd, toAddr⟩) acts
        (sectionNotes env v m (.ops (.condCb (.branchTaken toAddr) cond slot imm :: rest))) := by
    intro acts hacts
    refine records_section _ ?_ (List.append_nil _).symm ?_ ?_
    · rw [hnow]
      rfl
    · rw [hnow, List.flatMap_singleton]
      rfl
    · rw [hacts, hdrain, ← List.map_append]
      rfl
  have hplugin := PluginState.recordEdge_eq env m.plugin v (m.vcpus v).lastTbEnd toAddr
  dsimp only at hplugin
  rw [hadv] at hfirst
  cases hdrained : (m.plugin.recordLocal env v (m.vcpus v).lastTbEnd toAddr).2 with
  | none =>
      rw [hdrained] at hfirst hrec hplugin
      rw [hplugin]
      exact ⟨_, _, hfirst, hrec [] rfl⟩
  | some edges =>
      rw [hdrained] at hfirst hrec hplugin
      rw [hplugin]
      -- drained: the two sections of `flush_edges`
      have hadd := Alone.single env
        (Machine.withPlugin m (m.plugin.recordLocal env v (m.vcpus v).lastTbEnd toAddr).1)
        (.addFlushed edges toAddr rest) hv
      have hwrite := Alone.single env (Machine.withPlugin m
          ((m.plugin.recordLocal env v (m.vcpus v).lastTbEnd toAddr).1.addFlushed edges))
        (.writeBatch edges toAddr rest) hv
      have hwritten : drainedOf (advance env v (Machine.withPlugin m
          ((m.plugin.recordLocal env v (m.vcpus v).lastTbEnd toAddr).1.addFlushed edges))
          (.writeBatch edges toAddr rest)).2.2 = [] := by
        show drainedOf [if _ then Action.logged edges else .lost edges] = []
        split <;> rfl
      exact ⟨_, _, hfirst.trans (hadd.trans hwrite),
        (hrec [.drained edges] (List.append_nil _)).trans
          ((records_nothing (.addFlushed edges toAddr rest) _ rfl rfl rfl).trans
            (records_nothing (.writeBatch edges toAddr rest) _ rfl rfl hwritten))⟩

theorem alone_branchTaken (hv : v < m.numVcpus) {cond : Cond} {slot : Slot} {imm : UInt64}
    (hcond : Cond.holds cond (readSlot m v slot) imm = true) (toAddr : UInt64) (rest : List TbOp)
    (out : Emitted) :
    ∃ acts notes, Alone env v m (.ops (.condCb (.branchTaken toAddr) cond slot imm :: rest))
        (branchTakenCb env v m out toAddr).1 (.ops rest) acts notes
      ∧ Records v out (branchTakenCb env v m out toAddr).2 acts notes := by
  unfold branchTakenCb
  dsimp only
  by_cases hend : (m.vcpus v).lastTbEnd = 0
  · have hsec := Alone.single env m
      (.ops (.condCb (.branchTaken toAddr) cond slot imm :: rest)) hv
    have hadv : advance env v m (.ops (.condCb (.branchTaken toAddr) cond slot imm :: rest))
        = (m, .ops rest, []) := (if_pos hcond).trans (if_pos hend)
    rw [hadv] at hsec
    rw [if_pos hend]
    exact ⟨_, _, hsec, records_nothing _ out (if_neg fun h => h.2 hend) rfl rfl⟩
  · rw [if_neg hend]
    obtain ⟨acts, notes, halone, hrec⟩ := alone_recordEdge hv hcond hend toAddr rest out
    have hv' : v < ({ m with
        plugin := m.plugin.recordEdge env v (m.vcpus v).lastTbEnd toAddr } : Machine).numVcpus := hv
    obtain ⟨notes', halone', hrec'⟩ := alone_pendingCall env hv' toAddr rest
      (withEdge env v m out ⟨(m.vcpus v).lastTbEnd, toAddr⟩)
    refine ⟨acts ++ [], notes ++ notes', ?_, ?_⟩
    · by_cases hcall : (m.plugin.recordEdge env v (m.vcpus v).lastTbEnd toAddr).config.tier ≥ 2
          ∧ (m.vcpus v).pendingIndirectCallsite ≠ 0
      · rw [if_pos hcall] at halone' ⊢
        exact halone.trans halone'
      · rw [if_neg hcall] at halone' ⊢
        exact halone.trans halone'
    · unfold callAt at hrec'
      dsimp only at hrec'
      by_cases hcall : (m.plugin.recordEdge env v (m.vcpus v).lastTbEnd toAddr).config.tier ≥ 2
          ∧ (m.vcpus v).pendingIndirectCallsite ≠ 0
      · rw [if_pos hcall] at hrec' ⊢
        exact hrec.trans hrec'
      · rw [if_neg hcall, List.append_nil] at hrec'
        rw [if_neg hcall]
        exact hrec.trans hrec'

theorem numVcpus_runTbOp (env : Env) (v : Nat) (m : Machine) (out : Emitted) (op : TbOp) :
    (runTbOp env v (m, out) op).1.numVcpus = m.numVcpus := by
  cases op with
  | inline op =>
      obtain ⟨vcpus, counts, heq⟩ := runInline_frame v m op
      show (runInline v m op).numVcpus = _
      rw [heq]
  | condCb cb cond slot imm =>
      unfold runTbOp
      dsimp only
      by_cases hcond : Cond.holds cond (readSlot m v slot) imm = true
      · rw [if_pos hcond]
        cases cb with
        | firstSeen key => rfl
        | branchTaken toAddr =>
            show (branchTakenCb env v m out toAddr).1.numVcpus = _
            unfold branchTakenCb
            dsimp only
            split
            · rfl
            · split <;> rfl
      · rw [if_neg hcond]

/-- **One registration.** -/
theorem alone_runTbOp (env : Env) (hv : v < m.numVcpus) (op : TbOp) (rest : List TbOp)
    (out : Emitted) :
    ∃ acts notes, Alone env v m (.ops (op :: rest)) (runTbOp env v (m, out) op).1 (.ops rest)
        acts notes
      ∧ Records v out (runTbOp env v (m, out) op).2 acts notes := by
  have hsec := Alone.single env m (.ops (op :: rest)) hv
  cases op with
  | inline op => exact ⟨_, _, hsec, records_nothing _ out rfl rfl rfl⟩
  | condCb cb cond slot imm =>
      unfold runTbOp
      dsimp only
      by_cases hcond : Cond.holds cond (readSlot m v slot) imm = true
      · rw [if_pos hcond]
        cases cb with
        | firstSeen key =>
            -- the number is taken, then stored
            have hadv : advance env v m (.ops (.condCb (.firstSeen key) cond slot imm :: rest))
                = (Machine.withPlugin m m.plugin.takeNumber,
                  .storeNumber key m.plugin.sequenceCounter rest, [.numbered key]) := if_pos hcond
            have hstore := Alone.single env (Machine.withPlugin m m.plugin.takeNumber)
              (.storeNumber key m.plugin.sequenceCounter rest) hv
            rw [hadv] at hsec
            exact ⟨_, _, hsec.trans hstore, (records_nothing _ out rfl rfl rfl).trans
              (records_nothing (.storeNumber key m.plugin.sequenceCounter rest) out rfl rfl rfl)⟩
        | branchTaken toAddr => exact alone_branchTaken hv hcond toAddr rest out
      · have hadv : advance env v m (.ops (.condCb cb cond slot imm :: rest))
            = (m, .ops rest, []) := if_neg hcond
        have hnow : Thread.edgesNow v m (.ops (.condCb cb cond slot imm :: rest)) = [] := by
          cases cb with
          | firstSeen key => rfl
          | branchTaken toAddr => exact if_neg fun h => hcond h.1
        rw [hadv] at hsec
        rw [if_neg hcond]
        exact ⟨_, _, hsec, records_nothing _ out hnow rfl rfl⟩

/-- **All registrations of an execution**, and the thread is idle. -/
theorem alone_ops (env : Env) (ops : List TbOp) : ∀ {m : Machine} (out : Emitted), v < m.numVcpus →
    ∃ acts notes, Alone env v m (.ops ops) (ops.foldl (runTbOp env v) (m, out)).1 .idle acts notes
      ∧ Records v out (ops.foldl (runTbOp env v) (m, out)).2 acts notes := by
  induction ops with
  | nil =>
      intro m out hv
      exact ⟨_, _, Alone.single env m (.ops []) hv, records_nothing (.ops []) out rfl rfl rfl⟩
  | cons op ops ih =>
      intro m out hv
      obtain ⟨acts, notes, halone, hrec⟩ := alone_runTbOp env hv op ops out
      have hv' : v < (runTbOp env v (m, out) op).1.numVcpus := by
        rw [numVcpus_runTbOp]
        exact hv
      obtain ⟨acts', notes', halone', hrec'⟩ := ih (runTbOp env v (m, out) op).2 hv'
      exact ⟨_, _, halone.trans halone', hrec.trans hrec'⟩

end Registrations

/-! ## §3. Translations. -/

/-- A section that emits and notes nothing. -/
theorem Alone.quiet {env : Env} {v : Nat} {m m' : Machine} {th th' : Thread} (hv : v < m.numVcpus)
    (hadv : advance env v m th = (m', th', [])) (hedges : th.edgesNow v m = [])
    (hcalls : th.callsNow v m = []) : Alone env v m th m' th' [] [] := by
  have h := Alone.single env m th hv
  have hnotes : sectionNotes env v m th = [] := by
    unfold sectionNotes
    rw [hedges, hcalls]
    rfl
  rw [hadv, hnotes] at h
  exact h

/-- `vcpu_tb_trans` from the symbol table on. -/
theorem alone_internSymbol (env : Env) {v : Nat} (m : Machine) (tb : QemuTb)
    (hv : v < m.numVcpus) :
    Alone env v (Machine.withPlugin m (initWriterIfNeeded m.host m.plugin)) (.internSymbol tb)
      (Qemu.translate m tb) .idle [] [] := by
  set plugin := initWriterIfNeeded m.host m.plugin with hplugin
  set r := Tier0.mapSection (Tier0.symbolOf plugin tb).1 m.nextScoreboard
    (Tier0.symbolOf plugin tb).2 tb with hr
  have hsymbol : Alone env v (Machine.withPlugin m plugin) (.internSymbol tb)
      (Machine.withPlugin m (Tier0.symbolOf plugin tb).2) (.mapTb tb (Tier0.symbolOf plugin tb).1)
      [] [] := Alone.quiet hv rfl rfl rfl
  have hmap : Alone env v (Machine.withPlugin m (Tier0.symbolOf plugin tb).2)
      (.mapTb tb (Tier0.symbolOf plugin tb).1)
      { m with plugin := r.1, nextScoreboard := m.nextScoreboard + 1 }
      (.laterTiers ⟨tb, r.2.2, instrumentationOf r.1 tb r.2.1 r.2.2⟩) [] [] :=
    Alone.quiet hv rfl rfl rfl
  have hlater : Alone env v { m with plugin := r.1, nextScoreboard := m.nextScoreboard + 1 }
      (.laterTiers ⟨tb, r.2.2, instrumentationOf r.1 tb r.2.1 r.2.2⟩) (Qemu.translate m tb) .idle
      [] [] := Alone.quiet hv rfl rfl rfl
  exact hsymbol.trans (hmap.trans hlater)

/-- **A TRANSLATION.** -/
theorem alone_translate (env : Env) {v : Nat} {m : Machine} (hv : v < m.numVcpus) (tb : QemuTb) :
    Alone env v m (.loadFlag tb) (Qemu.translate m tb) .idle [] [] := by
  have hrest := alone_internSymbol env m tb hv
  rw [initWriterIfNeeded_eq] at hrest
  by_cases hinit : m.plugin.writerInitialized = true
  · rw [if_pos hinit] at hrest
    have hload : advance env v m (.loadFlag tb) = (m, .internSymbol tb, []) := by
      show (m, if m.plugin.writerInitialized = true then _ else _, _) = _
      rw [if_pos hinit]
    exact (Alone.quiet hv hload rfl rfl).trans hrest
  · -- the exchange is won, and the log created
    rw [if_neg hinit] at hrest
    have hload : advance env v m (.loadFlag tb) = (m, .exchangeFlag tb, []) := by
      show (m, if m.plugin.writerInitialized = true then _ else _, _) = _
      rw [if_neg hinit]
    have hwon : Alone env v m (.exchangeFlag tb)
        (Machine.withPlugin m { m.plugin with writerInitialized := true }) (.storeWriter tb)
        [] [] :=
      Alone.quiet hv (if_neg hinit) rfl rfl
    have hstored : Alone env v (Machine.withPlugin m { m.plugin with writerInitialized := true })
        (.storeWriter tb) (Machine.withPlugin m (openWriter m.host { m.plugin with
          writerInitialized := true })) (.internSymbol tb) [] [] := Alone.quiet hv rfl rfl rfl
    exact (Alone.quiet hv hload rfl rfl).trans (hwon.trans (hstored.trans hrest))

/-! ## §4. Events. -/

/-- No thread is in a callback. -/
def System.atRest (m : Machine) : System := ⟨m, fun _ => .idle⟩

/-- The execution alone; the system notes separately what it records. -/
def bare (r : ExecRecord) : ExecRecord := { r with emitted := Emitted.none }

/-- **THE SAME TRACE**: the executions of the machine, with what was recorded
during them. -/
structure SameTrace (rs : List ExecRecord) (out : List Action) (notes : List Note) : Prop where
  entries : entriesOf notes = rs.map bare
  edges : recordedEdges notes = rs.flatMap fun r => r.emitted.edges.map fun e => (r.vcpu, e)
  calls : recordedCalls notes = rs.flatMap fun r => r.emitted.calls.map fun c => (r.vcpu, c)
  dropped : prunedEntries notes = rs.flatMap fun r => r.emitted.dropped
  flushed : drainedOf out = rs.flatMap fun r => r.emitted.flushed.map toTriple

theorem SameTrace.nil : SameTrace [] [] [] := ⟨rfl, rfl, rfl, rfl, rfl⟩

theorem SameTrace.append {rs rs' : List ExecRecord} {out out' : List Action}
    {notes notes' : List Note} (h : SameTrace rs out notes) (h' : SameTrace rs' out' notes') :
    SameTrace (rs ++ rs') (out ++ out') (notes ++ notes') := by
  refine ⟨?_, ?_, ?_, ?_, ?_⟩
  · rw [entriesOf_append, h.entries, h'.entries, List.map_append]
  · rw [recordedEdges_append, h.edges, h'.edges, List.flatMap_append]
  · rw [recordedCalls_append, h.calls, h'.calls, List.flatMap_append]
  · rw [prunedEntries_append, h.dropped, h'.dropped, List.flatMap_append]
  · rw [drainedOf_append, h.flushed, h'.flushed, List.flatMap_append]

/-- What each execution notes, party by party. -/
theorem ofParty_flatMap {β : Type} (f : ExecRecord → List β) (v : Nat) (rs : List ExecRecord) :
    (ofParty Prod.fst v (rs.flatMap fun r => (f r).map fun x => (r.vcpu, x))).map Prod.snd
      = (onVcpu v rs).flatMap f := by
  induction rs with
  | nil => rfl
  | cons r rs ih =>
      unfold onVcpu ofParty at ih ⊢
      rw [List.flatMap_cons, List.filter_append, List.map_append, ih, List.filter_cons]
      by_cases hv : r.vcpu = v
      · have hall : ((f r).map fun x => (r.vcpu, x)).filter (fun a => decide (a.1 = v))
            = (f r).map fun x => (r.vcpu, x) := by
          rw [List.filter_eq_self]
          intro a ha
          obtain ⟨x, _, rfl⟩ := List.mem_map.mp ha
          exact decide_eq_true hv
        rw [if_pos (decide_eq_true hv), List.flatMap_cons, hall, List.map_map]
        congr 1
        exact List.map_id _
      · have hnone : ((f r).map fun x => (r.vcpu, x)).filter (fun a => decide (a.1 = v)) = [] := by
          rw [List.filter_eq_nil_iff]
          intro a ha
          obtain ⟨x, _, rfl⟩ := List.mem_map.mp ha
          exact fun h => hv (of_decide_eq_true h)
        rw [if_neg fun h => hv (of_decide_eq_true h), hnone]
        rfl

theorem SameTrace.edgesOf {rs : List ExecRecord} {out : List Action} {notes : List Note}
    (h : SameTrace rs out notes) (v : Nat) :
    Threads.edgesOf v notes = (onVcpu v rs).flatMap fun r => r.emitted.edges := by
  unfold Threads.edgesOf
  rw [h.edges]
  exact ofParty_flatMap (fun r => r.emitted.edges) v rs

theorem SameTrace.callsOf {rs : List ExecRecord} {out : List Action} {notes : List Note}
    (h : SameTrace rs out notes) (v : Nat) :
    Threads.callsOf v notes = (onVcpu v rs).flatMap fun r => r.emitted.calls := by
  unfold Threads.callsOf
  rw [h.calls]
  exact ofParty_flatMap (fun r => r.emitted.calls) v rs

section Events

variable {m m' : Machine}

theorem update_idle (v : Nat) (th : Thread) :
    Function.update (Function.update (fun _ : Nat => Thread.idle) v th) v .idle
      = fun _ => .idle := by
  rw [Function.update_idem]
  exact Function.update_eq_self v _

theorem translate_is_schedule (hup : 0 < m.numVcpus) (tb : QemuTb) :
    ∃ evs, runFrom (System.atRest m) evs = some (System.atRest (Qemu.translate m tb), [])
      ∧ notesOf (System.atRest m) evs = [] := by
  have hstep : step (System.atRest m) (.translate 0 tb)
      = some ((System.atRest m).give 0 (.loadFlag tb), []) := if_pos ⟨hup, rfl⟩
  obtain ⟨evs, hrun, hnotes⟩ := (alone_translate ⟨[], 0⟩ hup tb).schedule
    (Function.update (fun _ => Thread.idle) 0 (.loadFlag tb)) (Function.update_self ..)
  refine ⟨.translate 0 tb :: evs, ?_, ?_⟩
  · rw [update_idle] at hrun
    exact runSteps_append step [.translate 0 tb] evs (runSteps_singleton hstep) hrun
  · unfold notesOf at hnotes ⊢
    rw [watch_cons hstep]
    exact hnotes

theorem exec_is_schedule {v tid started : Nat} {tr : Translation} (env : Env)
    (htr : m.translations[tid]? = some tr) (hv : v < m.numVcpus) (hlive : m.liveFrom ≤ tid)
    (hs : started ≤ tr.tb.insns.length) :
    ∃ evs out, runFrom (System.atRest m) evs
        = some (System.atRest (execTb env v m tr started).1, out)
      ∧ SameTrace [⟨v, tr, started, (execTb env v m tr started).2⟩] out
          (notesOf (System.atRest m) evs) := by
  obtain ⟨acts, notes, halone, hrec⟩ := alone_ops env (opsOf tr started) Emitted.none hv
  rw [foldl_opsOf] at halone hrec
  -- the first section belongs to the entry
  obtain ⟨acts', notes', hrest, rfl, rfl⟩ := halone.first
  have hstep : step (System.atRest m) (.exec v tid started env)
      = some ((System.atRest m).afterSection v
          ((advance env v m (.ops (opsOf tr started))).1,
            (advance env v m (.ops (opsOf tr started))).2.1,
            .executed v tr :: (advance env v m (.ops (opsOf tr started))).2.2)) := by
    simp only [step, System.atRest, htr]
    exact if_pos ⟨hv, rfl, hlive, hs⟩
  obtain ⟨evs, hrun, hnotes⟩ := hrest.schedule
    (Function.update (fun _ => Thread.idle) v (advance env v m (.ops (opsOf tr started))).2.1)
    (Function.update_self ..)
  rw [update_idle] at hrun
  refine ⟨.exec v tid started env :: evs, _,
    runSteps_append step [.exec v tid started env] evs (runSteps_singleton hstep) hrun, ?_⟩
  have hall : notesOf (System.atRest m) (.exec v tid started env :: evs)
      = [.entered ⟨v, tr, started, Emitted.none⟩]
        ++ (sectionNotes env v m (.ops (opsOf tr started)) ++ notes') := by
    unfold notesOf at hnotes ⊢
    rw [watch_cons hstep, note_exec htr, List.append_assoc]
    exact congrArg (fun l => _ ++ (_ ++ l)) hnotes
  rw [hall]
  refine ⟨?_, ?_, ?_, ?_, ?_⟩
  · rw [entriesOf_append, hrec.entries]
    rfl
  · rw [recordedEdges_append, List.flatMap_singleton]
    exact hrec.edges.symm
  · rw [recordedCalls_append, List.flatMap_singleton]
    exact hrec.calls.symm
  · rw [prunedEntries_append, List.flatMap_singleton]
    exact hrec.dropped.symm
  · rw [List.flatMap_singleton]
    exact hrec.flushed.symm

/-- **AN EVENT** of the machine. -/
theorem step_is_schedule {e : Qemu.Event} {rs : List ExecRecord}
    (h : Qemu.step m e = some (m', rs)) (hup : ∀ tb, e = .translate tb → 0 < m.numVcpus) :
    ∃ evs out, runFrom (System.atRest m) evs = some (System.atRest m', out)
      ∧ SameTrace rs out (notesOf (System.atRest m) evs) := by
  cases e with
  | vcpuInit v =>
      simp only [Qemu.step] at h
      cases hp : m.plugin.ensureVcpuState (v + 1) with
      | none => simp [hp] at h
      | some plugin =>
          simp only [hp, Option.some.injEq, Prod.mk.injEq] at h
          obtain ⟨rfl, rfl⟩ := h
          have hstep : step (System.atRest m) (.vcpuInit v) = some (System.atRest { m with
              plugin := plugin, numVcpus := max m.numVcpus (v + 1) }, []) := by
            simp only [step, System.atRest, hp]
          refine ⟨[.vcpuInit v], [], runSteps_singleton hstep, ?_⟩
          unfold notesOf
          rw [watch_cons hstep]
          exact SameTrace.nil
  | translate tb =>
      simp only [Qemu.step, Option.some.injEq, Prod.mk.injEq] at h
      obtain ⟨rfl, rfl⟩ := h
      obtain ⟨evs, hrun, hnotes⟩ := translate_is_schedule (hup tb rfl) tb
      refine ⟨evs, [], hrun, ?_⟩
      rw [hnotes]
      exact SameTrace.nil
  | flush =>
      simp only [Qemu.step, Option.some.injEq, Prod.mk.injEq] at h
      obtain ⟨rfl, rfl⟩ := h
      exact ⟨[.flush], [], rfl, SameTrace.nil⟩
  | exec v tid started env =>
      simp only [Qemu.step] at h
      cases htr : m.translations[tid]? with
      | none => simp [htr] at h
      | some tr =>
          simp only [htr] at h
          by_cases hok : v < m.numVcpus ∧ m.liveFrom ≤ tid ∧ started ≤ tr.tb.insns.length
          · simp only [if_pos hok, Option.some.injEq, Prod.mk.injEq] at h
            obtain ⟨rfl, rfl⟩ := h
            exact exec_is_schedule env htr hok.1 hok.2.1 hok.2.2
          · rw [if_neg hok] at h
            exact absurd h (by simp)

end Events

/-! ## §5. Runs. -/

/-- Every translation is made by a vCPU: none before one is up.  `n` of them
are. -/
def TranslatesOnVcpus : Nat → List Qemu.Event → Prop
  | _, [] => True
  | n, .vcpuInit v :: evs => TranslatesOnVcpus (max n (v + 1)) evs
  | n, .translate _ :: evs => 0 < n ∧ TranslatesOnVcpus n evs
  | n, .flush :: evs => TranslatesOnVcpus n evs
  | n, .exec _ _ _ _ :: evs => TranslatesOnVcpus n evs

theorem numVcpus_execTb (env : Env) (v : Nat) (m : Machine) (tr : Translation) (started : Nat) :
    (execTb env v m tr started).1.numVcpus = m.numVcpus := by
  have hfold : ∀ (ops : List TbOp) (s : Machine × Emitted),
      (ops.foldl (runTbOp env v) s).1.numVcpus = s.1.numVcpus := by
    intro ops
    induction ops with
    | nil => intro s; rfl
    | cons op ops ih =>
        intro s
        rw [List.foldl_cons, ih, numVcpus_runTbOp]
  rw [← foldl_opsOf, hfold]

/-- What is asked of the first event, and of those behind it. -/
theorem TranslatesOnVcpus.uncons {m m' : Machine} {e : Qemu.Event} {evs : List Qemu.Event}
    {rs : List ExecRecord} (hup : TranslatesOnVcpus m.numVcpus (e :: evs))
    (h : Qemu.step m e = some (m', rs)) :
    (∀ tb, e = .translate tb → 0 < m.numVcpus) ∧ TranslatesOnVcpus m'.numVcpus evs := by
  rcases Qemu.step_cases h with ⟨v, plugin, rfl, _, rfl, _⟩ | ⟨tb, rfl, rfl, _⟩ | ⟨rfl, rfl, _⟩
    | ⟨v, tid, started, env, tr, rfl, _, _, _, rfl, _⟩
  · exact ⟨fun tb heq => absurd heq (by simp), hup⟩
  · exact ⟨fun _ _ => hup.1, hup.2⟩
  · exact ⟨fun tb heq => absurd heq (by simp), hup⟩
  · rw [numVcpus_execTb]
    exact ⟨fun tb heq => absurd heq (by simp), hup⟩

theorem run_is_schedule_from (evs : List Qemu.Event) :
    ∀ {m m' : Machine} {rs : List ExecRecord}, Qemu.runFrom m evs = some (m', rs) →
      TranslatesOnVcpus m.numVcpus evs →
      ∃ sched out, runFrom (System.atRest m) sched = some (System.atRest m', out)
        ∧ SameTrace rs out (notesOf (System.atRest m) sched) := by
  induction evs with
  | nil =>
      intro m m' rs h _
      simp only [Qemu.runFrom, runSteps, Option.some.injEq, Prod.mk.injEq] at h
      obtain ⟨rfl, rfl⟩ := h
      exact ⟨[], [], rfl, SameTrace.nil⟩
  | cons e evs ih =>
      intro m m' rs h hup
      obtain ⟨m₁, rs₁, rs₂, hstep, hrest, rfl⟩ := runSteps_cons_eq_some h
      obtain ⟨htranslates, hup'⟩ := hup.uncons hstep
      obtain ⟨sched₁, out₁, hrun₁, htrace₁⟩ := step_is_schedule hstep htranslates
      obtain ⟨sched₂, out₂, hrun₂, htrace₂⟩ := ih hrest hup'
      refine ⟨sched₁ ++ sched₂, out₁ ++ out₂, runSteps_append step sched₁ sched₂ hrun₁ hrun₂, ?_⟩
      unfold notesOf at htrace₁ htrace₂ ⊢
      rw [watch_append step note sched₁ sched₂ hrun₁]
      exact htrace₁.append htrace₂

section Runs

variable {config : PluginConfig} {tier3 sysemu : Bool} {arch : String} {host : HostInfo}
  {evs : List Qemu.Event} {m : Machine} {rs : List ExecRecord}

/-- **A RUN OF THE MACHINE IS A SCHEDULE OF THE SYSTEM**, if it translates
nothing before a vCPU is up: the system comes to rest in the same machine,
after the same trace. -/
theorem run_is_schedule
    (h : Qemu.runFrom (Machine.init config tier3 sysemu arch host) evs = some (m, rs))
    (hup : TranslatesOnVcpus 0 evs) :
    ∃ sched out, runFrom (System.init config tier3 sysemu arch host) sched
        = some (System.atRest m, out)
      ∧ SameTrace rs out (notesOf (System.init config tier3 sysemu arch host) sched) :=
  run_is_schedule_from evs h hup

/-- **WHAT HOLDS IN EVERY INTERLEAVING HOLDS OF THE MACHINE.** -/
theorem machine_of_system {P : System → List Action → List Note → Prop}
    (hP : ∀ sched s out, runFrom (System.init config tier3 sysemu arch host) sched = some (s, out) →
      P s out (notesOf (System.init config tier3 sysemu arch host) sched))
    (h : Qemu.runFrom (Machine.init config tier3 sysemu arch host) evs = some (m, rs))
    (hup : TranslatesOnVcpus 0 evs) :
    ∃ out notes, SameTrace rs out notes ∧ P (System.atRest m) out notes := by
  obtain ⟨sched, out, hrun, htrace⟩ := run_is_schedule h hup
  exact ⟨out, _, htrace, hP sched _ out hrun⟩

/-- **WHAT THE MACHINE RECORDS**, from what the system does: on every vCPU the
branches, and the indirect calls, that its executions call for. -/
theorem machine_records
    (h : Qemu.runFrom (Machine.init config tier3 sysemu arch host) evs = some (m, rs))
    (hup : TranslatesOnVcpus 0 evs) (v : Nat) :
    (1 ≤ config.tier →
        (onVcpu v rs).flatMap (fun r => r.emitted.edges) = branchesOf v (rs.map bare))
      ∧ (2 ≤ config.tier →
        (onVcpu v rs).flatMap (fun r => r.emitted.calls)
          = pairedOf (Arch.fromName arch) v (rs.map bare)) := by
  obtain ⟨out, notes, htrace, hedges, hcalls⟩ := machine_of_system
    (P := fun s _ notes => (1 ≤ config.tier → FollowsEdges s notes)
      ∧ (2 ≤ config.tier → FollowsCalls (Arch.fromName arch) s notes))
    (fun sched s out hrun => follows_run hrun) h hup
  constructor
  · intro htier
    have hv := (hedges htier).edges v
    rw [htrace.entries, htrace.edgesOf] at hv
    exact (List.append_nil _).symm.trans hv
  · intro htier
    have hv := (hcalls htier).calls v
    rw [htrace.entries, htrace.callsOf] at hv
    exact (List.append_nil _).symm.trans hv

end Runs

/-- Two vCPUs that translate only once they are up. -/
example : TranslatesOnVcpus 0 crossingEvents := by
  simp [crossingEvents, TranslatesOnVcpus]

end QemuProfiler.Threads

/-
  QemuProfiler.Threads.Account
  ────────────────────────────
  **WHERE EVERY RECORDED BRANCH IS**, at any moment of an interleaved run: in
  an accumulator, in a drained batch, or thrown away by a prune (`Balance`,
  `balance_run`).  A streaming plugin prunes nothing (`pruned_streaming`), and
  when nothing is under way the recorded edges are the branches between
  consecutive executions (`countP_recordedEdges_pairs`).
-/
import QemuProfiler.Threads.EdgeTrace
import QemuProfiler.Threads.WriterStart

namespace QemuProfiler.Threads

open QemuProfiler.Lib QemuProfiler.Plugin QemuProfiler.Qemu QemuProfiler.Edges

/-! ## §1. One section. -/

/-- **A section records one edge or none**: the accumulators and the drained
batch are those of the whole `record_edge` call. -/
theorem advance_edges (env : Env) (v : Nat) (m : Machine) (th : Thread) :
    (th.edgesNow v m = []
        ∧ (advance env v m th).1.plugin.edgeAccumulators = m.plugin.edgeAccumulators
        ∧ drainedOf (advance env v m th).2.2 = [])
      ∨ ∃ e, th.edgesNow v m = [e]
        ∧ (advance env v m th).1.plugin.edgeAccumulators
          = (Edges.step m.plugin ⟨env, v, e⟩).edgeAccumulators
        ∧ drainedOf (advance env v m th).2.2 = (flushedOf m.plugin ⟨env, v, e⟩).map toTriple := by
  cases th with
  | exchangeFlag tb =>
      left
      unfold advance
      dsimp only
      split <;> exact ⟨rfl, rfl, rfl⟩
  | storeWriter tb =>
      obtain ⟨writer, heq⟩ := openWriter_frame m.host m.plugin
      refine Or.inl ⟨rfl, ?_, rfl⟩
      show (openWriter m.host m.plugin).edgeAccumulators = _
      rw [heq]
  | internSymbol tb => exact Or.inl ⟨rfl, (symbolOf_same m.plugin tb).1.edgeAccumulators, rfl⟩
  | mapTb tb symId =>
      exact Or.inl ⟨rfl,
        (mapSection_spec symId m.nextScoreboard m.plugin tb).same.edgeAccumulators, rfl⟩
  | laterTiers tr =>
      exact Or.inl ⟨rfl, (laterTiers_spec m.plugin tr.tb).1.edgeAccumulators, rfl⟩
  | writeBatch edges toAddr rest =>
      left
      unfold advance
      cases m.plugin.writer with
      | none => exact ⟨rfl, rfl, rfl⟩
      | some w => exact ⟨rfl, rfl, rfl⟩
  | pendingCall toAddr rest =>
      left
      unfold advance
      dsimp only
      split
      · refine ⟨rfl, ?_, rfl⟩
        obtain ⟨maps, heq, _⟩ := recordCalls_frame v
          [((m.vcpus v).pendingIndirectCallsite, toAddr)] m.plugin
        show (recordCalls v m.plugin
          [((m.vcpus v).pendingIndirectCallsite, toAddr)]).edgeAccumulators = _
        rw [heq]
      · exact ⟨rfl, rfl, rfl⟩
  | ops rest =>
      cases rest with
      | nil => exact Or.inl ⟨rfl, rfl, rfl⟩
      | cons op rest =>
          cases op with
          | inline op =>
              obtain ⟨vcpus, counts, heq⟩ := runInline_frame v m op
              refine Or.inl ⟨rfl, ?_, rfl⟩
              show (runInline v m op).plugin.edgeAccumulators = _
              rw [heq]
          | condCb cb cond slot imm =>
              show (opEdges v m (.condCb cb cond slot imm) = []
                  ∧ (runOp env v m rest (.condCb cb cond slot imm)).1.plugin.edgeAccumulators = _
                  ∧ drainedOf (runOp env v m rest (.condCb cb cond slot imm)).2.2 = [])
                ∨ ∃ e, opEdges v m (.condCb cb cond slot imm) = [e]
                  ∧ (runOp env v m rest (.condCb cb cond slot imm)).1.plugin.edgeAccumulators = _
                  ∧ drainedOf (runOp env v m rest (.condCb cb cond slot imm)).2.2 = _
              unfold runOp
              dsimp only
              by_cases hcond : Cond.holds cond (readSlot m v slot) imm = true
              · rw [if_pos hcond]
                cases cb with
                | firstSeen key => exact Or.inl ⟨rfl, rfl, rfl⟩
                | branchTaken toAddr =>
                    unfold startCallback
                    dsimp only
                    by_cases hend : (m.vcpus v).lastTbEnd = 0
                    · rw [if_pos hend]
                      exact Or.inl ⟨if_neg fun h => h.2 hend, rfl, rfl⟩
                    · rw [if_neg hend]
                      obtain ⟨hplugin, hdrain⟩ :=
                        recordLocal_eq env m.plugin v ⟨(m.vcpus v).lastTbEnd, toAddr⟩
                      refine Or.inr ⟨_, if_pos ⟨hcond, hend⟩, ?_⟩
                      dsimp only at hplugin hdrain
                      rw [hplugin, ← hdrain]
                      -- drained or not
                      cases (m.plugin.recordLocal env v (m.vcpus v).lastTbEnd toAddr).2 with
                      | none => exact ⟨rfl, rfl⟩
                      | some edges => exact ⟨rfl, List.append_nil _⟩
              · rw [if_neg hcond]
                refine Or.inl ⟨?_, rfl, rfl⟩
                cases cb with
                | firstSeen key => rfl
                | branchTaken toAddr => exact if_neg fun h => hcond h.1
  | _ => exact Or.inl ⟨rfl, rfl, rfl⟩

theorem storedItems_congr {s s' : PluginState} (h : s'.edgeAccumulators = s.edgeAccumulators) :
    storedItems s' = storedItems s := by
  unfold storedItems
  rw [h]

theorem map_ofTriple_toTriple (l : List (Edge × UInt64)) : (l.map toTriple).map ofTriple = l := by
  rw [List.map_map]
  exact List.map_id l

/-! ## §2. The balance. -/

/-- **THE BALANCE** of recorded edges: stored, drained and pruned.  Modulo the
word size for counts, as an upper bound for numbers, exactly for keys. -/
structure Balance (s : System) (out : List Action) (notes : List Note) : Prop where
  counts : ∀ p : Edge → Bool, sumWhere p (storedItems s.machine.plugin)
      + sumWhere p ((drainedOf out).map ofTriple) + sumWhere p (prunedEntries notes)
    = UInt64.ofNat ((recordedEdges notes).countP fun e => p e.2)
  le : ∀ p : Edge → Bool, natWhere p (storedItems s.machine.plugin)
      + natWhere p ((drainedOf out).map ofTriple)
    ≤ (recordedEdges notes).countP fun e => p e.2
  keys : ∀ k : Edge, (k ∈ (storedItems s.machine.plugin).map Prod.fst
      ∨ k ∈ ((drainedOf out).map ofTriple).map Prod.fst ∨ k ∈ (prunedEntries notes).map Prod.fst)
    ↔ k ∈ (recordedEdges notes).map Prod.snd
  vcpus : ∀ e ∈ recordedEdges notes, e.1 < s.machine.numVcpus

section Steps

variable {s s' : System} {out acts : List Action} {notes notes' : List Note}

/-- A step that records no edge. -/
theorem Balance.same (h : Balance s out notes)
    (hstored : storedItems s'.machine.plugin = storedItems s.machine.plugin)
    (hdrained : drainedOf acts = []) (hpruned : prunedEntries notes' = [])
    (hedges : recordedEdges notes' = []) (hn : s.machine.numVcpus ≤ s'.machine.numVcpus) :
    Balance s' (out ++ acts) (notes ++ notes') := by
  refine ⟨?_, ?_, ?_, ?_⟩
  · intro p
    rw [hstored, drainedOf_append, prunedEntries_append, recordedEdges_append, hdrained, hpruned,
        hedges, List.append_nil, List.append_nil, List.append_nil]
    exact h.counts p
  · intro p
    rw [hstored, drainedOf_append, recordedEdges_append, hdrained, hedges, List.append_nil,
        List.append_nil]
    exact h.le p
  · intro k
    rw [hstored, drainedOf_append, prunedEntries_append, recordedEdges_append, hdrained, hpruned,
        hedges, List.append_nil, List.append_nil, List.append_nil]
    exact h.keys k
  · intro e he
    rw [recordedEdges_append, hedges, List.append_nil] at he
    exact lt_of_lt_of_le (h.vcpus e he) hn

/-- A step that is one `record_edge` call on the accumulators. -/
theorem Balance.record (h : Balance s out notes) (ev : EdgeEvent)
    (hv : ev.vcpu < s.machine.plugin.edgeAccumulators.length) (hvcpu : ev.vcpu < s.machine.numVcpus)
    (hstored : storedItems s'.machine.plugin = storedItems (Edges.step s.machine.plugin ev))
    (hdrained : drainedOf acts = (flushedOf s.machine.plugin ev).map toTriple)
    (hpruned : prunedEntries notes' = droppedOf s.machine.plugin ev)
    (hedges : recordedEdges notes' = [(ev.vcpu, ev.edge)])
    (hn : s.machine.numVcpus ≤ s'.machine.numVcpus) :
    Balance s' (out ++ acts) (notes ++ notes') := by
  refine ⟨?_, ?_, ?_, ?_⟩
  · intro p
    -- sums modulo 2^64: stored, drained and pruned grow by the one recorded edge
    have hstep := accounting_step p s.machine.plugin ev hv
    have hone : UInt64.ofNat (List.countP (fun e : Nat × Edge => p e.2) [(ev.vcpu, ev.edge)])
        = if p ev.edge then 1 else 0 := by
      by_cases hp : p ev.edge = true
      · simp [hp]
      · simp [hp]
    rw [hstored, drainedOf_append, prunedEntries_append, recordedEdges_append, hdrained, hpruned,
        hedges, List.map_append, map_ofTriple_toTriple, sumWhere_append, sumWhere_append,
        List.countP_append, UInt64.ofNat_add, hone, ← h.counts p]
    calc _ = sumWhere p (storedItems (Edges.step s.machine.plugin ev))
              + sumWhere p (flushedOf s.machine.plugin ev)
              + sumWhere p (droppedOf s.machine.plugin ev)
              + (sumWhere p ((drainedOf out).map ofTriple)
                + sumWhere p (prunedEntries notes)) := by abel
      _ = _ := by
            rw [hstep]
            abel
  · intro p
    -- the same over the natural numbers, as a bound
    have hstep := natWhere_step_le p s.machine.plugin ev
    have hle := h.le p
    have hone : List.countP (fun e : Nat × Edge => p e.2) [(ev.vcpu, ev.edge)]
        = if p ev.edge then 1 else 0 := by
      by_cases hp : p ev.edge = true
      · simp [hp]
      · simp [hp]
    rw [hstored, drainedOf_append, recordedEdges_append, hdrained, hedges, List.map_append,
        map_ofTriple_toTriple, natWhere_append, List.countP_append, hone]
    omega
  · intro k
    have hstep := mem_accounting_step k s.machine.plugin ev hv
    have hkeys := h.keys k
    rw [hstored, drainedOf_append, prunedEntries_append, recordedEdges_append, hdrained, hpruned,
        hedges, List.map_append, map_ofTriple_toTriple]
    simp only [List.map_append, List.mem_append, List.map_cons, List.map_nil, List.mem_singleton]
    rw [← hkeys]
    grind
  · intro e he
    rw [recordedEdges_append, hedges] at he
    rcases List.mem_append.mp he with hold | hnew
    · exact lt_of_lt_of_le (h.vcpus e hold) hn
    · rw [List.mem_singleton.mp hnew]
      exact lt_of_lt_of_le hvcpu hn

/-- **A section keeps the balance.** -/
theorem Balance.run (h : Balance s out notes) {v : Nat} (env : Env)
    (hv : v < s.machine.numVcpus)
    (hslots : s.machine.numVcpus ≤ s.machine.plugin.edgeAccumulators.length)
    (hn : s.machine.numVcpus ≤ (afterRun env v s).machine.numVcpus) :
    Balance (afterRun env v s) (out ++ (advance env v s.machine (s.threads v)).2.2)
      (notes ++ sectionNotes env v s.machine (s.threads v)) := by
  rcases advance_edges env v s.machine (s.threads v) with ⟨hnone, haccs, hdrained⟩
    | ⟨e, hone, haccs, hdrained⟩
  · refine h.same (storedItems_congr haccs) hdrained ?_ ?_ hn
    · rw [prunedEntries_section, hnone]
      rfl
    · rw [recordedEdges_section, hnone]
      rfl
  · refine h.record ⟨env, v, e⟩ (lt_of_lt_of_le hv hslots) hv (storedItems_congr haccs) hdrained ?_
      ?_ hn
    · rw [prunedEntries_section, hone, List.flatMap_singleton]
    · rw [recordedEdges_section, hone]
      rfl

end Steps

/-! ## §3. Every run. -/

section Runs

variable {config : PluginConfig} {tier3 sysemu : Bool} {arch : String} {host : HostInfo}
  {evs : List Event} {s : System} {out : List Action}

theorem numVcpus_afterRun {s : System} {out : List Action} (hinv : Inv s out) (env : Env)
    (v : Nat) :
    (afterRun env v s).machine.numVcpus = s.machine.numVcpus :=
  (advance_effect env v s.machine (hinv.queues v)).frame.1

/-- **EVERY RUN** keeps the balance. -/
theorem balance_run
    (h : runFrom (System.init config tier3 sysemu arch host) evs = some (s, out)) :
    Balance s out (notesOf (System.init config tier3 sysemu arch host) evs) := by
  refine watch_induction Threads.step note Balance _ ?_ ?_ h
  · exact ⟨fun p => rfl, fun p => Nat.le_refl _, fun k => by
      simp [storedItems, System.init, Machine.init, PluginState.new, drainedOf, prunedEntries,
        recordedEdges], fun e he => absurd he List.not_mem_nil⟩
  · intro s out notes e s' acts hreach hb hstep
    obtain ⟨evs, hreach⟩ := hreach
    have hinv := runFrom_inv hreach
    have hready := ready_run hreach
    rcases step_sections hstep with ⟨v, plugin, rfl, hpl, rfl, rfl⟩ | ⟨v, tb, rfl, _, _, rfl, rfl⟩
      | ⟨rfl, rfl, rfl⟩ | ⟨v, tid, started, env, tr, rfl, htr, hv, _, _, rfl, rfl⟩
      | ⟨v, env, rfl, hv, rfl, rfl⟩
    · exact hb.same (storedItems_ensureVcpuState hpl) rfl rfl rfl (le_max_left ..)
    · exact hb.same rfl rfl rfl rfl (Nat.le_refl _)
    · exact hb.same rfl rfl rfl rfl (Nat.le_refl _)
    · -- entering records nothing; then the first section runs
      have hgive : (s.give v (.ops (opsOf tr started))).threads v = .ops (opsOf tr started) :=
        Function.update_self ..
      have henter : Balance (s.give v (.ops (opsOf tr started))) (out ++ [.executed v tr])
          (notes ++ [.entered ⟨v, tr, started, Emitted.none⟩]) :=
        hb.same rfl rfl rfl rfl (Nat.le_refl _)
      obtain ⟨rest, _, _, heq⟩ := afterRun_give_ops hinv (List.mem_of_getElem? htr) env v started
      have hrun := henter.run env hv hready.slots (by rw [heq]; exact Nat.le_refl _)
      rw [hgive] at hrun
      rw [note_exec htr, ← List.append_assoc]
      rw [List.append_assoc out] at hrun
      exact hrun
    · exact hb.run env hv hready.slots (numVcpus_afterRun hinv env v).ge

/-- A streaming plugin only ever has unbounded accumulators, and prunes
nothing. -/
theorem pruned_streaming
    (h : runFrom (System.init config tier3 sysemu arch host) evs = some (s, out))
    (hstreaming : config.streaming = true) :
    prunedEntries (notesOf (System.init config tier3 sysemu arch host) evs) = [] := by
  have hrun := watch_induction Threads.step note
    (fun s _ notes => Unbounded s.machine.plugin ∧ prunedEntries notes = []) _
    ⟨fun acc hacc => absurd hacc List.not_mem_nil, rfl⟩ ?_ h
  · exact hrun.2
  · intro s out notes e s' acts hreach hp hstep
    obtain ⟨evs, hreach⟩ := hreach
    obtain ⟨hu, hpruned⟩ := hp
    have hready := ready_run hreach
    -- a section, of any thread: nothing dropped, and unbounded again
    have hsection : ∀ (env : Env) (v : Nat) (th : Thread),
        Unbounded (advance env v s.machine th).1.plugin
          ∧ prunedEntries (sectionNotes env v s.machine th) = [] := by
      intro env v th
      rw [prunedEntries_section]
      rcases advance_edges env v s.machine th with ⟨hnone, haccs, _⟩ | ⟨e, hone, haccs, _⟩
      · rw [hnone]
        refine ⟨?_, rfl⟩
        unfold Unbounded
        rw [haccs]
        exact hu
      · rw [hone, List.flatMap_singleton]
        refine ⟨?_, ?_⟩
        · unfold Unbounded
          rw [haccs]
          exact hu.step ⟨env, v, e⟩
        · have hdropped := droppedIn_unbounded [⟨env, v, e⟩] s.machine.plugin hu
          rw [show droppedIn s.machine.plugin [⟨env, v, e⟩]
            = droppedOf s.machine.plugin ⟨env, v, e⟩ ++ [] from rfl, List.append_nil] at hdropped
          exact hdropped
    rw [prunedEntries_append, hpruned, List.nil_append]
    rcases step_sections hstep with ⟨v, plugin, rfl, hpl, rfl, _⟩ | ⟨v, tb, rfl, _, _, rfl, _⟩
      | ⟨rfl, rfl, _⟩ | ⟨v, tid, started, env, tr, rfl, htr, _, _, _, rfl, _⟩
      | ⟨v, env, rfl, _, rfl, _⟩
    · refine ⟨?_, rfl⟩
      obtain ⟨i, j, rfl, _⟩ := ensureVcpuState_eq hpl
      intro acc hacc
      rcases List.mem_append.mp hacc with hold | hnew
      · exact hu acc hold
      · rw [List.eq_of_mem_replicate hnew, hready.config_eq, hstreaming]
        exact ⟨_, rfl⟩
    · exact ⟨hu, rfl⟩
    · exact ⟨hu, rfl⟩
    · have hsec := hsection env v (.ops (opsOf tr started))
      rw [note_exec htr, prunedEntries_append, hsec.2]
      refine ⟨?_, rfl⟩
      have hgive : (afterRun env v (s.give v (.ops (opsOf tr started)))).machine
          = (advance env v s.machine (.ops (opsOf tr started))).1 := by
        unfold afterRun System.give
        dsimp only
        rw [Function.update_self]
      rw [hgive]
      exact hsec.1
    · exact hsection env v (s.threads v)

/-! ## §4. Between executions. -/

/-- The recorded edges, vCPU by vCPU. -/
theorem countP_recordedEdges
    (h : runFrom (System.init config tier3 sysemu arch host) evs = some (s, out))
    (p : Edge → Bool) :
    (recordedEdges (notesOf (System.init config tier3 sysemu arch host) evs)).countP (fun e => p e.2)
      = ((List.range s.machine.numVcpus).map fun v =>
          (edgesOf v (notesOf (System.init config tier3 sysemu arch host) evs)).countP p).sum := by
  rw [← sum_countP_parties Prod.fst s.machine.numVcpus _ _ (balance_run h).vcpus]
  congr 1
  apply List.map_congr_left
  intro v _
  unfold edgesOf
  rw [List.countP_map]
  rfl

/-- **When nothing is under way**, the recorded edges of a kind are the pairs of
consecutive executions that call for one. -/
theorem countP_recordedEdges_pairs
    (h : runFrom (System.init config tier3 sysemu arch host) evs = some (s, out))
    (htier : 1 ≤ config.tier) (hidle : ∀ v < s.machine.numVcpus, s.threads v = .idle)
    (hcomplete : ∀ r ∈ entriesOf (notesOf (System.init config tier3 sysemu arch host) evs),
      r.complete = true) (p : Edge → Bool) (q : ExecRecord → ExecRecord → Bool)
    (hq : ∀ a b, (branchEdge (some a) b).countP p = if q a b then 1 else 0) :
    (recordedEdges (notesOf (System.init config tier3 sysemu arch host) evs)).countP
        (fun e => p e.2)
      = pairCount ExecRecord.vcpu s.machine.numVcpus q
          (entriesOf (notesOf (System.init config tier3 sysemu arch host) evs)) := by
  rw [countP_recordedEdges h]
  unfold pairCount
  congr 1
  apply List.map_congr_left
  intro v hv
  have hedges := ((follows_run h).1 htier).edges v
  rw [(due_idle (hidle v (List.mem_range.mp hv))).1, List.append_nil] at hedges
  rw [hedges, branchesOf_complete hcomplete]
  exact countP_flatMap_pairs branchEdge _ q hq _

theorem countP_recordedEdges_idle
    (h : runFrom (System.init config tier3 sysemu arch host) evs = some (s, out))
    (htier : 1 ≤ config.tier) (hidle : ∀ v < s.machine.numVcpus, s.threads v = .idle)
    (hcomplete : ∀ r ∈ entriesOf (notesOf (System.init config tier3 sysemu arch host) evs),
      r.complete = true) (f t : UInt64) :
    (recordedEdges (notesOf (System.init config tier3 sysemu arch host) evs)).countP
        (fun e => decide (e.2 = ⟨f, t⟩))
      = pairCount ExecRecord.vcpu s.machine.numVcpus (takes f t)
          (entriesOf (notesOf (System.init config tier3 sysemu arch host) evs)) :=
  countP_recordedEdges_pairs h htier hidle hcomplete (fun e => decide (e = ⟨f, t⟩)) (takes f t)
    (count_branchEdge f t)

end Runs

end QemuProfiler.Threads

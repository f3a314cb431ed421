/-
  QemuProfiler.Edges.Streaming
  ────────────────────────────
  **STREAMING IS LOSSLESS AND DOES NOT DEPEND ON THE FLUSH SCHEDULE.**

  An edge's count is spread over flushed records, the slots of several vCPUs
  and the final merge; its target's count over `flushed_branch_entries` and
  the exit edges.  Both spreads are read off the account of the run
  (`Edges.Accounting`): in streaming mode nothing is dropped.
-/
import QemuProfiler.Edges.FallThrough
import QemuProfiler.Format.RoundTrip

namespace QemuProfiler.Edges

open QemuProfiler.Lib QemuProfiler.Plugin QemuProfiler.Format
open QemuProfiler.Convert hiding fileMagic FileHeader

/-! ## §1. Start states. -/

/-- The plugin state `s` about to record edges, with `n` fresh vCPU slots in
the given mode and nothing flushed yet. -/
def startState (s : PluginState) (topN : UInt64) (streaming : Bool) (n : Nat) : PluginState :=
  { s with
    config := { s.config with topN := topN, streaming := streaming }
    edgeAccumulators := List.replicate n (EdgeAccumulator.new topN streaming)
    flushedBranchEntries := ∅ }

/-- The same state with the flush branch of `record_edge` switched off: the
accumulators stay the unbounded maps they are, and are never flushed. -/
def withoutFlush (s : PluginState) : PluginState :=
  { s with config := { s.config with streaming := false } }

/-- The writer has been opened, and no branch edge has been written yet. -/
def FreshLog (w : ProfileWriter) : Prop :=
  ∃ tier sysemu streaming loadAddr textStart textEnd entryAddr cs,
    w = callsNext (ProfileWriter.new tier sysemu streaming loadAddr textStart textEnd entryAddr)
        cs
      ∧ cs.flatMap branchEdgesOf = []

theorem storedItems_startState (s : PluginState) (topN : UInt64) (streaming : Bool) (n : Nat) :
    storedItems (startState s topN streaming n) = [] := by
  have hnew : (EdgeAccumulator.new topN streaming).edges = ∅ := by
    cases streaming <;> rfl
  unfold storedItems startState
  rw [List.flatMap_eq_nil_iff]
  intro acc hacc
  rw [List.eq_of_mem_replicate hacc, hnew]
  rfl

theorem branchEntries_startState (s : PluginState) (topN : UInt64) (streaming : Bool) (n : Nat)
    (t : UInt64) : branchEntries (startState s topN streaming n) t = 0 := by
  unfold branchEntries
  rw [storedItems_startState]
  rfl

/-- `record_edge` on a vCPU of the start state. -/
theorem onVcpus_startState {s : PluginState} {topN : UInt64} {streaming : Bool} {n : Nat}
    {evs : List EdgeEvent} (h : ∀ ev ∈ evs, ev.vcpu < n) :
    OnVcpus (startState s topN streaming n) evs := by
  intro ev hev
  unfold startState
  rw [List.length_replicate]
  exact h ev hev

/-- The writer that translation opens is fresh. -/
theorem freshLog_initWriter (host : HostInfo) (s : PluginState)
    (hinit : s.writerInitialized = false) (hopen : host.outputOpens = true) :
    ∃ w, (initWriterIfNeeded host s).writer = some w ∧ FreshLog w := by
  unfold initWriterIfNeeded
  rw [hinit, hopen]
  refine ⟨_, rfl, s.config.tier, s.sysemu, s.config.streaming, host.startCode, host.startCode,
    host.endCode, host.entryCode, [.stringMeta "binary_path" (binaryPathOf host s),
      .stringMeta "arch" s.arch,
      .stringMeta "mode" (if s.sysemu then "sysemu" else "linux-user")], ?_, rfl⟩
  simp only [perform_eq]
  rfl

/-! ## §2. Unbounded accumulators drop nothing. -/

/-- Every slot is an unbounded map. -/
def Unbounded (s : PluginState) : Prop :=
  ∀ acc ∈ s.edgeAccumulators, ∃ map, acc = .streaming map

theorem unbounded_startState (s : PluginState) (topN : UInt64) (n : Nat) :
    Unbounded (startState s topN true n) := by
  intro acc hacc
  exact ⟨StreamingMap.new, List.eq_of_mem_replicate hacc⟩

theorem Unbounded.step {s : PluginState} (h : Unbounded s) (ev : EdgeEvent) :
    Unbounded (step s ev) := by
  refine forall_acc_step h ?_
  rintro acc _ ⟨map, rfl⟩
  unfold accAfter
  by_cases hf : flushes s (.streaming map) ev = true
  · rw [if_pos hf]
    exact ⟨_, rfl⟩
  · rw [if_neg hf]
    exact ⟨_, rfl⟩

/-- What no call contributes to is empty over a run. -/
theorem collect_eq_nil {α : Type} {f : PluginState → EdgeEvent → List α} {P : PluginState → Prop}
    (hkeep : ∀ s ev, P s → P (Edges.step s ev)) (hnil : ∀ s ev, P s → f s ev = [])
    (evs : List EdgeEvent) : ∀ s : PluginState, P s → collect f s evs = [] := by
  induction evs with
  | nil => intro s _; rfl
  | cons ev evs ih =>
      intro s h
      show f s ev ++ collect f (Edges.step s ev) evs = []
      rw [hnil s ev h, ih _ (hkeep s ev h)]
      rfl

theorem droppedIn_unbounded (evs : List EdgeEvent) :
    ∀ s : PluginState, Unbounded s → droppedIn s evs = [] := by
  refine collect_eq_nil (fun s ev h => h.step ev) ?_ evs
  intro s ev h
  unfold droppedOf
  cases hget : s.edgeAccumulators[ev.vcpu]? with
  | none => rfl
  | some acc =>
      obtain ⟨map, rfl⟩ := h acc (List.mem_of_getElem? hget)
      rfl

/-- Branch entries of an unbounded run: the number of calls into `t`. -/
theorem branchEntries_unbounded (t : UInt64) (s : PluginState) (evs : List EdgeEvent)
    (hu : Unbounded s) (hv : OnVcpus s evs) :
    branchEntries (run s evs) t
      = branchEntries s t + UInt64.ofNat (evs.countP fun ev => ev.edge.toAddr = t) := by
  have h := branchEntries_run t s evs hv
  rw [droppedIn_unbounded evs s hu, sumWhere_nil, add_zero] at h
  exact h

section NotStreaming

variable {s : PluginState}

theorem flushes_of_not_streaming (hs : s.config.streaming = false) (acc : EdgeAccumulator)
    (ev : EdgeEvent) : ¬ flushes s acc ev = true := by
  unfold flushes
  rw [hs]
  simp

theorem not_streaming_step (ev : EdgeEvent) (hs : s.config.streaming = false) :
    (step s ev).config.streaming = false := by
  rw [config_step]
  exact hs

/-- With the flush branch off, nothing reaches the log. -/
theorem flushCallsIn_of_not_streaming (evs : List EdgeEvent) :
    ∀ s : PluginState, s.config.streaming = false → flushCallsIn s evs = [] := by
  refine collect_eq_nil (fun s ev => not_streaming_step ev) ?_ evs
  intro s ev hs
  unfold flushCallsOf
  cases s.edgeAccumulators[ev.vcpu]? with
  | none => rfl
  | some acc => exact if_neg (flushes_of_not_streaming hs acc ev)

end NotStreaming

/-! ## §3. The accumulator stays below the threshold. -/

/-- Every slot holds fewer than `max(top_n, 1)` edges. -/
def BelowThreshold (s : PluginState) : Prop :=
  ∀ acc ∈ s.edgeAccumulators, acc.len < max s.config.topN.toNat 1

theorem belowThreshold_step {s : PluginState} (hs : s.config.streaming = true)
    (hu : Unbounded s) (h : BelowThreshold s) (ev : EdgeEvent) : BelowThreshold (step s ev) := by
  unfold BelowThreshold
  rw [config_step]
  refine forall_acc_step h ?_
  intro acc hacc _
  obtain ⟨map, rfl⟩ := hu acc hacc
  unfold accAfter
  by_cases hf : flushes s (.streaming map) ev = true
  · -- flushed: the slot is empty
    rw [if_pos hf]
    show 0 < max s.config.topN.toNat 1
    omega
  · -- not flushed: the test says the slot is still below `top_n`
    rw [if_neg hf]
    unfold flushes recorded EdgeAccumulator.record at hf
    rw [hs] at hf
    simp only [EdgeAccumulator.shouldFlush, Bool.true_and, decide_eq_true_eq] at hf
    show (map.record ev.edge.fromAddr ev.edge.toAddr).edges.len < max s.config.topN.toNat 1
    omega

theorem belowThreshold_run (evs : List EdgeEvent) :
    ∀ s : PluginState, s.config.streaming = true → Unbounded s → BelowThreshold s →
      BelowThreshold (run s evs) := by
  induction evs with
  | nil => intro s _ _ h; exact h
  | cons ev evs ih =>
      intro s hs hu h
      exact ih (step s ev) (by rw [config_step]; exact hs) (hu.step ev)
        (belowThreshold_step hs hu h ev)

theorem belowThreshold_startState (s : PluginState) (topN : UInt64) (n : Nat) :
    BelowThreshold (startState s topN true n) := by
  intro acc hacc
  rw [List.eq_of_mem_replicate hacc]
  show 0 < max topN.toNat 1
  omega

/-! ## §4. The log of a streaming run. -/

/-- A contribution that symbols and resources do not make. -/
theorem flatMap_exitCalls {α : Type} (f : WriteCall → List α)
    (hsymbol : ∀ id addr name, f (.symbolEntry id addr name) = [])
    (hresource : ∀ a flags mask, f (.tbResource a flags mask) = [])
    (hdevice : ∀ a dev, f (.deviceAccess a dev) = [])
    (hdiscon : ∀ t a b c, f (.discontinuity t a b c) = [])
    (o : ExitOrders) (s : PluginState) (execSum : Nat → UInt64) :
    (exitCalls o s execSum).flatMap f
      = f (.tbExecBatch (exitTbEntries o s execSum))
        ++ ((if s.config.tier ≥ 1 then
              f (.branchEdgeBatch (exitEdges o s)) ++ f (.fallThroughBatch (exitFallThroughs o s execSum))
            else [])
        ++ ((if s.config.tier ≥ 2 then
              f (.directCallBatch (exitDirectCalls o s execSum))
                ++ f (.indirectCallBatch (exitIndirectCalls o s))
            else [])
        ++ f (.footer o.wallTimeNs))) := by
  have hsym : (exitSymbols o s).flatMap f = [] := by
    rw [List.flatMap_eq_nil_iff]
    intro c hc
    obtain ⟨e, -, rfl⟩ := List.mem_map.mp hc
    exact hsymbol _ _ _
  have hres : (exitResources o s).flatMap f = [] := by
    rw [List.flatMap_eq_nil_iff]
    intro c hc
    unfold exitResources at hc
    rcases List.mem_append.mp hc with hc | hc
    · rcases List.mem_append.mp hc with hc | hc
      · obtain ⟨tb, -, rfl⟩ := List.mem_map.mp hc
        exact hresource _ _ _
      · obtain ⟨e, -, hc⟩ := List.mem_flatMap.mp hc
        obtain ⟨dev, -, rfl⟩ := List.mem_map.mp hc
        exact hdevice _ _
    · obtain ⟨e, -, rfl⟩ := List.mem_map.mp hc
      exact hdiscon _ _ _ _
  -- the resources vanish whether tier 3 is on or not
  have hthree : (if (s.tier3 && decide (s.config.tier ≥ 3)) = true then exitResources o s
      else []).flatMap f = [] := by
    split
    · exact hres
    · rfl
  unfold exitCalls
  simp only [List.flatMap_append, hsym, hthree, List.nil_append, List.flatMap_singleton]
  congr 2
  · split
    · simp
    · rfl
  · congr 1
    split
    · simp
    · rfl

theorem branchEdgesOf_exitCalls (o : ExitOrders) (s : PluginState) (execSum : Nat → UInt64)
    (ht : s.config.tier ≥ 1) :
    (exitCalls o s execSum).flatMap branchEdgesOf = (exitEdges o s).map edgeOf := by
  rw [flatMap_exitCalls branchEdgesOf (fun _ _ _ => rfl) (fun _ _ _ => rfl) (fun _ _ => rfl)
      (fun _ _ _ _ => rfl), if_pos ht]
  simp [branchEdgesOf]

theorem branchEdgesOf_flushCallsOf (s : PluginState) (ev : EdgeEvent) :
    (flushCallsOf s ev).flatMap branchEdgesOf = ((flushedOf s ev).map toTriple).map edgeOf := by
  cases hget : s.edgeAccumulators[ev.vcpu]? with
  | none =>
      rw [(flushed_none hget).1, (flushed_none hget).2]
      rfl
  | some acc =>
      unfold flushCallsOf
      rw [hget]
      dsimp only
      by_cases hf : flushes s acc ev = true
      · -- one batch, and a marker that holds no edge
        rw [if_pos hf]
        simp [branchEdgesOf]
      · rw [if_neg hf]
        unfold flushedOf
        rw [hget]
        simp [hf]

/-- The flushed records hold the flushed edges. -/
theorem branchEdgesOf_flushCallsIn (evs : List EdgeEvent) :
    ∀ s : PluginState,
      (flushCallsIn s evs).flatMap branchEdgesOf
        = ((flushedIn s evs).map toTriple).map edgeOf := by
  induction evs with
  | nil => intro s; rfl
  | cons ev evs ih =>
      intro s
      show (flushCallsOf s ev ++ flushCallsIn (step s ev) evs).flatMap branchEdgesOf
        = ((flushedOf s ev ++ flushedIn (step s ev) evs).map toTriple).map edgeOf
      rw [List.flatMap_append, branchEdgesOf_flushCallsOf, ih, List.map_append, List.map_append]

/-- The exit handler appends its calls to the log of the run. -/
theorem pluginExit_run (o : ExitOrders) (s : PluginState) (evs : List EdgeEvent)
    (execSum : Nat → UInt64) (w : ProfileWriter) (hw : s.writer = some w) :
    pluginExit o (run s evs) execSum
      = some (callsNext w (flushCallsIn s evs ++ exitCalls o (run s evs) execSum)) := by
  have hperform : ProfileWriter.perform = WriteCall.next := by
    funext w c
    exact perform_eq w c
  unfold pluginExit
  rw [writer_run, hw, Option.map_some, Option.map_some, callsNext_append, hperform]
  rfl

/-- The branch edges written by a run and its exit. -/
def writtenEdges (o : ExitOrders) (s : PluginState) (evs : List EdgeEvent) : List EdgeRecord :=
  ((flushedIn s evs).map toTriple ++ exitEdges o (run s evs)).map edgeOf

theorem counted_writtenEdges (o : ExitOrders) (s : PluginState) (evs : List EdgeEvent) :
    (writtenEdges o s evs).map EdgeRecord.counted
      = (flushedIn s evs).map (fun e => ((e.1.fromAddr, e.1.toAddr), e.2))
        ++ (exitEdges o (run s evs)).map counted := by
  unfold writtenEdges
  simp only [List.map_append, List.map_map]
  rfl

section Start

variable (s : PluginState) (topN : UInt64) (n : Nat) (evs : List EdgeEvent) (o : ExitOrders)

/-- **Keys**: an edge is written iff it was recorded. -/
theorem mem_writtenEdges (hv : ∀ ev ∈ evs, ev.vcpu < n) (f t : UInt64) :
    (f, t) ∈ (writtenEdges o (startState s topN true n) evs).map EdgeRecord.key
      ↔ ∃ ev ∈ evs, ev.edge = ⟨f, t⟩ := by
  have hmem := mem_accounting ⟨f, t⟩ evs (startState s topN true n) (onVcpus_startState hv)
  rw [droppedIn_unbounded evs _ (unbounded_startState s topN n), storedItems_startState] at hmem
  simp only [List.map_nil, List.not_mem_nil, or_false, false_or] at hmem
  rw [← map_fst_counted, counted_writtenEdges, List.map_append, List.mem_append, mem_exitEdges]
  rw [mem_map_addrs, or_comm, hmem]
  exact ⟨fun ⟨ev, hev, h⟩ => ⟨ev, hev, h.symm⟩, fun ⟨ev, hev, h⟩ => ⟨ev, hev, h.symm⟩⟩

/-- **Counts**: what is written for an edge sums to the number of its calls. -/
theorem sumAt_writtenEdges (hv : ∀ ev ∈ evs, ev.vcpu < n) (f t : UInt64) :
    sumAt (f, t) ((writtenEdges o (startState s topN true n) evs).map EdgeRecord.counted)
      = UInt64.ofNat (evs.countP fun ev => ev.edge = ⟨f, t⟩) := by
  have hacc := accounting (fun k : Edge => decide (k = ⟨f, t⟩)) evs
    (startState s topN true n) (onVcpus_startState hv)
  rw [droppedIn_unbounded evs _ (unbounded_startState s topN n), storedItems_startState,
      sumWhere_nil, add_zero, zero_add] at hacc
  have hpair : ∀ k : Edge, decide ((k.fromAddr, k.toAddr) = (f, t)) = decide (k = ⟨f, t⟩) := by
    intro k
    obtain ⟨kf, kt⟩ := k
    simp
  rw [counted_writtenEdges, sumAt_append, ← hacc, add_comm]
  congr 1
  · unfold sumAt
    rw [sumWhere_exitEdges]
    exact congrArg (fun q => sumWhere q _) (funext hpair)
  · unfold sumAt
    rw [sumWhere_map_fst (fun a => decide (a = (f, t)))
          (fun k : Edge => (k.fromAddr, k.toAddr))]
    exact congrArg (fun q => sumWhere q _) (funext hpair)

/-- The parsed branch edges of a streaming run are the merge of what it wrote. -/
theorem parse_pluginExit (htier : s.config.tier ≥ 1) (w : ProfileWriter)
    (hw : s.writer = some w) (hfresh : FreshLog w) (execSum : Nat → UInt64)
    (ρb ρf : IterOrder) :
    ∃ w' p, pluginExit o (run (startState s topN true n) evs) execSum = some w'
      ∧ parse ρb ρf w'.writer = .ok p
      ∧ MergeOf (writtenEdges o (startState s topN true n) evs) p.branchEdges := by
  obtain ⟨tier, sysemu, strm, load, ts, te, entry, cs, rfl, hcs⟩ := hfresh
  have hexit := pluginExit_run o (startState s topN true n) evs execSum _ hw
  rw [← callsNext_append] at hexit
  have htier' : (run (startState s topN true n) evs).config.tier ≥ 1 := by
    rw [config_run]
    exact htier
  refine ⟨_, _, hexit, parse_callsNext tier sysemu strm load ts te entry ρb ρf _, ?_⟩
  simp only [merged, branchEdges_callsEffect, List.flatMap_append, hcs, List.nil_append,
    branchEdgesOf_flushCallsIn, branchEdgesOf_exitCalls _ _ _ htier']
  rw [← List.map_append, show (Profile.ofHeader (headerOf tier sysemu strm load ts te
    entry)).branchEdges = [] from rfl, List.nil_append]
  exact mergeEdges_spec ρb _

end Start

/-! ## §5. The theorem. -/

/-- **STREAMING IS LOSSLESS**: over every sequence of `record_edge` calls on
existing vCPUs and every threshold, the parsed log lists each recorded edge
exactly once with the number of its calls; the fall-through list is the one
of the run that never flushes; and no slot reaches the threshold. -/
theorem streaming_lossless (s : PluginState) (topN : UInt64) (n : Nat) (w : ProfileWriter)
    (htier : s.config.tier ≥ 1) (hw : s.writer = some w) (hfresh : FreshLog w)
    (evs : List EdgeEvent) (hv : ∀ ev ∈ evs, ev.vcpu < n) (o o' : ExitOrders)
    (ho : o.tbMap = o'.tbMap) (execSum : Nat → UInt64) (ρb ρf : IterOrder) :
    (∃ w' p, pluginExit o (run (startState s topN true n) evs) execSum = some w'
        ∧ parse ρb ρf w'.writer = .ok p
        ∧ (p.branchEdges.map EdgeRecord.key).Nodup
        ∧ (∀ f t, (f, t) ∈ p.branchEdges.map EdgeRecord.key ↔ ∃ ev ∈ evs, ev.edge = ⟨f, t⟩)
        ∧ (∀ e ∈ p.branchEdges, e.count = UInt64.ofNat
            (evs.countP fun ev => ev.edge = ⟨e.fromAddr, e.toAddr⟩)))
      ∧ flushCallsIn (withoutFlush (startState s topN true n)) evs = []
      ∧ exitFallThroughs o (run (startState s topN true n) evs) execSum
          = exitFallThroughs o' (run (withoutFlush (startState s topN true n)) evs) execSum
      ∧ (∀ k, BelowThreshold (run (startState s topN true n) (evs.take k))) := by
  have hu := unbounded_startState s topN n
  have hon : OnVcpus (startState s topN true n) evs := onVcpus_startState hv
  refine ⟨?_, flushCallsIn_of_not_streaming evs _ rfl, ?_, ?_⟩
  · obtain ⟨w', p, hexit, hparse, hmerge⟩ :=
      parse_pluginExit s topN n evs o htier w hw hfresh execSum ρb ρf
    refine ⟨w', p, hexit, hparse, hmerge.nodup, ?_, ?_⟩
    · intro f t
      rw [hmerge.mem_key, mem_writtenEdges s topN n evs o hv]
    · intro e he
      rw [hmerge.count e he]
      exact sumAt_writtenEdges s topN n evs o hv e.fromAddr e.toAddr
  · -- the list depends on the TB map and the branch entries only
    apply exitFallThroughs_congr execSum ho
    · rw [tbMap_run, tbMap_run]
      rfl
    · intro t
      rw [branchEntries_unbounded t _ evs hu hon,
          branchEntries_unbounded t (withoutFlush (startState s topN true n)) evs hu hon]
      rfl
  · intro k
    exact belowThreshold_run _ _ rfl hu (belowThreshold_startState s topN n)

/-- A plugin with its log just opened. -/
def openedState : PluginState :=
  { PluginState.new PluginConfig.default false false "x86_64" with
    writer := some (ProfileWriter.new 1 false true 0 0 0 0) }

/-- Two vCPUs taking one edge each, one of them another one. -/
def twoVcpuEvents : List EdgeEvent :=
  [⟨⟨[], 0⟩, 0, ⟨0x1008, 0x2000⟩⟩, ⟨⟨[], 0⟩, 1, ⟨0x1008, 0x2000⟩⟩,
    ⟨⟨[], 0⟩, 0, ⟨0x2008, 0x3000⟩⟩]

/-- Every call flushes (`top_n = 1`); the two counts still meet in the log. -/
theorem streaming_lossless_two_vcpus :
    ∃ w' p, pluginExit listOrders (run (startState openedState 1 true 2) twoVcpuEvents)
        (fun _ => 0) = some w'
      ∧ parse [] [] w'.writer = .ok p
      ∧ ((0x1008, 0x2000) ∈ p.branchEdges.map EdgeRecord.key)
      ∧ (∀ e ∈ p.branchEdges, e.key = (0x1008, 0x2000) → e.count = 2) := by
  obtain ⟨⟨w', p, hexit, hparse, -, hkeys, hcount⟩, -⟩ :=
    streaming_lossless openedState 1 2 (ProfileWriter.new 1 false true 0 0 0 0) (by decide) rfl
      ⟨1, false, true, 0, 0, 0, 0, [], rfl, rfl⟩ twoVcpuEvents (by decide) listOrders listOrders
      rfl (fun _ => 0) [] []
  refine ⟨w', p, hexit, hparse, (hkeys _ _).mpr (by decide), ?_⟩
  intro e he hkey
  obtain ⟨f, t, c⟩ := e
  cases hkey
  exact hcount _ he

end QemuProfiler.Edges

/-
  QemuProfiler.Edges.RunLog
  ─────────────────────────
  **THE LOG OF A RUN AND ITS EXIT.**

  Until the exit handler runs, the log holds metadata and flushed edge batches
  only (`LogOf`).  So everything else a reader finds in the file is what the
  exit handler wrote, and the branch edges are the merge of the flushed ones
  and those drained at exit (`parse_exit`).
-/
import QemuProfiler.Edges.Streaming
import QemuProfiler.Format.Totals
import QemuProfiler.Plugin.Sections

namespace QemuProfiler.Edges

open QemuProfiler.Lib QemuProfiler.Plugin QemuProfiler.Format
open QemuProfiler.Convert hiding fileMagic FileHeader

/-! ## §1. Calls before the exit. -/

/-- Metadata, and the two records of a flush. -/
def isStreamCall : WriteCall → Bool
  | .stringMeta _ _ => true
  | .branchEdgeBatch _ => true
  | .flushMarker _ _ _ => true
  | _ => false

/-- The log holds the flushed edges `written`, and no other data. -/
def LogOf (written : List (Edge × UInt64)) (w : ProfileWriter) : Prop :=
  ∃ tier sysemu streaming loadAddr textStart textEnd entryAddr cs,
    w = callsNext (ProfileWriter.new tier sysemu streaming loadAddr textStart textEnd entryAddr)
        cs
      ∧ (∀ c ∈ cs, isStreamCall c = true)
      ∧ cs.flatMap branchEdgesOf = (written.map toTriple).map edgeOf

/-- The writer that translation opens. -/
theorem logOf_openWriter (host : HostInfo) (s : PluginState) (hopen : host.outputOpens = true) :
    ∃ w, (openWriter host s).writer = some w ∧ LogOf [] w := by
  unfold openWriter
  rw [hopen]
  refine ⟨_, rfl, s.config.tier, s.sysemu, s.config.streaming, host.startCode, host.startCode,
    host.endCode, host.entryCode, [.stringMeta "binary_path" (binaryPathOf host s),
      .stringMeta "arch" s.arch,
      .stringMeta "mode" (if s.sysemu then "sysemu" else "linux-user")], ?_, ?_, rfl⟩
  · simp only [perform_eq]
    rfl
  · intro c hc
    simp only [List.mem_cons, List.not_mem_nil, or_false] at hc
    rcases hc with rfl | rfl | rfl <;> rfl

/-- More stream calls append their edges. -/
theorem LogOf.append {written written' : List (Edge × UInt64)} {w : ProfileWriter}
    (h : LogOf written w) {cs : List WriteCall} (hcs : ∀ c ∈ cs, isStreamCall c = true)
    (hedges : cs.flatMap branchEdgesOf = (written'.map toTriple).map edgeOf) :
    LogOf (written ++ written') (callsNext w cs) := by
  obtain ⟨tier, sysemu, streaming, load, ts, te, entry, cs₀, rfl, hcalls, hedges₀⟩ := h
  refine ⟨tier, sysemu, streaming, load, ts, te, entry, cs₀ ++ cs,
    (callsNext_append ..).symm, ?_, ?_⟩
  · intro c hc
    rcases List.mem_append.mp hc with hin | hin
    · exact hcalls c hin
    · exact hcs c hin
  · rw [List.flatMap_append, hedges₀, hedges, List.map_append, List.map_append]

theorem isStreamCall_flushCallsOf (s : PluginState) (ev : EdgeEvent) :
    ∀ c ∈ flushCallsOf s ev, isStreamCall c = true := by
  intro c hc
  unfold flushCallsOf at hc
  cases hget : s.edgeAccumulators[ev.vcpu]? with
  | none =>
      rw [hget] at hc
      exact absurd hc List.not_mem_nil
  | some acc =>
      rw [hget] at hc
      dsimp only at hc
      by_cases hf : flushes s acc ev = true
      · rw [if_pos hf] at hc
        simp only [List.mem_cons, List.not_mem_nil, or_false] at hc
        rcases hc with rfl | rfl <;> rfl
      · rw [if_neg hf] at hc
        exact absurd hc List.not_mem_nil

/-- **One `record_edge` call** appends what it flushes. -/
theorem LogOf.step {written : List (Edge × UInt64)} {w : ProfileWriter} (h : LogOf written w)
    (s : PluginState) (ev : EdgeEvent) :
    LogOf (written ++ flushedOf s ev) (callsNext w (flushCallsOf s ev)) :=
  h.append (isStreamCall_flushCallsOf s ev) (branchEdgesOf_flushCallsOf s ev)

/-- A run of them. -/
theorem LogOf.run (evs : List EdgeEvent) :
    ∀ {written : List (Edge × UInt64)} {w : ProfileWriter} (s : PluginState), LogOf written w →
      LogOf (written ++ flushedIn s evs) (callsNext w (flushCallsIn s evs)) := by
  induction evs with
  | nil =>
      intro written w s h
      show LogOf (written ++ []) w
      rw [List.append_nil]
      exact h
  | cons ev evs ih =>
      intro written w s h
      have hrest := ih (Edges.step s ev) (h.step s ev)
      rw [List.append_assoc, ← callsNext_append] at hrest
      exact hrest

/-- The branch entries in the records of a file, before the reader merges
them. -/
def batchEdges (file : List UInt8) : List EdgeRecord :=
  match parseHeader file with
  | .error _ => []
  | .ok header =>
      match recordLoop (header.2.length + 1) header.2 (Profile.ofHeader header.1) with
      | .error _ => []
      | .ok profile => profile.branchEdges

/-- A reader finds the flushed edges, in the order of their batches. -/
theorem LogOf.batchEdges_eq {written : List (Edge × UInt64)} {w : ProfileWriter}
    (h : LogOf written w) : batchEdges w.writer = (written.map toTriple).map edgeOf := by
  obtain ⟨tier, sysemu, streaming, load, ts, te, entry, cs, rfl, _, hedges⟩ := h
  unfold batchEdges
  rw [writer_callsNext, parseHeader_new]
  dsimp only
  rw [recordLoop_eq _ _ _ (Nat.lt_succ_self _), frames_encodeAll, applyRecords_callsFrames]
  show Profile.branchEdges (callsEffect _ cs _) = _
  rw [branchEdges_callsEffect, hedges]
  rfl

/-! ## §2. The exit calls. -/

/-- The exit calls before the footer. -/
def exitData (o : ExitOrders) (s : PluginState) (execSum : Nat → UInt64) : List WriteCall :=
  exitSymbols o s
    ++ ([.tbExecBatch (exitTbEntries o s execSum)]
    ++ ((if s.config.tier ≥ 1 then
          [.branchEdgeBatch (exitEdges o s), .fallThroughBatch (exitFallThroughs o s execSum)]
        else [])
    ++ ((if s.config.tier ≥ 2 then
          [.directCallBatch (exitDirectCalls o s execSum),
            .indirectCallBatch (exitIndirectCalls o s)]
        else [])
    ++ (if s.tier3 && s.config.tier ≥ 3 then exitResources o s else []))))

theorem exitCalls_eq (o : ExitOrders) (s : PluginState) (execSum : Nat → UInt64) :
    exitCalls o s execSum = exitData o s execSum ++ [.footer o.wallTimeNs] := by
  simp only [exitCalls, exitData, List.append_assoc]

/-- The footer is written once. -/
theorem isFooter_exitData (o : ExitOrders) (s : PluginState) (execSum : Nat → UInt64) :
    ∀ d ∈ exitData o s execSum, isFooter d = false := by
  -- among all exit calls there is one footer, and it is the last call
  have hall := flatMap_exitCalls (fun c => if isFooter c then [c] else [])
    (fun _ _ _ => rfl) (fun _ _ _ => rfl) (fun _ _ => rfl) (fun _ _ _ _ => rfl) o s execSum
  have hone : (exitCalls o s execSum).flatMap (fun c => if isFooter c then [c] else [])
      = [.footer o.wallTimeNs] := by
    rw [hall]
    simp [isFooter]
  rw [exitCalls_eq, List.flatMap_append] at hone
  have hnil : (exitData o s execSum).flatMap (fun c => if isFooter c then [c] else []) = [] := by
    have hlen := congrArg List.length hone
    rw [List.length_append] at hlen
    exact List.eq_nil_of_length_eq_zero (by simpa [isFooter] using hlen)
  intro d hd
  have hd' := List.flatMap_eq_nil_iff.mp hnil d hd
  by_contra hfoot
  rw [if_pos (by simpa using hfoot)] at hd'
  exact absurd hd' (by simp)

/-! ## §3. What a reader finds. -/

/-- **The profile of a run**: everything but the flushed edges comes from the
exit handler. -/
structure ExitProfile (o : ExitOrders) (s : PluginState) (execSum : Nat → UInt64)
    (written : List (Edge × UInt64)) (p : Profile) : Prop where
  tbExecs : p.tbExecs = (exitTbEntries o s execSum).map tbExecOf
  branchEdges : MergeOf ((written.map toTriple).map edgeOf
    ++ (if s.config.tier ≥ 1 then (exitEdges o s).map edgeOf else [])) p.branchEdges
  directCalls : p.directCalls
    = if s.config.tier ≥ 2 then (exitDirectCalls o s execSum).map callOf else []
  indirectCalls : p.indirectCalls
    = if s.config.tier ≥ 2 then (exitIndirectCalls o s).map callOf else []
  footer : ∃ f, p.footer = some f
    ∧ f.totalTbCount = UInt64.ofNat (exitTbEntries o s execSum).length
    ∧ f.totalExecCount = ((exitTbEntries o s execSum).map fun e => e.2.2.2.1).sum

/-- A stream call contributes nothing but branch edges. -/
theorem flatMap_streamCalls {α : Type} (f : WriteCall → List α)
    (hmeta : ∀ k v, f (.stringMeta k v) = []) (hbranch : ∀ es, f (.branchEdgeBatch es) = [])
    (hmarker : ∀ t v n, f (.flushMarker t v n) = []) {cs : List WriteCall}
    (h : ∀ c ∈ cs, isStreamCall c = true) : cs.flatMap f = [] := by
  rw [List.flatMap_eq_nil_iff]
  intro c hc
  have hstream := h c hc
  cases c with
  | stringMeta k v => exact hmeta k v
  | branchEdgeBatch es => exact hbranch es
  | flushMarker t v n => exact hmarker t v n
  | _ => exact absurd hstream (by simp [isStreamCall])

/-- Before the last call nothing is a footer. -/
theorem isFooter_logged (o : ExitOrders) (s : PluginState) (execSum : Nat → UInt64)
    {cs : List WriteCall} (h : ∀ c ∈ cs, isStreamCall c = true) :
    ∀ d ∈ cs ++ exitData o s execSum, isFooter d = false := by
  intro d hd
  rcases List.mem_append.mp hd with hin | hin
  · have hstream := h d hin
    cases d with
    | footer t => exact absurd hstream (by simp [isStreamCall])
    | _ => rfl
  · exact isFooter_exitData o s execSum d hin

/-- The execution counts are all written at exit. -/
theorem tbEntries_logged (o : ExitOrders) (s : PluginState) (execSum : Nat → UInt64)
    {cs : List WriteCall} (h : ∀ c ∈ cs, isStreamCall c = true) :
    (cs ++ exitData o s execSum).flatMap WriteCall.tbEntries = exitTbEntries o s execSum := by
  have hall := flatMap_exitCalls WriteCall.tbEntries (fun _ _ _ => rfl) (fun _ _ _ => rfl)
    (fun _ _ => rfl) (fun _ _ _ _ => rfl) o s execSum
  rw [exitCalls_eq, List.flatMap_append] at hall
  rw [List.flatMap_append, flatMap_streamCalls WriteCall.tbEntries (fun _ _ => rfl)
    (fun _ => rfl) (fun _ _ _ => rfl) h, List.nil_append]
  simpa [WriteCall.tbEntries] using hall

/-- **THE FILE OF A RUN.** -/
theorem parse_exit (o : ExitOrders) {s : PluginState} (execSum : Nat → UInt64)
    {w : ProfileWriter} {written : List (Edge × UInt64)} (hw : s.writer = some w)
    (hlog : LogOf written w) (ρb ρf : IterOrder) :
    ∃ w' p, pluginExit o s execSum = some w' ∧ parse ρb ρf w'.writer = .ok p
      ∧ ExitProfile o s execSum written p := by
  obtain ⟨tier, sysemu, streaming, load, ts, te, entry, cs, rfl, hcs, hedges⟩ := hlog
  have hexit := pluginExit_run o s [] execSum _ hw
  -- the exit is the exit of a run without further events
  rw [show Edges.run s [] = s from rfl, show flushCallsIn s [] = [] from rfl, List.nil_append,
      ← callsNext_append] at hexit
  have hcalls : cs ++ exitCalls o s execSum
      = (cs ++ exitData o s execSum) ++ [.footer o.wallTimeNs] := by
    rw [exitCalls_eq, List.append_assoc]
  refine ⟨_, _, hexit, parse_callsNext tier sysemu streaming load ts te entry ρb ρf _,
    ⟨?_, ?_, ?_, ?_, ?_⟩⟩
  · show (callsEffect _ _ _).tbExecs = _
    rw [tbExecs_callsEffect, List.flatMap_append, flatMap_streamCalls tbExecsOf (fun _ _ => rfl)
          (fun _ => rfl) (fun _ _ _ => rfl) hcs,
        flatMap_exitCalls tbExecsOf (fun _ _ _ => rfl) (fun _ _ _ => rfl) (fun _ _ => rfl)
          (fun _ _ _ _ => rfl)]
    simp [tbExecsOf, WriteCall.tbEntries, Profile.ofHeader]
  · show MergeOf _ (mergeEdges ρb (callsEffect _ _ _).branchEdges)
    rw [branchEdges_callsEffect, List.flatMap_append, hedges,
        flatMap_exitCalls branchEdgesOf (fun _ _ _ => rfl) (fun _ _ _ => rfl) (fun _ _ => rfl)
          (fun _ _ _ _ => rfl)]
    have hsimp : (Profile.ofHeader (headerOf tier sysemu streaming load ts te entry)).branchEdges
        = [] := rfl
    rw [hsimp, List.nil_append]
    simp only [branchEdgesOf, List.nil_append, List.append_nil, ite_self]
    exact mergeEdges_spec ρb _
  · show (callsEffect _ _ _).directCalls = _
    rw [directCalls_callsEffect, List.flatMap_append, flatMap_streamCalls directCallsOf
          (fun _ _ => rfl) (fun _ => rfl) (fun _ _ _ => rfl) hcs,
        flatMap_exitCalls directCallsOf (fun _ _ _ => rfl) (fun _ _ _ => rfl) (fun _ _ => rfl)
          (fun _ _ _ _ => rfl)]
    simp [directCallsOf, Profile.ofHeader]
  · show (callsEffect _ _ _).indirectCalls = _
    rw [indirectCalls_callsEffect, List.flatMap_append, flatMap_streamCalls indirectCallsOf
          (fun _ _ => rfl) (fun _ => rfl) (fun _ _ _ => rfl) hcs,
        flatMap_exitCalls indirectCallsOf (fun _ _ _ => rfl) (fun _ _ _ => rfl) (fun _ _ => rfl)
          (fun _ _ _ _ => rfl)]
    simp [indirectCallsOf, Profile.ofHeader]
  -- the counters of the footer are those of the records before it
  · have hfoot := footer_callsEffect (ProfileWriter.new tier sysemu streaming load ts te entry)
      rfl rfl rfl (cs ++ exitCalls o s execSum) [] (Profile.ofHeader
        (headerOf tier sysemu streaming load ts te entry))
    rw [hcalls, footersAfter_append_footer _ (isFooter_logged o s execSum hcs), ← hcalls] at hfoot
    refine ⟨_, hfoot, ?_, ?_⟩
    · show UInt64.ofNat ((cs ++ exitData o s execSum).flatMap WriteCall.tbEntries).length = _
      rw [tbEntries_logged o s execSum hcs]
    · show (((cs ++ exitData o s execSum).flatMap WriteCall.tbEntries).map _).sum = _
      rw [tbEntries_logged o s execSum hcs]

end QemuProfiler.Edges

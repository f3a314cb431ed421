/-
  QemuProfiler.Threads.Killed
  ───────────────────────────
  **THE LOG OF A PLUGIN THAT DOES NOT REACH ITS EXIT HANDLER.**

  The plugin may be killed between any two sections of any thread, and at any
  byte of a write.

    • `writer_grows` — an open log is only appended to,
    • `killed_log` — a reader accepts the log and finds nothing but branches
      in it, none with a count above the number of times it was taken,
    • `killed_part_of_final` — what it finds is part of the file that the same
      run would have left at its exit.
-/
import QemuProfiler.Format.CrashTolerance
import QemuProfiler.Threads.RunFile

namespace QemuProfiler.Threads

open QemuProfiler.Lib QemuProfiler.Plugin QemuProfiler.Qemu QemuProfiler.Edges QemuProfiler.Format
open QemuProfiler.Convert hiding fileMagic FileHeader

/-! ## §1. The log only grows. -/

section Growth

variable {config : PluginConfig} {tier3 sysemu : Bool} {arch : String} {host : HostInfo}
  {evs : List Event} {s : System} {out : List Action}

/-- The calls of a flush. -/
def isFlushCall : WriteCall → Bool
  | .branchEdgeBatch _ => true
  | .flushMarker _ _ _ => true
  | _ => false

/-- The writer of `s'` is the one of `s` after some calls of a flush. -/
def Grown (s s' : System) : Prop :=
  ∀ w, s.machine.plugin.writer = some w → ∃ cs, (∀ c ∈ cs, isFlushCall c = true)
    ∧ s'.machine.plugin.writer = some (callsNext w cs)

theorem Grown.of_eq {s s' : System}
    (h : s'.machine.plugin.writer = s.machine.plugin.writer) : Grown s s' := by
  intro w hw
  exact ⟨[], fun c hc => absurd hc List.not_mem_nil, h.trans hw⟩

theorem Grown.trans {s₁ s₂ s₃ : System} (h : Grown s₁ s₂) (h' : Grown s₂ s₃) : Grown s₁ s₃ := by
  intro w hw
  obtain ⟨cs, hcs, hw₂⟩ := h w hw
  obtain ⟨cs', hcs', hw₃⟩ := h' _ hw₂
  refine ⟨cs ++ cs', ?_, ?_⟩
  · intro c hc
    rcases List.mem_append.mp hc with hin | hin
    · exact hcs c hin
    · exact hcs' c hin
  · rw [hw₃, callsNext_append]

/-- A section of a thread: only the writer section of a flush writes, since
nobody opens an open log. -/
theorem grown_effect (hinv : WriterInv s out) {env : Env} {v : Nat} {m' : Machine} {th' : Thread}
    {acts : List Action} (heff : Effect env v s.machine (s.threads v) m' th' acts) :
    Grown s ⟨m', Function.update s.threads v th'⟩ := by
  generalize hth : s.threads v = th at heff
  cases heff with
  | quiet hm _ _ _ _ => exact Grown.of_eq hm.writer
  | storeWriter tb =>
      intro w hw
      -- the writer is stored once: there is none yet
      have hnot := (hinv.opened w hw).2 v
      rw [hth] at hnot
      exact absurd hnot (by simp [Thread.opening])
  | mapTb htb ht hrest =>
      apply Grown.of_eq
      rw [hrest]
  | laterTiers tr =>
      obtain ⟨calls, tbMap, heq⟩ := laterTiers_frame s.machine.plugin tr.tb
      apply Grown.of_eq
      rw [heq]
  | writeBatch edges toAddr rest =>
      intro w hw
      refine ⟨[.branchEdgeBatch edges, .flushMarker env.elapsed (UInt32.ofNat v)
        (UInt32.ofNat edges.length)], ?_, ?_⟩
      · intro c hc
        simp only [List.mem_cons, List.not_mem_nil, or_false] at hc
        rcases hc with rfl | rfl <;> rfl
      · show Option.map _ s.machine.plugin.writer = _
        rw [hw]
        simp only [perform_eq, Option.map_some]
        rfl
  | claimWriter tb _ => exact Grown.of_eq rfl
  | takeNumber key _ => exact Grown.of_eq rfl
  | storeNumber key seq rest => exact Grown.of_eq rfl
  | drain accs _ _ => exact Grown.of_eq rfl
  | addFlushed edges toAddr rest => exact Grown.of_eq rfl

theorem grown_step (h : runFrom (System.init config tier3 sysemu arch host) evs = some (s, out))
    {s' : System} {e : Event} {acts : List Action} (hstep : Threads.step s e = some (s', acts)) :
    Grown s s' := by
  rcases step_cases (runFrom_inv h) hstep with ⟨v, plugin, _, hpl, rfl, _⟩ | ⟨_, rfl, _⟩
    | ⟨v, _, _, _, tr, rest, _, _, _, _, _, rfl, _⟩ | ⟨env, v, m', th', _, _, heff, rfl⟩
  · obtain ⟨i, j, rfl, _⟩ := ensureVcpuState_eq hpl
    exact Grown.of_eq rfl
  · exact Grown.of_eq rfl
  · exact Grown.of_eq rfl
  · exact grown_effect (runFrom_writerInv h) heff

/-- **AN OPEN LOG IS ONLY APPENDED TO**, by any continuation of the run. -/
theorem writer_grows
    (h : runFrom (System.init config tier3 sysemu arch host) evs = some (s, out))
    {evs' : List Event} {s' : System} {out' : List Action}
    (h' : runFrom s evs' = some (s', out')) : Grown s s' := by
  have hrun := runSteps_invariant Threads.step
    (fun s' out' => (∃ evs, runFrom (System.init config tier3 sysemu arch host) evs
      = some (s', out')) ∧ Grown s s') ?_ evs' s out s' out' ⟨⟨evs, h⟩, Grown.of_eq rfl⟩ h'
  · exact hrun.2
  · intro s₁ out₁ e s₂ out₂ hreach hstep
    obtain ⟨⟨evs₁, hreach⟩, hgrown⟩ := hreach
    exact ⟨⟨evs₁ ++ [e], runSteps_concat Threads.step e evs₁ _ s₁ out₁ hreach hstep⟩,
      hgrown.trans (grown_step hreach hstep)⟩

end Growth

/-! ## §2. Reading a log without its exit. -/

/-- A profile with branches and nothing else. -/
structure BranchesOnly (p : Profile) : Prop where
  symbols : p.symbols = []
  tbExecs : p.tbExecs = []
  fallThroughEdges : p.fallThroughEdges = []
  directCalls : p.directCalls = []
  indirectCalls : p.indirectCalls = []
  tbResources : p.tbResources = []
  disconEvents : p.disconEvents = []
  footer : p.footer = none

/-- A list of contributions of stream calls that are no branches. -/
theorem prefix_nil_of_stream {α : Type} {l : List α} {total : List α} (h : l <+: total)
    (htotal : total = []) : l = [] := by
  rw [htotal] at h
  exact List.prefix_nil.mp h

theorem footer_none_of_stream {cs : List WriteCall} (h : ∀ c ∈ cs, isStreamCall c = true) :
    ∀ c ∈ cs, isFooter c = false := by
  intro c hc
  have hstream := h c hc
  cases c with
  | footer t => exact absurd hstream (by simp [isStreamCall])
  | _ => rfl

/-- Symbols come from their own records only. -/
theorem symbols_stream {cs : List WriteCall} (h : ∀ c ∈ cs, isStreamCall c = true)
    (w : ProfileWriter) (p : Profile) : (callsEffect w cs p).symbols = p.symbols := by
  induction cs generalizing w p with
  | nil => rfl
  | cons c cs ih =>
      have hc := h c List.mem_cons_self
      show (callsEffect _ cs _).symbols = _
      rw [ih fun d hd => h d (List.mem_cons_of_mem _ hd)]
      cases c with
      | stringMeta k v => rfl
      | branchEdgeBatch es => rfl
      | flushMarker t v n => rfl
      | _ => exact absurd hc (by simp [isStreamCall])

/-- **A cut log of flushed batches**: whole batch entries, in their order. -/
theorem parse_take_logOf {written : List (Edge × UInt64)} {w : ProfileWriter}
    (h : LogOf written w) (ρb ρf : IterOrder) (n : Nat) (hn : 64 ≤ n) :
    ∃ p k, parse ρb ρf (w.writer.take n) = .ok p ∧ BranchesOnly p
      ∧ MergeOf (((written.take k).map toTriple).map edgeOf) p.branchEdges := by
  obtain ⟨tier, sysemu, streaming, load, ts, te, entry, cs, rfl, hcs, hedges⟩ := h
  obtain ⟨p, hp, hext⟩ := applyRecords_take cs (ProfileWriter.new tier sysemu streaming load ts te
    entry) (Profile.ofHeader (headerOf tier sysemu streaming load ts te entry))
    (wholeFrames (callsFrames (ProfileWriter.new tier sysemu streaming load ts te entry) cs)
      (n - 64))
  have hparse := parse_take_log tier sysemu streaming load ts te entry cs ρb ρf n hn p hp
  have hbranch := hext.branchEdges
  rw [branchEdges_callsEffect, hedges] at hbranch
  refine ⟨merged ρb ρf p, p.branchEdges.length, hparse, ?_, ?_⟩
  -- a log of flushes has records of branches only, so every other list stays empty
  · have hfall : p.fallThroughEdges = [] := by
      apply prefix_nil_of_stream hext.fallThroughEdges
      rw [fallThroughEdges_callsEffect, flatMap_streamCalls fallThroughEdgesOf (fun _ _ => rfl)
        (fun _ => rfl) (fun _ _ _ => rfl) hcs]
      rfl
    have hfoot : p.footer = none := by
      cases hf : p.footer with
      | none => rfl
      | some f =>
          have hsome := hext.footer (by rw [hf]; rfl)
          rw [footer_none_of_no_footer cs (footer_none_of_stream hcs) _ _ rfl] at hsome
          exact absurd hsome (by simp)
    constructor
    · apply prefix_nil_of_stream hext.symbols
      rw [symbols_stream hcs]
      rfl
    · apply prefix_nil_of_stream hext.tbExecs
      rw [tbExecs_callsEffect, flatMap_streamCalls tbExecsOf (fun _ _ => rfl)
        (fun _ => rfl) (fun _ _ _ => rfl) hcs]
      rfl
    · show mergeEdges ρf p.fallThroughEdges = []
      rw [hfall]
      have hkeys := (mergeEdges_spec ρf ([] : List EdgeRecord)).mem_key
      rw [List.eq_nil_iff_forall_not_mem]
      intro e he
      exact absurd ((hkeys e.key).mp (List.mem_map.mpr ⟨e, he, rfl⟩)) (by simp)
    · apply prefix_nil_of_stream hext.directCalls
      rw [directCalls_callsEffect, flatMap_streamCalls directCallsOf (fun _ _ => rfl)
        (fun _ => rfl) (fun _ _ _ => rfl) hcs]
      rfl
    · apply prefix_nil_of_stream hext.indirectCalls
      rw [indirectCalls_callsEffect, flatMap_streamCalls indirectCallsOf (fun _ _ => rfl)
        (fun _ => rfl) (fun _ _ _ => rfl) hcs]
      rfl
    · apply prefix_nil_of_stream hext.tbResources
      rw [tbResources_callsEffect, flatMap_streamCalls tbResourcesOf (fun _ _ => rfl)
        (fun _ => rfl) (fun _ _ _ => rfl) hcs]
      rfl
    · apply prefix_nil_of_stream hext.disconEvents
      rw [disconEvents_callsEffect, flatMap_streamCalls disconEventsOf (fun _ _ => rfl)
        (fun _ => rfl) (fun _ _ _ => rfl) hcs]
      rfl
    · exact hfoot
  -- what was read is a prefix of what was written, by its length
  · have htake : ((written.take p.branchEdges.length).map toTriple).map edgeOf = p.branchEdges := by
      rw [List.map_take, List.map_take]
      exact (List.prefix_iff_eq_take.mp hbranch).symm
    rw [htake]
    exact mergeEdges_spec ρb p.branchEdges

/-! ## §3. The log of a killed plugin. -/

section Killed

variable {config : PluginConfig} {tier3 sysemu : Bool} {arch : String} {host : HostInfo}
  {evs : List Event} {s : System} {out : List Action}

theorem natWhere_take_le {α : Type} (q : α → Bool) (l : List (α × UInt64)) (k : Nat) :
    natWhere q (l.take k) ≤ natWhere q l := by
  conv_rhs => rw [← List.take_append_drop k l]
  rw [natWhere_append]
  exact Nat.le_add_right _ _

/-- What is in the log and what the exit adds was recorded. -/
theorem natWhere_recorded_le
    (h : runFrom (System.init config tier3 sysemu arch host) evs = some (s, out)) (o : ExitOrders)
    (q : UInt64 × UInt64 → Bool) :
    natWhere q (((((loggedOf out).map ofTriple).map toTriple).map edgeOf
        ++ (if s.machine.plugin.config.tier ≥ 1 then (exitEdges o s.machine.plugin).map edgeOf
          else [])).map EdgeRecord.counted)
      ≤ (recordedEdges (notesOf (System.init config tier3 sysemu arch host) evs)).countP
          fun e => q (edgeKey e.2) := by
  have hle := (balance_run h).le fun e => q (edgeKey e)
  have hdrained := (accounted_run h).drained.map ofTriple
  have hstored := natWhere_exitEdges_le q o s.machine.plugin
  rw [List.map_append, List.map_append] at hdrained
  rw [natWhere_perm _ hdrained, natWhere_append, natWhere_append] at hle
  rw [List.map_append, natWhere_append, map_counted_edgeOf, natWhere_toTriple]
  by_cases htier : s.machine.plugin.config.tier ≥ 1
  · rw [if_pos htier, map_counted_edgeOf]
    omega
  · rw [if_neg htier, List.map_nil, natWhere_nil]
    omega

/-- **KILLED AT ANY MOMENT.**  Take any moment of any interleaving at which
the log is open, and any number of bytes that reached the disk.  Less than a
header is rejected with a message; otherwise a reader finds branches and
nothing else, and no set of branches with more than the number of times they
were recorded. -/
theorem killed_log
    (h : runFrom (System.init config tier3 sysemu arch host) evs = some (s, out))
    {w : ProfileWriter} (hw : s.machine.plugin.writer = some w) (ρb ρf : IterOrder) (n : Nat) :
    (n < 64 → ∃ text, parse ρb ρf (w.writer.take n) = .error (.message text))
      ∧ (64 ≤ n → ∃ p, parse ρb ρf (w.writer.take n) = .ok p ∧ BranchesOnly p
        ∧ ∀ q, natWhere q (p.branchEdges.map EdgeRecord.counted)
          ≤ (recordedEdges (notesOf (System.init config tier3 sysemu arch host) evs)).countP
              fun e => q (edgeKey e.2)) := by
  have hlog := ((runFrom_writerInv h).opened w hw).1
  constructor
  · intro hn
    obtain ⟨text, htext⟩ := parseHeader_short (w.writer.take n) (by rw [List.length_take]; omega)
    refine ⟨text, ?_⟩
    unfold parse
    rw [htext]
    rfl
  · intro hn
    obtain ⟨p, k, hparse, honly, hmerge⟩ := parse_take_logOf hlog ρb ρf n hn
    refine ⟨p, hparse, honly, ?_⟩
    intro q
    calc natWhere q (p.branchEdges.map EdgeRecord.counted)
        ≤ natWhere (fun e => q (edgeKey e)) (((loggedOf out).map ofTriple).take k) := by
          have hle := natWhere_mergeOf_le hmerge q
          rw [map_counted_edgeOf, natWhere_toTriple] at hle
          exact hle
      _ ≤ natWhere (fun e => q (edgeKey e)) ((loggedOf out).map ofTriple) :=
          natWhere_take_le _ _ k
      _ ≤ _ := by
          have hle := natWhere_recorded_le h listOrders q
          rw [List.map_append, natWhere_append, map_counted_edgeOf, natWhere_toTriple] at hle
          exact Nat.le_trans (Nat.le_add_right _ _) hle

/-- Merging part of a list gives at most the counts of merging it all, where
these do not wrap. -/
theorem mergeOf_append_le {edges rest merged merged' : List EdgeRecord} (h : MergeOf edges merged)
    (h' : MergeOf (edges ++ rest) merged') {e : EdgeRecord} (he : e ∈ merged)
    (hfit : natWhere (fun k => decide (k = e.key)) ((edges ++ rest).map EdgeRecord.counted)
      < 2 ^ 64) : ∃ f ∈ merged', f.key = e.key ∧ e.count ≤ f.count := by
  have hkey : e.key ∈ merged'.map EdgeRecord.key := by
    rw [h'.mem_key, List.map_append, List.mem_append]
    exact Or.inl ((h.mem_key _).mp (List.mem_map.mpr ⟨e, he, rfl⟩))
  obtain ⟨f, hf, hfkey⟩ := List.mem_map.mp hkey
  refine ⟨f, hf, hfkey, ?_⟩
  have hle : e.count.toNat
      ≤ natWhere (fun k => decide (k = e.key)) (edges.map EdgeRecord.counted) := by
    rw [h.count e he]
    exact toNat_sumWhere_le _ _
  have hcount : f.count.toNat
      = natWhere (fun k => decide (k = e.key)) ((edges ++ rest).map EdgeRecord.counted) := by
    rw [h'.count f hf, hfkey]
    unfold sumAt
    rw [sumWhere_uint64]
    exact UInt64.toNat_ofNat_of_lt' hfit
  rw [UInt64.le_iff_toNat_le, hcount, List.map_append, natWhere_append]
  omega

/-- **KILLED OR NOT, THE SAME FILE.**  The log at any moment is a prefix of
the file that any continuation of the run leaves at exit, and what a reader
finds in it, cut at any byte, is in that file with at least the same count
(for branches recorded fewer than 2^64 times by then). -/
theorem killed_part_of_final
    (h : runFrom (System.init config tier3 sysemu arch host) evs = some (s, out))
    {w : ProfileWriter} (hw : s.machine.plugin.writer = some w)
    {evs' : List Event} {s' : System} {out' : List Action}
    (h' : runFrom s evs' = some (s', out')) {o : ExitOrders} (ρb ρf : IterOrder) (n : Nat)
    (hn : 64 ≤ n) :
    ∃ w' p full, pluginExit o s'.machine.plugin (execSum s'.machine) = some w'
      ∧ w.writer <+: w'.writer
      ∧ parse ρb ρf (w.writer.take n) = .ok p ∧ parse ρb ρf w'.writer = .ok full
      ∧ p.footer = none ∧ full.footer.isSome = true
      ∧ ∀ e ∈ p.branchEdges,
        (recordedEdges (notesOf (System.init config tier3 sysemu arch host) (evs ++ evs'))).countP
            (fun r => decide (edgeKey r.2 = e.key)) < 2 ^ 64 →
          ∃ f ∈ full.branchEdges, f.key = e.key ∧ e.count ≤ f.count := by
  have hrun : runFrom (System.init config tier3 sysemu arch host) (evs ++ evs')
      = some (s', out ++ out') := runSteps_append Threads.step evs evs' h h'
  obtain ⟨cs, _, hw'⟩ := writer_grows h h' w hw
  have hexit := pluginExit_run o s'.machine.plugin [] (execSum s'.machine) _ hw'
  rw [show Edges.run s'.machine.plugin [] = s'.machine.plugin from rfl,
      show flushCallsIn s'.machine.plugin [] = [] from rfl, List.nil_append,
      ← callsNext_append] at hexit
  obtain ⟨full, hfull, hprofile⟩ := exitProfile_run hrun hexit ρb ρf
  obtain ⟨p, k, hparse, honly, hmerge⟩ :=
    parse_take_logOf ((runFrom_writerInv h).opened w hw).1 ρb ρf n hn
  obtain ⟨f, hfoot, _⟩ := hprofile.footer
  refine ⟨_, p, full, hexit, ⟨_, (writer_callsNext _ w).symm⟩, hparse, hfull, honly.footer,
    by rw [hfoot]; rfl, ?_⟩
  intro e he hfit
  -- the first batch entries, the later ones and those of the exit
  have hsplit : (((loggedOf (out ++ out')).map ofTriple).map toTriple).map edgeOf
      = ((((loggedOf out).map ofTriple).take k).map toTriple).map edgeOf
        ++ ((((loggedOf out).map ofTriple).drop k ++ (loggedOf out').map ofTriple).map
            toTriple).map edgeOf := by
    rw [← List.map_append, ← List.map_append, ← List.append_assoc, List.take_append_drop,
        loggedOf_append, List.map_append]
  have hfile := hprofile.branchEdges
  have hrecorded := natWhere_recorded_le hrun o fun key => decide (key = e.key)
  rw [hsplit, List.append_assoc] at hfile hrecorded
  exact mergeOf_append_le hmerge hfile he (Nat.lt_of_le_of_lt hrecorded hfit)

end Killed

theorem returningEvents_opens :
    ∃ w, (outcome (installed 2 1 true) returningEvents).1.machine.plugin.writer = some w :=
  Option.isSome_iff_exists.mp (by decide)

theorem killed_log_returning :
    ∃ w p, (outcome (installed 2 1 true) returningEvents).1.machine.plugin.writer = some w
      ∧ parse [] [] (w.writer.take 64) = .ok p ∧ p.footer = none := by
  obtain ⟨hrun, _, _⟩ := returningEvents_rests
  obtain ⟨w, hw⟩ := returningEvents_opens
  obtain ⟨p, hp, honly, _⟩ :=
    (killed_log (runFrom_outcome _ _ hrun) hw [] [] 64).2 (Nat.le_refl _)
  exact ⟨w, p, hw, hp, honly.footer⟩

theorem killed_part_of_final_returning :
    ∃ (w w' : ProfileWriter) (full : Profile),
      (outcome (installed 2 1 true) returningEvents).1.machine.plugin.writer = some w
      ∧ w.writer <+: w'.writer ∧ parse [] [] w'.writer = .ok full ∧ full.footer.isSome = true := by
  obtain ⟨hrun, _, _⟩ := returningEvents_rests
  obtain ⟨w, hw⟩ := returningEvents_opens
  have hmore := runFrom_outcome (outcome (installed 2 1 true) returningEvents).1
    (.exec 0 0 2 ⟨[], 0⟩ :: sections 0 12) (by decide)
  obtain ⟨w', _, full, _, hprefix, _, hfull, _, hfoot, _⟩ :=
    killed_part_of_final (runFrom_outcome _ _ hrun) hw hmore (o := listOrders) [] [] 64
      (Nat.le_refl _)
  exact ⟨w, w', full, hw, hprefix, hfull, hfoot⟩

end QemuProfiler.Threads

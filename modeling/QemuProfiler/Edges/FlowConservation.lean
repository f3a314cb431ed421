/-
  QemuProfiler.Edges.FlowConservation
  ───────────────────────────────────
  **FLOW INTO AN ADDRESS**: executions are branch entries plus fall-throughs.

  `compute_fall_throughs` keeps executions per TB and branch entries per
  ADDRESS, and subtracts the entries of an address from every TB that starts
  there.

    • `sum_map_sub_eq_iff` — when one subtraction per element is one
      subtraction from the sum,
    • `computeFallThroughs_conserves_iff` — the flow is conserved exactly when
      no branch entry is subtracted from two executed TBs,
    • `entries_subtracted_twice` — two executed TBs at one address, and two
      fall-throughs are lost.
-/
import QemuProfiler.Edges.FallThrough

namespace QemuProfiler.Edges

open QemuProfiler.Lib QemuProfiler.Plugin

/-! ## §1. Truncated subtraction over a list. -/

theorem sum_map_sub_le (b : Nat) (l : List Nat) : (l.map (· - b)).sum ≤ l.sum - b := by
  induction l with
  | nil => exact Nat.zero_le _
  | cons x l ih =>
      rw [List.map_cons, List.sum_cons, List.sum_cons]
      omega

theorem countP_pos_eq_zero (l : List Nat) : l.countP (0 < ·) = 0 ↔ l.sum = 0 := by
  induction l with
  | nil => simp
  | cons x l ih =>
      rw [List.countP_cons, List.sum_cons]
      by_cases hx : 0 < x
      · rw [if_pos (by simpa using hx)]
        omega
      · rw [if_neg (by simpa using hx)]
        omega

/-- **One subtraction per element is one subtraction from the sum** when there
is nothing to subtract, when nothing is left, or when one element has it all. -/
theorem sum_map_sub_eq_iff (b : Nat) (l : List Nat) :
    (l.map (· - b)).sum = l.sum - b
      ↔ b = 0 ∨ l.sum ≤ b ∨ l.countP (0 < ·) ≤ 1 := by
  induction l with
  | nil => simp
  | cons x l ih =>
      have hle := sum_map_sub_le b l
      have hzero := countP_pos_eq_zero l
      rw [List.map_cons, List.sum_cons, List.sum_cons, List.countP_cons]
      by_cases hx : 0 < x
      · -- a second positive element after `x` would be cut a second time
        rw [if_pos (by simpa using hx)]
        omega
      · rw [if_neg (by simpa using hx)]
        have hx₀ : x = 0 := by omega
        subst hx₀
        simp only [Nat.zero_sub, Nat.zero_add, Nat.add_zero]
        exact ih

/-! ## §2. Entries, executions, predecessors. -/

/-- All known TBs. -/
def knownTbs (s : PluginState) : List TbMeta := s.tbMap.items.map Prod.snd

/-- Total branch entries into `t`: flushed ones and those of the edge list. -/
def entriesInto (branchEdges : List Triple) (extra : HashMap UInt64 UInt64) (t : UInt64) : Nat :=
  natWhere (fun a => decide (a = t)) extra.items
    + natWhere (fun a => decide (a = t)) (branchEdges.map fun e => (e.2.1, e.2.2))

/-- The exec counts of the TBs that start at `t`. -/
def execsAt (s : PluginState) (execSum : Nat → UInt64) (t : UInt64) : List Nat :=
  ((knownTbs s).filter fun tb => tb.startAddr = t).map fun tb => (execSum tb.execCount).toNat

/-- Some TB falls through to `t`. -/
def FallsThroughTo (s : PluginState) (t : UInt64) : Prop :=
  ∃ tb ∈ knownTbs s, tb.fallThroughAddr = t

/-- Entries that fit are counted exactly. -/
theorem toNat_lookup_branchEntryCounts (o : ExitOrders) (branchEdges : List Triple)
    (extra : HashMap UInt64 UInt64) (t : UInt64) (hfit : entriesInto branchEdges extra t < 2 ^ 64) :
    (((branchEntryCounts o branchEdges extra).lookup t).getD 0).toNat
      = entriesInto branchEdges extra t := by
  rw [lookup_branchEntryCounts]
  unfold sumAt
  rw [sumWhere_uint64, sumWhere_uint64, ← UInt64.ofNat_add, UInt64.toNat_ofNat']
  exact Nat.mod_eq_of_lt hfit

/-- The predecessor of `t` is the end of a TB that falls through to `t`. -/
theorem mem_predecessors {metas : List TbMeta} {t predEnd : UInt64}
    (h : (predecessors metas).lookup t = some predEnd) :
    ∃ tb ∈ metas, tb.fallThroughAddr = t ∧ tb.endAddr = predEnd := by
  suffices hs : ∀ (metas : List TbMeta) (m : HashMap UInt64 UInt64),
      (metas.foldl (fun m tb => m.insert tb.fallThroughAddr tb.endAddr) m).lookup t
          = some predEnd →
        m.lookup t = some predEnd
          ∨ ∃ tb ∈ metas, tb.fallThroughAddr = t ∧ tb.endAddr = predEnd by
    rcases hs metas ∅ h with he | hex
    · rw [AList.lookup_empty] at he
      cases he
    · exact hex
  intro metas
  induction metas with
  | nil => intro m hm; exact .inl hm
  | cons tb metas ih =>
      intro m hm
      rcases ih _ hm with hins | hex
      · dsimp only at hins
        by_cases ht : tb.fallThroughAddr = t
        · rw [ht, AList.lookup_insert] at hins
          exact .inr ⟨tb, List.mem_cons_self, ht, Option.some.inj hins⟩
        · rw [AList.lookup_insert_ne (Ne.symm ht)] at hins
          exact .inl hins
      · obtain ⟨tb', hmem, hex⟩ := hex
        exact .inr ⟨tb', List.mem_cons_of_mem _ hmem, hex⟩

/-! ## §3. The emitted edges. -/

/-- What an emitted edge `(predEnd, t, count)` says: a positive count, into
the start of an executed TB, from the end of a TB that falls through to it. -/
def SoundEdge (s : PluginState) (execSum : Nat → UInt64) (e : Triple) : Prop :=
  0 < e.2.2
    ∧ (∃ tb ∈ knownTbs s, tb.startAddr = e.2.1 ∧ execSum tb.execCount ≠ 0)
    ∧ ∃ tb ∈ knownTbs s, tb.fallThroughAddr = e.2.1 ∧ tb.endAddr = e.1

/-- Fall-throughs that account for all executions that no branch explains. -/
structure FlowConserved (s : PluginState) (execSum : Nat → UInt64) (branchEdges : List Triple)
    (extra : HashMap UInt64 UInt64) (fallThroughs : List Triple) : Prop where
  counts : ∀ t, FallsThroughTo s t →
    countInto t fallThroughs = (execsAt s execSum t).sum - entriesInto branchEdges extra t
  edges : ∀ e ∈ fallThroughs, SoundEdge s execSum e

theorem mem_of_fallThroughEdge {pred : Option UInt64} {startAddr totalExec branchCount : UInt64}
    {e : Triple} (h : fallThroughEdge pred startAddr totalExec branchCount = some e) :
    pred = some e.1 ∧ e.2.1 = startAddr ∧ totalExec ≠ 0 ∧ 0 < e.2.2 := by
  unfold fallThroughEdge at h
  dsimp only at h
  by_cases hz : totalExec = 0
  · rw [if_pos hz] at h
    cases h
  · rw [if_neg hz] at h
    by_cases hpos : 0 < (if branchCount ≤ totalExec then totalExec - branchCount else 0)
    · rw [if_pos hpos] at h
      obtain ⟨predEnd, hp, he⟩ := Option.map_eq_some_iff.mp h
      subst he
      exact ⟨hp, rfl, hz, hpos⟩
    · rw [if_neg hpos] at h
      cases h

/-- Every emitted edge is sound, whatever the counts. -/
theorem soundEdge_of_mem {o : ExitOrders} {s : PluginState} {execSum : Nat → UInt64}
    {branchEdges : List Triple} {extra : HashMap UInt64 UInt64} {e : Triple}
    (he : e ∈ computeFallThroughs o s execSum branchEdges extra) : SoundEdge s execSum e := by
  unfold computeFallThroughs at he
  obtain ⟨tb, htb, hedge⟩ := List.mem_filterMap.mp he
  unfold fallThroughOf at hedge
  obtain ⟨hpred, hto, hexec, hpos⟩ := mem_of_fallThroughEdge hedge
  obtain ⟨tb', htb', hft, hend⟩ := mem_predecessors hpred
  refine ⟨hpos, ⟨tb, (tbMetas_perm o s).mem_iff.mp htb, hto.symm, hexec⟩,
    tb', (tbMetas_perm o s).mem_iff.mp htb', ?_, hend⟩
  rw [hft, hto]

/-- **Counts into `t`**: every TB at `t` loses all entries into `t`. -/
theorem countInto_computeFallThroughs (o : ExitOrders) (s : PluginState) (execSum : Nat → UInt64)
    (branchEdges : List Triple) (extra : HashMap UInt64 UInt64) {t : UInt64}
    (hfit : entriesInto branchEdges extra t < 2 ^ 64) (ht : FallsThroughTo s t) :
    countInto t (computeFallThroughs o s execSum branchEdges extra)
      = ((execsAt s execSum t).map (· - entriesInto branchEdges extra t)).sum := by
  obtain ⟨tb, htb, hft⟩ := ht
  have hpred : ((predecessors (tbMetas o s)).lookup t).isSome :=
    (predecessors_isSome _ t).mpr ⟨tb, (tbMetas_perm o s).mem_iff.mpr htb, hft⟩
  have hcount := countInto_fallThroughs t
    (fun a => ((branchEntryCounts o branchEdges extra).lookup a).getD 0)
    (predecessors (tbMetas o s)) execSum (tbMetas o s)
  rw [if_pos hpred, toNat_lookup_branchEntryCounts o branchEdges extra t hfit] at hcount
  unfold execsAt
  rw [List.map_map]
  exact hcount.trans (((tbMetas_perm o s).filter _).map _).sum_eq

/-! ## §4. Conservation. -/

/-- **FLOW CONSERVATION.**  The fall-throughs into every address are the
executions that no branch explains EXACTLY WHEN, at every address something
falls through to, there are no branch entries, or the entries explain all
executions, or at most one of the TBs starting there was executed. -/
theorem computeFallThroughs_conserves_iff (o : ExitOrders) (s : PluginState)
    (execSum : Nat → UInt64) (branchEdges : List Triple) (extra : HashMap UInt64 UInt64)
    (hfit : ∀ t, entriesInto branchEdges extra t < 2 ^ 64) :
    FlowConserved s execSum branchEdges extra
        (computeFallThroughs o s execSum branchEdges extra)
      ↔ ∀ t, FallsThroughTo s t →
          entriesInto branchEdges extra t = 0
            ∨ (execsAt s execSum t).sum ≤ entriesInto branchEdges extra t
            ∨ (execsAt s execSum t).countP (0 < ·) ≤ 1 := by
  constructor
  · intro h t ht
    have hcount := h.counts t ht
    rw [countInto_computeFallThroughs o s execSum branchEdges extra (hfit t) ht] at hcount
    exact (sum_map_sub_eq_iff _ _).mp hcount
  · intro h
    refine ⟨?_, fun e he => soundEdge_of_mem he⟩
    intro t ht
    rw [countInto_computeFallThroughs o s execSum branchEdges extra (hfit t) ht]
    exact (sum_map_sub_eq_iff _ _).mpr (h t ht)

/-- A TB of `nInsns` four-byte instructions, with its scoreboard. -/
def tbOf (startAddr : UInt64) (nInsns : UInt16) (execCount : Nat) : TbKey × TbMeta :=
  (⟨startAddr, nInsns⟩,
    { startAddr := startAddr, endAddr := startAddr + 4 * nInsns.toUInt64 - 4, nInsns := nInsns
      symId := 0, execCount := execCount, firstSeenSeq := 0
      fallThroughAddr := startAddr + 4 * nInsns.toUInt64, endsWithIndirect := false
      coprocFlags := 0 })

/-- A plugin that knows these TBs. -/
def knowing (tbs : List (TbKey × TbMeta)) : PluginState :=
  { PluginState.new PluginConfig.default false false "riscv64" with tbMap := HashMap.ofList tbs }

/-- One TB before `0x1010`, which was translated at two lengths. -/
def retranslated : PluginState :=
  knowing [tbOf 0x1000 4 0, tbOf 0x1010 4 1, tbOf 0x1010 2 2]

/-- Two branches into `0x1010`. -/
def twoEntries : List Triple := [(0x2000, 0x1010, 2)]

/-- The executions of `retranslated`, only one of the two lengths being run. -/
def oneLength : Nat → UInt64 := fun board => [4, 6, 0].getD board 0

/-- The executions of `retranslated`, both lengths being run. -/
def bothLengths : Nat → UInt64 := fun board => [4, 3, 3].getD board 0

theorem entriesInto_twoEntries (t : UInt64) : entriesInto twoEntries ∅ t < 2 ^ 64 := by
  unfold entriesInto twoEntries
  rw [HashMap.items_empty, natWhere_nil, List.map_cons, List.map_nil, natWhere_cons, natWhere_nil]
  split
  · decide
  · decide

theorem computeFallThroughs_conserves_oneLength :
    (∀ t, entriesInto twoEntries ∅ t < 2 ^ 64)
      ∧ FlowConserved retranslated oneLength twoEntries ∅
        (computeFallThroughs listOrders retranslated oneLength twoEntries ∅)
      ∧ computeFallThroughs listOrders retranslated oneLength twoEntries ∅
        = [(0x100c, 0x1010, 4)] := by
  refine ⟨entriesInto_twoEntries, ?_, by decide⟩
  refine (computeFallThroughs_conserves_iff listOrders retranslated oneLength twoEntries ∅
    entriesInto_twoEntries).mpr ?_
  intro t ht
  obtain ⟨tb, htb, hft⟩ := ht
  right; right
  have hall : ∀ tb ∈ knownTbs retranslated,
      (execsAt retranslated oneLength tb.fallThroughAddr).countP (0 < ·) ≤ 1 := by decide
  rw [← hft]
  exact hall tb htb

/-- **Entries subtracted twice**: the two branches into `0x1010` are taken off
both TBs that start there, and two of the four fall-throughs are lost. -/
theorem entries_subtracted_twice :
    (∀ t, entriesInto twoEntries ∅ t < 2 ^ 64)
      ∧ FallsThroughTo retranslated 0x1010
      ∧ (execsAt retranslated bothLengths 0x1010).sum - entriesInto twoEntries ∅ 0x1010 = 4
      ∧ countInto 0x1010
          (computeFallThroughs listOrders retranslated bothLengths twoEntries ∅) = 2
      ∧ ¬ FlowConserved retranslated bothLengths twoEntries ∅
        (computeFallThroughs listOrders retranslated bothLengths twoEntries ∅) := by
  have hft : FallsThroughTo retranslated 0x1010 :=
    ⟨(tbOf 0x1000 4 0).2, by decide, by decide⟩
  refine ⟨entriesInto_twoEntries, hft, by decide, by decide, ?_⟩
  intro h
  exact absurd (h.counts 0x1010 hft) (by decide)

end QemuProfiler.Edges

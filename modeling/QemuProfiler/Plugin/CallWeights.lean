/-
  QemuProfiler.Plugin.CallWeights
  ───────────────────────────────
  The weight the exit handler gives a DIRECT CALL.

  The calls are those that translation finds in the TBs (`directPairs`).  For
  each of them the handler looks at one TB only: the last one of the sorted
  index that starts at or before the callsite.  The weight the call deserves is the
  number of executions of ALL TBs that contain the callsite.  The two agree,
  in every iteration order, exactly when each executed TB that contains the
  callsite is the only TB that starts between its start and the callsite.
-/
import QemuProfiler.Plugin.Exit
import QemuProfiler.Plugin.Sections
import QemuProfiler.Lib.SortedIndex
import Mathlib.Algebra.Ring.Nat

namespace QemuProfiler.Plugin

open QemuProfiler.Lib

/-! ## §1. The table of direct calls. -/

/-- The direct calls in a block. -/
def directPairs (arch : Arch) (tb : QemuTb) : List (UInt64 × UInt64) :=
  tb.insns.filterMap fun insn =>
    match Tier2.classOf arch insn with
    | .direct target => some (insn.vaddr, target)
    | _ => none

theorem mem_recordDirect (arch : Arch) (calls : HashMap (UInt64 × UInt64) Unit) (insn : QemuInsn)
    (x : UInt64 × UInt64) :
    x ∈ Tier2.recordDirect arch calls insn
      ↔ x ∈ calls ∨ (Tier2.classOf arch insn = .direct x.2 ∧ insn.vaddr = x.1) := by
  unfold Tier2.recordDirect
  cases hclass : Tier2.classOf arch insn with
  | direct target =>
      dsimp only
      by_cases hin : (insn.vaddr, target) ∈ calls
      · rw [if_pos hin]
        refine ⟨Or.inl, ?_⟩
        rintro (h | ⟨hdirect, haddr⟩)
        · exact h
        · rw [InsnClass.direct.injEq] at hdirect
          rw [show x = (insn.vaddr, target) from Prod.ext haddr.symm hdirect.symm]
          exact hin
      · rw [if_neg hin, AList.mem_insert]
        constructor
        · rintro (rfl | h)
          · exact Or.inr ⟨rfl, rfl⟩
          · exact Or.inl h
        · rintro (h | ⟨hdirect, haddr⟩)
          · exact Or.inr h
          · rw [InsnClass.direct.injEq] at hdirect
            exact Or.inl (Prod.ext haddr.symm hdirect.symm)
  | indirect => simp
  | other => simp

theorem mem_directPairs {arch : Arch} {tb : QemuTb} {x : UInt64 × UInt64} :
    x ∈ directPairs arch tb
      ↔ ∃ insn ∈ tb.insns, Tier2.classOf arch insn = .direct x.2 ∧ insn.vaddr = x.1 := by
  unfold directPairs
  rw [List.mem_filterMap]
  refine exists_congr fun insn => and_congr_right fun _ => ?_
  cases Tier2.classOf arch insn with
  | direct target =>
      rw [Option.some.injEq, InsnClass.direct.injEq, Prod.ext_iff]
      exact ⟨fun h => ⟨h.2, h.1⟩, fun h => ⟨h.2, h.1⟩⟩
  | indirect => simp
  | other => simp

theorem mem_foldl_recordDirect (arch : Arch) (insns : List QemuInsn) (x : UInt64 × UInt64) :
    ∀ calls : HashMap (UInt64 × UInt64) Unit,
      x ∈ insns.foldl (Tier2.recordDirect arch) calls
        ↔ x ∈ calls ∨ ∃ insn ∈ insns, Tier2.classOf arch insn = .direct x.2
          ∧ insn.vaddr = x.1 := by
  induction insns with
  | nil => simp
  | cons insn insns ih =>
      intro calls
      rw [List.foldl_cons, ih, mem_recordDirect, List.exists_mem_cons_iff, or_assoc]

/-- The later tiers add the direct calls of their block, from tier 2 on. -/
theorem mem_directCalls_laterTiers (p : PluginState) (tb : QemuTb) (x : UInt64 × UInt64) :
    x ∈ (laterTiers p tb).directCalls
      ↔ x ∈ p.directCalls ∨ (2 ≤ p.config.tier ∧ x ∈ directPairs p.targetArch tb) := by
  have htier3 : ∀ q : PluginState, (if q.tier3 && q.config.tier ≥ 3 then
      { q with tbMap := q.tbMap.modify tb.key fun m =>
          { m with coprocFlags := Tier3.classifyTb q.targetArch tb } }
      else q).directCalls = q.directCalls := by
    intro q
    split <;> rfl
  unfold laterTiers
  dsimp only
  rw [htier3]
  by_cases htier : p.config.tier ≥ 2
  · rw [if_pos htier, mem_directPairs]
    show x ∈ tb.insns.foldl (Tier2.recordDirect p.targetArch) p.directCalls ↔ _
    rw [mem_foldl_recordDirect]
    exact or_congr_right ⟨fun hex => ⟨htier, hex⟩, fun hex => hex.2⟩
  · rw [if_neg htier]
    exact ⟨Or.inl, fun hor => hor.resolve_right fun hex => htier hex.1⟩

/-! ## §2. Weights over an index. -/

/-- The count the handler takes from an index. -/
def indexWeight (index : List Triple) (cs : UInt64) : UInt64 :=
  match lastAtOrBefore (fun e : Triple => e.1) index cs with
  | none => 0
  | some (_, endAddr, exec) => if cs ≤ endAddr then exec else 0

/-- The entry `(start, end, exec)` contains the callsite. -/
def Contains (cs : UInt64) (e : Triple) : Prop := e.1 ≤ cs ∧ cs ≤ e.2.1

instance (cs : UInt64) (e : Triple) : Decidable (Contains cs e) :=
  inferInstanceAs (Decidable (_ ∧ _))

/-- **The weight of a callsite**: the executions of all entries that contain
it. -/
def containingSum (entries : List Triple) (cs : UInt64) : Nat :=
  ((entries.filter fun e => Contains cs e).map fun e => e.2.2.toNat).sum

theorem containingSum_cons (e : Triple) (entries : List Triple) (cs : UInt64) :
    containingSum (e :: entries) cs
      = (if Contains cs e then e.2.2.toNat else 0) + containingSum entries cs := by
  unfold containingSum
  by_cases h : Contains cs e
  · simp [h]
  · simp [h]

theorem containingSum_perm {entries entries' : List Triple} (h : entries.Perm entries')
    (cs : UInt64) : containingSum entries cs = containingSum entries' cs :=
  ((h.filter _).map _).sum_eq

theorem containingSum_eq_zero {entries : List Triple} {cs : UInt64} :
    containingSum entries cs = 0 ↔ ∀ e ∈ entries, Contains cs e → e.2.2 = 0 := by
  induction entries with
  | nil => simp [containingSum]
  | cons e entries ih =>
      rw [containingSum_cons, List.forall_mem_cons, Nat.add_eq_zero_iff, ih]
      have hhead : (if Contains cs e then e.2.2.toNat else 0) = 0
          ↔ (Contains cs e → e.2.2 = 0) := by
        by_cases h : Contains cs e
        · simp [h, ← UInt64.toNat_inj]
        · simp [h]
      rw [hhead]

/-- **Nothing overlaps**: each executed entry that contains the callsite is
the only one that starts between its start and the callsite. -/
def NoOverlap (entries : List Triple) (cs : UInt64) : Prop :=
  ∀ e ∈ entries, Contains cs e → e.2.2 ≠ 0 →
    (entries.filter fun u => e.1 ≤ u.1 ∧ u.1 ≤ cs).length = 1

instance (entries : List Triple) (cs : UInt64) : Decidable (NoOverlap entries cs) :=
  List.decidableBAll (fun e : Triple => Contains cs e → e.2.2 ≠ 0 →
    (entries.filter fun u => e.1 ≤ u.1 ∧ u.1 ≤ cs).length = 1) entries

/-- An entry of a list, put in front. -/
theorem exists_cons_perm {α : Type} {a : α} {l : List α} (h : a ∈ l) :
    ∃ rest, l.Perm (a :: rest) := by
  obtain ⟨front, back, rfl⟩ := List.append_of_mem h
  exact ⟨front ++ back, List.perm_middle⟩

/-- With `e` in front, being alone is about the rest. -/
theorem alone_iff {entries rest : List Triple} {e : Triple} {cs : UInt64}
    (hperm : entries.Perm (e :: rest)) (he : e.1 ≤ cs) :
    (entries.filter fun u => e.1 ≤ u.1 ∧ u.1 ≤ cs).length = 1
      ↔ ∀ u ∈ rest, e.1 ≤ u.1 → ¬ u.1 ≤ cs := by
  rw [(hperm.filter _).length_eq,
      List.filter_cons_of_pos (by simpa using And.intro (UInt64.le_refl e.1) he), List.length_cons]
  constructor
  · intro hlen u hu hle hcs
    have hnil := List.eq_nil_of_length_eq_zero (Nat.succ.inj hlen)
    exact List.filter_eq_nil_iff.mp hnil u hu (by simpa using And.intro hle hcs)
  · intro h
    rw [List.filter_eq_nil_iff.mpr]
    · rfl
    · intro u hu hin
      simp only [decide_eq_true_eq] at hin
      exact h u hu hin.1 hin.2

/-- The weight of the entry that is found. -/
theorem indexWeight_of_found {index : List Triple} {cs : UInt64} {e : Triple}
    (hfound : lastAtOrBefore (fun e : Triple => e.1) index cs = some e) (he : e.1 ≤ cs) :
    (indexWeight index cs).toNat = if Contains cs e then e.2.2.toNat else 0 := by
  unfold indexWeight
  rw [hfound]
  show (if cs ≤ e.2.1 then e.2.2 else 0).toNat = _
  by_cases hend : cs ≤ e.2.1
  · rw [if_pos hend, if_pos ⟨he, hend⟩]
  · rw [if_neg hend, if_neg (fun hc => hend hc.2)]
    rfl

/-- Besides an executed entry that contains the callsite, the rest contributes
nothing: an entry there starts before `e`, and `e` would spoil its being
alone. -/
theorem containingSum_rest {entries rest : List Triple} {cs : UInt64} {e : Triple}
    (h : NoOverlap entries cs) (hrest : entries.Perm (e :: rest)) (hcontains : Contains cs e)
    (hne : e.2.2 ≠ 0) : containingSum rest cs = 0 := by
  have halone := (alone_iff hrest hcontains.1).mp
    (h e (hrest.mem_iff.mpr List.mem_cons_self) hcontains hne)
  rw [containingSum_eq_zero]
  intro u hu hcu
  by_contra hune
  have hlt : u.1 ≤ e.1 := by
    rcases UInt64.le_total u.1 e.1 with hle | hle
    · exact hle
    · exact absurd hcu.1 (halone u hu hle)
  obtain ⟨rest', hrest'⟩ := exists_cons_perm hu
  have hperm : entries.Perm (u :: e :: rest') :=
    hrest.trans ((hrest'.cons e).trans (List.Perm.swap u e rest'))
  have hu' : u ∈ entries := hperm.mem_iff.mpr (by simp)
  exact (alone_iff hperm hcu.1).mp (h u hu' hcu hune) e (by simp) hlt hcontains.1

/-- An entry that stands alone is found, in every sorted order. -/
theorem lastAtOrBefore_of_alone {entries rest index : List Triple} {cs : UInt64} {e : Triple}
    (halone : ∀ u ∈ rest, e.1 ≤ u.1 → ¬ u.1 ≤ cs) (hrest : entries.Perm (e :: rest))
    (hperm : index.Perm entries) (hsorted : SortedBy (fun e : Triple => e.1) index)
    (he : e.1 ≤ cs) : lastAtOrBefore (fun e : Triple => e.1) index cs = some e := by
  have hin : e ∈ index := (hperm.trans hrest).mem_iff.mpr List.mem_cons_self
  cases hlook : lastAtOrBefore (fun e : Triple => e.1) index cs with
  | none => exact absurd he ((lastAtOrBefore_eq_none hsorted).mp hlook e hin)
  | some p =>
      obtain ⟨hp, hpcs, hmax⟩ := lastAtOrBefore_eq_some hsorted hlook
      rcases List.mem_cons.mp ((hperm.trans hrest).mem_iff.mp hp) with heq | hother
      · rw [heq]
      · exact absurd hpcs (halone p hother (hmax e hin he))

/-- **The look-up is exact when nothing overlaps**, in every order. -/
theorem indexWeight_of_noOverlap {entries index : List Triple} {cs : UInt64}
    (h : NoOverlap entries cs) (hperm : index.Perm entries)
    (hsorted : SortedBy (fun e : Triple => e.1) index) :
    (indexWeight index cs).toNat = containingSum entries cs := by
  by_cases hex : ∃ e ∈ entries, Contains cs e ∧ e.2.2 ≠ 0
  · obtain ⟨e, he, hcontains, hne⟩ := hex
    obtain ⟨rest, hrest⟩ := exists_cons_perm he
    have halone := (alone_iff hrest hcontains.1).mp (h e he hcontains hne)
    have hfound := lastAtOrBefore_of_alone halone hrest hperm hsorted hcontains.1
    rw [indexWeight_of_found hfound hcontains.1, containingSum_perm hrest, containingSum_cons,
        containingSum_rest h hrest hcontains hne, Nat.add_zero]
  · -- no executed entry contains the callsite
    have hnone : ∀ e ∈ entries, Contains cs e → e.2.2 = 0 := by
      intro e he hc
      by_contra hne
      exact hex ⟨e, he, hc, hne⟩
    rw [containingSum_eq_zero.mpr hnone]
    cases hlook : lastAtOrBefore (fun e : Triple => e.1) index cs with
    | none =>
        unfold indexWeight
        rw [hlook]
        rfl
    | some p =>
        obtain ⟨hp, hpcs, -⟩ := lastAtOrBefore_eq_some hsorted hlook
        rw [indexWeight_of_found hlook hpcs]
        by_cases hc : Contains cs p
        · rw [if_pos hc, hnone p (hperm.mem_iff.mp hp) hc]
          rfl
        · rw [if_neg hc]

/-- **And only then**: where something overlaps, some sorted order of the
index gives another weight. -/
theorem exists_indexWeight_ne {entries : List Triple} {cs : UInt64}
    (h : ¬ NoOverlap entries cs) :
    ∃ index, index.Perm entries ∧ SortedBy (fun e : Triple => e.1) index
      ∧ (indexWeight index cs).toNat ≠ containingSum entries cs := by
  unfold NoOverlap at h
  simp only [not_forall] at h
  obtain ⟨e, he, hcontains, hne, halone⟩ := h
  obtain ⟨rest, hrest⟩ := exists_cons_perm he
  rw [alone_iff hrest hcontains.1] at halone
  simp only [not_forall, not_not] at halone
  obtain ⟨u, hu, hle, hucs⟩ := halone
  -- among the other entries, one with the greatest start can be found last
  have hsortedRest := sortedBy_insertionSort (fun e : Triple => e.1) rest
  have hpermRest := List.perm_insertionSort (fun a b : Triple => a.1 ≤ b.1) rest
  cases hlook : lastAtOrBefore (fun e : Triple => e.1)
      (rest.insertionSort fun a b : Triple => a.1 ≤ b.1) cs with
  | none =>
      exact absurd hucs ((lastAtOrBefore_eq_none hsortedRest).mp hlook u (hpermRest.mem_iff.mpr hu))
  | some p =>
      obtain ⟨hp, hpcs, hmax⟩ := lastAtOrBefore_eq_some hsortedRest hlook
      obtain ⟨rest', hrest'⟩ := exists_cons_perm (hpermRest.mem_iff.mp hp)
      have hentries : entries.Perm (p :: e :: rest') :=
        hrest.trans ((hrest'.cons e).trans (List.Perm.swap p e rest'))
      have hup : u.1 ≤ p.1 := hmax u (hpermRest.mem_iff.mpr hu) hucs
      have hmax' : ∀ f ∈ e :: rest', f.1 ≤ cs → f.1 ≤ p.1 := by
        intro f hf hfcs
        rcases List.mem_cons.mp hf with heq | hin
        · rw [heq]
          exact UInt64.le_trans hle hup
        · exact hmax f (hpermRest.mem_iff.mpr (hrest'.mem_iff.mpr (by simp [hin]))) hfcs
      obtain ⟨index, hperm, hsorted, hfound⟩ :=
        exists_sorted_lastAtOrBefore (fun e : Triple => e.1) hpcs hmax'
      refine ⟨index, hperm.trans hentries.symm, hsorted, ?_⟩
      -- the executions of `e` are missing
      have hpos : 0 < e.2.2.toNat := by
        rw [Nat.pos_iff_ne_zero]
        intro hzero
        exact hne (UInt64.toNat_inj.mp hzero)
      rw [containingSum_perm hentries, containingSum_cons, containingSum_cons,
          indexWeight_of_found hfound hpcs, if_pos hcontains]
      omega

/-! ## §3. The exit handler. -/

/-- The TBs of the map, as `(start, end, exec)`. -/
def tbTriples (state : PluginState) (execSum : Nat → UInt64) : List Triple :=
  state.tbMap.items.map fun e => (e.2.startAddr, e.2.endAddr, execSum e.2.execCount)

theorem tbIndex_perm (o : ExitOrders) (state : PluginState) (execSum : Nat → UInt64) :
    (tbIndex o state execSum).Perm (tbTriples state execSum) := by
  refine (List.perm_insertionSort _ _).trans ((shuffle_perm _ _).trans ?_)
  refine ((tbMetas_perm o state).map _).trans ?_
  rw [List.map_map]
  rfl

theorem tbIndex_sorted (o : ExitOrders) (state : PluginState) (execSum : Nat → UInt64) :
    SortedBy (fun e : Triple => e.1) (tbIndex o state execSum) :=
  sortedBy_insertionSort (fun e : Triple => e.1) _

/-- Every sorted order of the TBs is the index of some run of the handler. -/
theorem exists_tbIndex_eq (state : PluginState) (execSum : Nat → UInt64) {index : List Triple}
    (hperm : index.Perm (tbTriples state execSum))
    (hsorted : SortedBy (fun e : Triple => e.1) index) :
    ∃ o, tbIndex o state execSum = index := by
  have hlist : (tbMetas listOrders state).map
      (fun tb => (tb.startAddr, tb.endAddr, execSum tb.execCount)) = tbTriples state execSum := by
    unfold tbMetas tbTriples
    rw [List.map_map]
    rfl
  obtain ⟨ρ, hρ⟩ := exists_shuffle_eq hperm
  refine ⟨{ listOrders with tbIndexTies := ρ }, ?_⟩
  have hmetas : tbMetas { listOrders with tbIndexTies := ρ } state = tbMetas listOrders state := rfl
  unfold tbIndex
  rw [hmetas, hlist, hρ]
  exact List.Pairwise.insertionSort_eq hsorted

/-- Every recorded call with the weight of the index. -/
theorem exitDirectCalls_eq (o : ExitOrders) (state : PluginState) (execSum : Nat → UInt64) :
    exitDirectCalls o state execSum
      = (state.directCalls.iter o.directCalls).map fun e =>
          (e.1.1, e.1.2, indexWeight (tbIndex o state execSum) e.1.1) := by
  unfold exitDirectCalls
  apply List.map_congr_left
  intro e _
  obtain ⟨⟨cs, tgt⟩, u⟩ := e
  show (match lastAtOrBefore (fun e : Triple => e.1) (tbIndex o state execSum) cs with
    | none => (cs, tgt, 0)
    | some (_, endAddr, exec) => (cs, tgt, if cs ≤ endAddr then exec else 0)) = _
  unfold indexWeight
  cases lastAtOrBefore (fun e : Triple => e.1) (tbIndex o state execSum) cs with
  | none => rfl
  | some p => rfl

theorem directCallBatch_mem_exitCalls {o : ExitOrders} {state : PluginState}
    {execSum : Nat → UInt64} (htier : state.config.tier ≥ 2) {batch : List Triple} :
    WriteCall.directCallBatch batch ∈ exitCalls o state execSum
      ↔ batch = exitDirectCalls o state execSum := by
  have hsymbols : WriteCall.directCallBatch batch ∉ exitSymbols o state := by
    intro hmem
    obtain ⟨e, _, he⟩ := List.mem_map.mp hmem
    exact absurd he (by simp)
  have hresources : WriteCall.directCallBatch batch ∉ exitResources o state := by
    unfold exitResources
    simp
  unfold exitCalls
  rw [if_pos htier]
  by_cases h3 : state.tier3 && state.config.tier ≥ 3
  · rw [if_pos h3]
    by_cases h1 : state.config.tier ≥ 1
    · rw [if_pos h1]
      simp [hsymbols, hresources]
    · rw [if_neg h1]
      simp [hsymbols, hresources]
  · rw [if_neg h3]
    by_cases h1 : state.config.tier ≥ 1
    · rw [if_pos h1]
      simp [hsymbols]
    · rw [if_neg h1]
      simp [hsymbols]

/-- **DIRECT-CALL WEIGHTS.**  In every iteration order the handler writes for
every recorded call the executions of all TBs that contain the callsite, if
and only if each executed TB that contains a recorded callsite is the only TB
that starts between its start and the callsite. -/
theorem directCall_weights (state : PluginState) (execSum : Nat → UInt64)
    (htier : state.config.tier ≥ 2) :
    (∀ o batch, WriteCall.directCallBatch batch ∈ exitCalls o state execSum →
        batch.map (fun e => (e.1, e.2.1)) = (state.directCalls.iter o.directCalls).map Prod.fst
        ∧ ∀ e ∈ batch, e.2.2.toNat = containingSum (tbTriples state execSum) e.1)
      ↔ ∀ key ∈ state.directCalls.keys, NoOverlap (tbTriples state execSum) key.1 := by
  have hkeys : ∀ o key, key ∈ state.directCalls.keys
      ↔ ∃ e ∈ state.directCalls.iter o, e.1 = key := by
    intro o key
    rw [← HashMap.keys_eq, ← ((shuffle_perm o state.directCalls.items).map Prod.fst).mem_iff,
        List.mem_map]
    rfl
  constructor
  · intro h key hkey
    by_contra hover
    -- some order of the index weighs the call wrongly
    obtain ⟨index, hperm, hsorted, hne⟩ := exists_indexWeight_ne hover
    obtain ⟨o, ho⟩ := exists_tbIndex_eq state execSum hperm hsorted
    obtain ⟨e, he, hek⟩ := (hkeys o.directCalls key).mp hkey
    have hbatch : WriteCall.directCallBatch (exitDirectCalls o state execSum)
        ∈ exitCalls o state execSum := (directCallBatch_mem_exitCalls htier).mpr rfl
    have hmem : (e.1.1, e.1.2, indexWeight (tbIndex o state execSum) e.1.1)
        ∈ exitDirectCalls o state execSum := by
      rw [exitDirectCalls_eq]
      exact List.mem_map.mpr ⟨e, he, rfl⟩
    have hweight := (h o _ hbatch).2 _ hmem
    rw [ho, hek] at hweight
    exact hne hweight
  · intro h o batch hbatch
    rw [directCallBatch_mem_exitCalls htier] at hbatch
    rw [hbatch, exitDirectCalls_eq]
    refine ⟨?_, ?_⟩
    · rw [List.map_map]
      rfl
    · intro e he
      obtain ⟨c, hc, rfl⟩ := List.mem_map.mp he
      have hno := h c.1 ((hkeys o.directCalls c.1).mpr ⟨c, hc, rfl⟩)
      exact indexWeight_of_noOverlap hno (tbIndex_perm o state execSum)
        (tbIndex_sorted o state execSum)

/-! ## §4. A jump into the middle of a block.

The block at `0x1000` ends in a call at `0x1010`; it ran three times.  One
jump to `0x1004` made QEMU translate the block's tail again, as a TB of its
own, which ran once. -/

/-- A TB of the example. -/
def blockTb (startAddr endAddr : UInt64) (nInsns : UInt16) (scoreboard : Nat) : TbMeta :=
  { startAddr := startAddr, endAddr := endAddr, nInsns := nInsns, symId := 0
    execCount := scoreboard, firstSeenSeq := 0, fallThroughAddr := endAddr + 4
    endsWithIndirect := false, coprocFlags := 0 }

/-- The state with these TBs and one recorded call. -/
def blockState (tbs : List (TbKey × TbMeta)) : PluginState :=
  { PluginState.new { PluginConfig.default with tier := 2 } false false "aarch64" with
    tbMap := HashMap.ofList tbs
    directCalls := HashMap.ofList [((0x1010, 0x2000), ())] }

/-- The whole block ran three times, its tail once. -/
def blockExec : Nat → UInt64
  | 0 => 3
  | 1 => 1
  | _ => 0

/-- The block and its tail. -/
def splitBlock : PluginState :=
  blockState [(⟨0x1004, 4⟩, blockTb 0x1004 0x1010 4 1), (⟨0x1000, 5⟩, blockTb 0x1000 0x1010 5 0)]

/-- The block with the one behind it, which ends in a call too, and one that
starts before it and runs into it. -/
def neighbours : PluginState :=
  { blockState [(⟨0x1014, 4⟩, blockTb 0x1014 0x1020 4 1), (⟨0x1000, 5⟩, blockTb 0x1000 0x1010 5 0),
      (⟨0xFF8, 4⟩, blockTb 0xFF8 0x1004 4 1)] with
    directCalls := HashMap.ofList [((0x1010, 0x2000), ()), ((0x1020, 0x1000), ())] }

/-- No block starts inside another one before a call: all are weighted right. -/
theorem directCall_weights_neighbours :
    neighbours.config.tier ≥ 2
      ∧ (∀ o batch, WriteCall.directCallBatch batch ∈ exitCalls o neighbours blockExec →
        batch.map (fun e => (e.1, e.2.1)) = (neighbours.directCalls.iter o.directCalls).map Prod.fst
        ∧ ∀ e ∈ batch, e.2.2.toNat = containingSum (tbTriples neighbours blockExec) e.1)
      ∧ containingSum (tbTriples neighbours blockExec) 0x1010 = 3
      ∧ containingSum (tbTriples neighbours blockExec) 0x1020 = 1 := by
  refine ⟨by decide, (directCall_weights neighbours blockExec (by decide)).mpr ?_, by decide,
    by decide⟩
  have hno : neighbours.directCalls.keys.all
      (fun key => decide (NoOverlap (tbTriples neighbours blockExec) key.1)) = true := by decide
  exact fun key hkey => of_decide_eq_true (List.all_eq_true.mp hno key hkey)

/-- **The tail hides the block**: the call ran four times, once in the tail
and three times in the whole block, and is written with weight one. -/
theorem tail_hides_block :
    WriteCall.directCallBatch [(0x1010, 0x2000, 1)] ∈ exitCalls listOrders splitBlock blockExec
      ∧ containingSum (tbTriples splitBlock blockExec) 0x1010 = 4 := by
  refine ⟨?_, by decide⟩
  rw [directCallBatch_mem_exitCalls (by decide)]
  decide

end QemuProfiler.Plugin

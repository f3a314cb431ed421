/-
  QemuProfiler.Qemu.FallThroughTrace
  ──────────────────────────────────
  **DERIVED FALL-THROUGH COUNTS AGAINST THE EXECUTION TRACE** (tier 1).

  Fall-throughs are not observed: the exit handler takes the executions of a
  TB that no recorded branch accounts for.  Over the entries into `t`:

      executions = fall-throughs + recorded branches + UNOBSERVED entries

  (`entries_split`), where an entry is unobserved when it is the first one of
  its vCPU or when its edge was skipped because the last end address is 0.
  The derived counts are the true ones exactly when there are none of these
  (`fallThroughs_true_iff`).
-/
import QemuProfiler.Edges.FallThrough
import QemuProfiler.Qemu.ExecCount

namespace QemuProfiler.Qemu

open QemuProfiler.Lib QemuProfiler.Plugin QemuProfiler.Edges

section Runs

variable {config : PluginConfig} {tier3 sysemu : Bool} {arch : String} {host : HostInfo}
  {evs : List Event} {m : Machine} {rs : List ExecRecord}

/-! ## §1. Branch entries. -/

/-- The flushed entries are those of the flushed edges. -/
theorem flushedBranchEntries_trace
    (h : runFrom (Machine.init config tier3 sysemu arch host) evs = some (m, rs)) (t : UInt64) :
    sumAt t m.plugin.flushedBranchEntries.items
      = sumWhere (fun e : Edge => decide (e.toAddr = t))
          (rs.flatMap fun r => r.emitted.flushed) := by
  refine runFrom_induction (fun m rs => sumAt t m.plugin.flushedBranchEntries.items
      = sumWhere (fun e : Edge => decide (e.toAddr = t)) (rs.flatMap fun r => r.emitted.flushed))
    rfl ?_ ?_ (fun m rs hp => hp) ?_ h
  · intro m rs v plugin hp hpl
    obtain ⟨i, j, rfl, _⟩ := ensureVcpuState_eq hpl
    exact hp
  · intro m rs tb _ hp
    have ht := vcpuTbTrans_spec m.host m.nextScoreboard m.plugin tb
    have hsame : (translate m tb).plugin.flushedBranchEntries = m.plugin.flushedBranchEntries :=
      ht.same.flushedBranchEntries
    rw [hsame]
    exact hp
  · intro m rs env v tr started _ hp _ _ _
    show sumAt t (pluginAfter env v m tr).flushedBranchEntries.items = _
    rw [(pluginAfter_edges env v m tr).2, flushedBranchEntries_run, (afterSeen_edges m v tr).2, hp,
        List.flatMap_append, sumWhere_append, List.flatMap_singleton]
    rfl

/-- **Branch entries of a run**: the recorded edges into `t`. -/
theorem branchEntries_trace
    (h : runFrom (Machine.init config tier3 sysemu arch host) evs = some (m, rs))
    (hpruned : ∀ r ∈ rs, r.emitted.dropped = []) (t : UInt64) :
    branchEntries m.plugin t
      = UInt64.ofNat ((rs.flatMap fun r => r.emitted.edges).countP fun e => e.toAddr = t) := by
  have hacc := edges_accounted (fun e : Edge => decide (e.toAddr = t)) h
  rw [List.flatMap_eq_nil_iff.mpr hpruned, sumWhere_nil, add_zero] at hacc
  unfold branchEntries
  rw [flushedBranchEntries_trace h, add_comm]
  exact hacc

/-! ## §2. The three kinds of entries. -/

/-- The second execution falls through from the first one, into `t`. -/
def fallsInto (t : UInt64) (a b : ExecRecord) : Bool :=
  b.tr.tbMeta.startAddr = t ∧ a.tr.tbMeta.fallThroughAddr = t

/-- The second execution is entered by a recorded branch to `t`. -/
def branchesInto (t : UInt64) (a b : ExecRecord) : Bool :=
  b.tr.tbMeta.startAddr = t ∧ a.tr.tbMeta.fallThroughAddr ≠ t ∧ a.tr.tbMeta.endAddr ≠ 0

/-- An entry into `t` that has a previous execution on its vCPU which falls
through to `t` or whose end address is not the sentinel. -/
def Observed (t : UInt64) (past : List ExecRecord) (r : ExecRecord) : Prop :=
  r.tr.tbMeta.startAddr = t →
    ∃ p ∈ (onVcpu r.vcpu past).getLast?,
      p.tr.tbMeta.fallThroughAddr = t ∨ p.tr.tbMeta.endAddr ≠ 0

instance (t : UInt64) (past : List ExecRecord) (r : ExecRecord) : Decidable (Observed t past r) :=
  inferInstanceAs (Decidable (_ → ∃ p ∈ (onVcpu r.vcpu past).getLast?, _))

/-- Number of the other entries. -/
def unobserved (t : UInt64) (rs : List ExecRecord) : Nat :=
  (withPast rs).countP fun e => ¬ Observed t e.1 e.2

theorem unobserved_eq_zero (t : UInt64) (rs : List ExecRecord) :
    unobserved t rs = 0 ↔ Along (Observed t) rs := by
  unfold unobserved
  rw [List.countP_eq_zero, along_iff_withPast]
  simp

/-- Counting by an exhaustive distinction of three cases. -/
theorem countP_eq_three {α : Type} (p q₁ q₂ q₃ : α → Bool) (l : List α)
    (h : ∀ a, (if p a then 1 else 0) = (if q₁ a then 1 else 0) + (if q₂ a then 1 else 0)
      + (if q₃ a then 1 else 0)) :
    l.countP p = l.countP q₁ + l.countP q₂ + l.countP q₃ := by
  induction l with
  | nil => rfl
  | cons a l ih =>
      have ha := h a
      simp only [List.countP_cons]
      omega

/-- **THE SPLIT OF THE ENTRIES INTO `t`.** -/
theorem entries_split (t : UInt64) (n : Nat) (rs : List ExecRecord)
    (hv : ∀ r ∈ rs, r.vcpu < n) :
    rs.countP (fun r => r.tr.tbMeta.startAddr = t)
      = pairCount ExecRecord.vcpu n (fallsInto t) rs
        + pairCount ExecRecord.vcpu n (branchesInto t) rs + unobserved t rs := by
  have hpast : rs.countP (fun r => r.tr.tbMeta.startAddr = t)
      = (withPast rs).countP fun e => e.2.tr.tbMeta.startAddr = t := by
    conv_lhs => rw [← map_snd_withPast rs]
    rw [List.countP_map]
    rfl
  rw [hpast, pairCount_eq_withPast _ _ _ _ hv, pairCount_eq_withPast _ _ _ _ hv]
  apply countP_eq_three
  intro e
  obtain ⟨past, r⟩ := e
  dsimp only
  unfold Observed onVcpu
  rcases Option.eq_none_or_eq_some (ofParty ExecRecord.vcpu r.vcpu past).getLast?
    with hlast | ⟨p, hlast⟩
  · -- the first execution of its vCPU
    by_cases ht : r.tr.tbMeta.startAddr = t
    · simp [hlast, ht]
    · simp [hlast, ht]
  · by_cases ht : r.tr.tbMeta.startAddr = t
    · by_cases hf : p.tr.tbMeta.fallThroughAddr = t
      · simp [hlast, ht, hf, fallsInto, branchesInto]
      · by_cases he : p.tr.tbMeta.endAddr = 0
        · simp [hlast, ht, hf, he, fallsInto, branchesInto]
        · simp [hlast, ht, hf, he, fallsInto, branchesInto]
    · simp [hlast, ht, fallsInto, branchesInto]

/-- The recorded edges into `t` are the branches. -/
theorem count_edges_into
    (h : runFrom (Machine.init config tier3 sysemu arch host) evs = some (m, rs))
    (htier : 1 ≤ config.tier) (hcomplete : ∀ r ∈ rs, r.complete = true) (t : UInt64) :
    (rs.flatMap fun r => r.emitted.edges).countP (fun e => e.toAddr = t)
      = pairCount ExecRecord.vcpu m.numVcpus (branchesInto t) rs := by
  apply countP_relay ExecRecord.vcpu m.numVcpus (fun r => r.emitted.edges) branchEdge
    (fun _ => rfl) rs (fun r hr => ((runFrom_inv h).executed r hr).2)
    (edges_along_complete h htier hcomplete)
  intro a b
  unfold branchEdge branchesInto
  dsimp only
  by_cases ht : b.tr.tbMeta.startAddr = t
  · by_cases he : a.tr.tbMeta.endAddr = 0
    · simp [ht, he]
    · by_cases hf : a.tr.tbMeta.fallThroughAddr = t
      · simp [ht, hf]
      · simp [ht, he, hf, Ne.symm hf]
  · by_cases hb : a.tr.tbMeta.endAddr ≠ 0 ∧ b.tr.tbMeta.startAddr ≠ a.tr.tbMeta.fallThroughAddr
    · simp [hb, ht]
    · simp [hb, ht]

/-! ## §3. The TB at an address. -/

/-- Every start address is translated to one TB only. -/
def UniqueStarts (m : Machine) : Prop :=
  ∀ tr ∈ m.translations, ∀ tr' ∈ m.translations, tr.tb.vaddr = tr'.tb.vaddr → tr.tb.key = tr'.tb.key

instance (m : Machine) : Decidable (UniqueStarts m) :=
  inferInstanceAs (Decidable (∀ tr ∈ m.translations, ∀ tr' ∈ m.translations, _))

/-- An entry of the map, by key. -/
theorem mem_tbMetas {o : ExitOrders} {s : PluginState} {e : TbMeta} :
    e ∈ tbMetas o s ↔ ∃ k, s.tbMap.lookup k = some e := by
  unfold tbMetas
  rw [List.mem_map]
  constructor
  · intro hex
    obtain ⟨⟨k, e'⟩, hmem, rfl⟩ := hex
    exact ⟨k, HashMap.mem_iter.mp hmem⟩
  · intro hex
    obtain ⟨k, hk⟩ := hex
    exact ⟨(k, e), HashMap.mem_iter.mpr hk, rfl⟩

/-- An entry of the map belongs to a translation, under its key. -/
theorem Inv.entry_translated {a : Arch} (hinv : Inv config a m rs) {k : TbKey} {e : TbMeta}
    (hk : m.plugin.tbMap.lookup k = some e) :
    ∃ tr ∈ m.translations, tr.tb.key = k ∧ codeOf tr.tbMeta = codeOf e
      ∧ tr.tb.vaddr = e.startAddr := by
  have hc := code_of_lookup hk
  obtain ⟨tr, htr, hkey, hcode⟩ := hinv.translated k _ hc
  refine ⟨tr, htr, hkey, hcode, ?_⟩
  have hstart : k.startAddr = e.startAddr := (hinv.keyed k _ hc).1.symm
  rw [← hstart, ← hkey]
  rfl

/-- With unique starts at most one entry starts at `t`. -/
theorem tbMetas_at {a : Arch} (hinv : Inv config a m rs) (hstart : UniqueStarts m)
    (o : ExitOrders) (t : UInt64) :
    (tbMetas o m.plugin).filter (fun e => e.startAddr = t) = []
      ∨ ∃ k e, (tbMetas o m.plugin).filter (fun e => e.startAddr = t) = [e]
          ∧ m.plugin.tbMap.lookup k = some e ∧ e.startAddr = t := by
  have hnodup : (((m.plugin.tbMap.iter o.tbMap).filter fun x => x.2.startAddr = t).map
      Prod.fst).Nodup :=
    (HashMap.iter_nodup o.tbMap m.plugin.tbMap).sublist (List.filter_sublist.map _)
  have hlookup : ∀ x ∈ (m.plugin.tbMap.iter o.tbMap).filter (fun x => x.2.startAddr = t),
      m.plugin.tbMap.lookup x.1 = some x.2 ∧ x.2.startAddr = t := by
    intro x hx
    obtain ⟨hmem, ht⟩ := List.mem_filter.mp hx
    exact ⟨HashMap.mem_iter.mp hmem, of_decide_eq_true ht⟩
  have hfilter : (tbMetas o m.plugin).filter (fun e => e.startAddr = t)
      = ((m.plugin.tbMap.iter o.tbMap).filter fun x => x.2.startAddr = t).map Prod.snd := by
    unfold tbMetas
    rw [List.filter_map]
    rfl
  rw [hfilter]
  generalize (m.plugin.tbMap.iter o.tbMap).filter (fun x => x.2.startAddr = t) = l
    at hnodup hlookup
  cases l with
  | nil => exact Or.inl rfl
  | cons x l =>
      have hx := hlookup x (List.mem_cons_self ..)
      refine Or.inr ⟨x.1, x.2, ?_, hx⟩
      cases l with
      | nil => rfl
      | cons y l =>
          -- two entries at one start: their keys would be the same
          have hy := hlookup y (List.mem_cons_of_mem x (List.mem_cons_self ..))
          obtain ⟨tr, htr, hkey, _, hvaddr⟩ := hinv.entry_translated hx.1
          obtain ⟨tr', htr', hkey', _, hvaddr'⟩ := hinv.entry_translated hy.1
          have hsame := hstart tr htr tr' htr' (by rw [hvaddr, hvaddr', hx.2, hy.2])
          rw [hkey, hkey'] at hsame
          rw [List.map_cons, List.map_cons, List.nodup_cons] at hnodup
          exact absurd (hsame ▸ List.mem_cons_self ..) hnodup.1

/-- With unique starts, executions of the key at `t` are executions that
start at `t`. -/
theorem key_eq_iff_start {a : Arch} (hinv : Inv config a m rs) (hstart : UniqueStarts m)
    {k : TbKey} {e : TbMeta} (hk : m.plugin.tbMap.lookup k = some e) {r : ExecRecord}
    (hr : r ∈ rs) : r.key = k ↔ r.tr.tbMeta.startAddr = e.startAddr := by
  obtain ⟨tr, htr, hkey, _, hvaddr⟩ := hinv.entry_translated hk
  have hrtr := (hinv.executed r hr).1
  rw [(hinv.instrumented r.tr hrtr).start, ← hvaddr, ← hkey]
  constructor
  · intro heq
    exact congrArg TbKey.startAddr heq
  · intro heq
    exact hstart r.tr hrtr tr htr heq

/-- A TB known to fall through to `t` is one that was translated. -/
theorem predecessor_iff {a : Arch} (hinv : Inv config a m rs) (o : ExitOrders) (t : UInt64) :
    ((predecessors (tbMetas o m.plugin)).lookup t).isSome = true
      ↔ ∃ tr ∈ m.translations, tr.tbMeta.fallThroughAddr = t := by
  rw [predecessors_isSome]
  constructor
  · intro hex
    obtain ⟨e, he, hft⟩ := hex
    obtain ⟨k, hk⟩ := mem_tbMetas.mp he
    obtain ⟨tr, htr, _, hcode, _⟩ := hinv.entry_translated hk
    exact ⟨tr, htr, (congrArg TbCode.fallThroughAddr hcode).trans hft⟩
  · intro hex
    obtain ⟨tr, htr, hft⟩ := hex
    obtain ⟨e, hk, hcode⟩ := lookup_of_code (hinv.known tr htr)
    exact ⟨e, mem_tbMetas.mpr ⟨_, hk⟩, (congrArg TbCode.fallThroughAddr hcode).trans hft⟩

/-! ## §4. Exactly when the counts are true. -/

/-- The derived count into `t`: all entries that are no recorded branches, if
some TB is known to fall through to `t`. -/
theorem countInto_exit
    (h : runFrom (Machine.init config tier3 sysemu arch host) evs = some (m, rs))
    (htier : 1 ≤ config.tier) (hcomplete : ∀ r ∈ rs, r.complete = true)
    (hpruned : ∀ r ∈ rs, r.emitted.dropped = []) (hlen : rs.length < 2 ^ 64)
    (hstart : UniqueStarts m) (o : ExitOrders) (t : UInt64) :
    countInto t (exitFallThroughs o m.plugin (execSum m))
      = if ((predecessors (tbMetas o m.plugin)).lookup t).isSome then
          pairCount ExecRecord.vcpu m.numVcpus (fallsInto t) rs + unobserved t rs
        else 0 := by
  have hinv := runFrom_inv h
  have hsplit := entries_split t m.numVcpus rs fun r hr => (hinv.executed r hr).2
  have hle : rs.countP (fun r => r.tr.tbMeta.startAddr = t) ≤ rs.length := List.countP_le_length
  rw [exitFallThroughs_eq, countInto_fallThroughs, branchEntries_trace h hpruned,
      count_edges_into h htier hcomplete]
  congr 1
  have hbranch : (UInt64.ofNat (pairCount ExecRecord.vcpu m.numVcpus (branchesInto t) rs)).toNat
      = pairCount ExecRecord.vcpu m.numVcpus (branchesInto t) rs := by
    rw [UInt64.toNat_ofNat']
    apply Nat.mod_eq_of_lt
    omega
  rw [hbranch]
  rcases tbMetas_at hinv hstart o t with hnil | ⟨k, e, hone, hk, he⟩
  · -- nothing was translated at `t`, so nothing was executed there
    have hzero : rs.countP (fun r => r.tr.tbMeta.startAddr = t) = 0 := by
      rw [List.countP_eq_zero]
      intro r hr hrt
      obtain ⟨e, hk, hcode⟩ := lookup_of_code (hinv.known r.tr (hinv.executed r hr).1)
      have hmem : e ∈ (tbMetas o m.plugin).filter (fun e => e.startAddr = t) := by
        rw [List.mem_filter]
        refine ⟨mem_tbMetas.mpr ⟨_, hk⟩, ?_⟩
        rw [decide_eq_true_eq] at hrt ⊢
        exact (congrArg TbCode.startAddr hcode).trans hrt
      rw [hnil] at hmem
      exact absurd hmem (List.not_mem_nil)
    rw [hnil]
    show 0 = _
    omega
  · have hexec : (execSum m e.execCount).toNat
        = rs.countP (fun r => r.tr.tbMeta.startAddr = t) := by
      have hsum := execSum_key h (code_of_lookup hk)
      have hcount : rs.countP (fun r => r.key = k)
          = rs.countP (fun r => r.tr.tbMeta.startAddr = t) := by
        apply List.countP_congr
        intro r hr
        simp only [decide_eq_true_eq]
        rw [key_eq_iff_start hinv hstart hk hr, he]
      show (execSum m (codeOf e).execCount).toNat = _
      rw [hsum, hcount, UInt64.toNat_ofNat']
      apply Nat.mod_eq_of_lt
      omega
    rw [hone, List.map_singleton, List.sum_singleton, hexec]
    omega

/-- **EXACTLY WHEN THE FALL-THROUGH COUNTS ARE TRUE.**  On a run of completed
executions with unique starts, no pruning and no counter overflow: the
emitted counts into `t` add up to the number of entries into `t` directly
after a TB that falls through to `t` iff, in case some TB falls through to
`t` at all, every entry into `t` is observed. -/
theorem fallThroughs_true_iff
    (h : runFrom (Machine.init config tier3 sysemu arch host) evs = some (m, rs))
    (htier : 1 ≤ config.tier) (hcomplete : ∀ r ∈ rs, r.complete = true)
    (hpruned : ∀ r ∈ rs, r.emitted.dropped = []) (hlen : rs.length < 2 ^ 64)
    (hstart : UniqueStarts m) (o : ExitOrders) (t : UInt64) :
    countInto t (exitFallThroughs o m.plugin (execSum m))
        = pairCount ExecRecord.vcpu m.numVcpus (fallsInto t) rs
      ↔ ((∃ tr ∈ m.translations, tr.tbMeta.fallThroughAddr = t) → Along (Observed t) rs) := by
  have hinv := runFrom_inv h
  rw [countInto_exit h htier hcomplete hpruned hlen hstart o t, ← unobserved_eq_zero,
      ← predecessor_iff hinv o t]
  by_cases hpred : ((predecessors (tbMetas o m.plugin)).lookup t).isSome = true
  · rw [if_pos hpred]
    constructor
    · intro heq _
      omega
    · intro hzero
      have := hzero hpred
      omega
  · -- no TB falls through to `t`
    have hnone : pairCount ExecRecord.vcpu m.numVcpus (fallsInto t) rs = 0 := by
      apply pairCount_eq_zero
      intro a ha b
      apply decide_eq_false
      intro hand
      obtain ⟨_, hft⟩ := hand
      exact hpred ((predecessor_iff hinv o t).mpr ⟨a.tr, (hinv.executed a ha).1, hft⟩)
    rw [if_neg hpred, hnone]
    exact ⟨fun _ hp => absurd hp hpred, fun _ => rfl⟩

/-! Block `0x14` lies right behind block `0x10`. -/

/-- The two blocks in memory order, then the first one again. -/
def sequentialEvents : List Event :=
  [.vcpuInit 0, .translate (nopBlock 0x10 0), .translate (nopBlock 0x14 0),
    .exec 0 0 1 ⟨[], 0⟩, .exec 0 1 1 ⟨[], 0⟩, .exec 0 0 1 ⟨[], 0⟩]

/-- The execution starts with the second block. -/
def startInMiddleEvents : List Event :=
  [.vcpuInit 0, .translate (nopBlock 0x14 0), .translate (nopBlock 0x10 0),
    .exec 0 0 1 ⟨[], 0⟩, .exec 0 1 1 ⟨[], 0⟩]

theorem fallThroughs_true_sequential :
    countInto 0x14 (exitFallThroughs listOrders (outcome 1 sequentialEvents).1.plugin
        (execSum (outcome 1 sequentialEvents).1))
      = pairCount ExecRecord.vcpu 1 (fallsInto 0x14) (outcome 1 sequentialEvents).2 :=
  (fallThroughs_true_iff (runFrom_outcome _ _ (by decide)) (by decide) (by decide) (by decide)
    (by decide) (by decide) listOrders 0x14).mpr (by decide)

/-- **A FALL-THROUGH THAT NEVER HAPPENED**: the first entry of the vCPU comes
out as a fall-through from a block that ran only later. -/
theorem first_entry_counted_as_fallThrough :
    exitFallThroughs listOrders (outcome 1 startInMiddleEvents).1.plugin
        (execSum (outcome 1 startInMiddleEvents).1) = [(0x10, 0x14, 1)]
      ∧ pairCount ExecRecord.vcpu 1 (fallsInto 0x14) (outcome 1 startInMiddleEvents).2 = 0
      ∧ UniqueStarts (outcome 1 startInMiddleEvents).1
      ∧ (outcome 1 startInMiddleEvents).1.translations.map (fun tr => tr.tbMeta.fallThroughAddr)
        = [0x18, 0x14]
      ∧ (outcome 1 startInMiddleEvents).2.map (fun r => (r.complete, r.emitted.dropped))
        = [(true, []), (true, [])] := by
  decide

end Runs

end QemuProfiler.Qemu

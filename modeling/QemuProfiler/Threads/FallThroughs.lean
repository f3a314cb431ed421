/-
  QemuProfiler.Threads.FallThroughs
  ─────────────────────────────────
  **DERIVED FALL-THROUGHS IN INTERLEAVED RUNS.**

  The exit handler takes for a fall-through every execution of a TB that no
  branch accounts for, so a branch that it does not know of comes out as a
  fall-through that never happened.  A flush adds its batch to
  `flushed_branch_entries` in one section and writes it in another.

    • `branchEntries_interleaved` — at any moment, what the handler knows of,
      and what is drained and not added yet, is what was recorded and not
      pruned,
    • `fallThroughs_interleaved` — so a streaming plugin derives the true
      counts also when batches got lost before the log was open.
-/
import QemuProfiler.Qemu.FallThroughTrace
import QemuProfiler.Threads.ExecCount
import QemuProfiler.Threads.RunFile

namespace QemuProfiler.Threads

open QemuProfiler.Lib QemuProfiler.Plugin QemuProfiler.Qemu QemuProfiler.Edges

/-! ## §1. Entries come from translations. -/

section Sections

variable {env : Env} {v : Nat} {m m' : Machine} {th th' : Thread} {acts : List Action}

/-- The section that enters a TB into the map has its translation at hand. -/
theorem Effect.code_made (h : Effect env v m th m' th' acts) :
    code m'.plugin = code m.plugin
      ∨ ∃ tr, th' = .laterTiers tr
        ∧ Translates m.nextScoreboard m.plugin tr.tb m'.plugin tr.instr tr.tbMeta := by
  cases h with
  | mapTb htb ht _ =>
      rw [← htb] at ht
      exact Or.inr ⟨_, rfl, ht⟩
  | quiet hm _ _ _ _ => exact Or.inl (code_congr hm.tbMap)
  | storeWriter tb =>
      obtain ⟨writer, heq⟩ := openWriter_frame m.host m.plugin
      rw [heq]
      exact Or.inl rfl
  | laterTiers tr =>
      obtain ⟨_, f, hf, _, hmap⟩ := laterTiers_spec m.plugin tr.tb
      exact Or.inl (code_modified hf hmap)
  | storeNumber key seq rest =>
      exact Or.inl (code_modified (f := fun e => { e with firstSeenSeq := seq }) (fun _ => rfl)
        fun k => HashMap.lookup_modify ..)
  | _ => exact Or.inl rfl

/-- A thread keeps the translation it made until the code cache has it. -/
theorem Effect.made_mono {s : System} (h : Effect env v s.machine (s.threads v) m' th' acts)
    {tr : Translation} (hmade : Made s tr) : Made ⟨m', Function.update s.threads v th'⟩ tr := by
  have hmono : ∀ x ∈ s.machine.translations, x ∈ m'.translations := by
    intro x hx
    rcases h.translations with heq | ⟨tr', _, heq⟩
    · rw [heq]
      exact hx
    · rw [heq]
      exact List.mem_append_left _ hx
  rcases hmade with hin | ⟨u, hu⟩
  · exact Or.inl (hmono tr hin)
  · by_cases huv : u = v
    · -- the thread hands it over
      subst huv
      rw [hu] at h
      cases h with
      | quiet _ hcalm _ _ _ => exact absurd hcalm (by simp [Thread.calm])
      | laterTiers tr => exact Or.inl (List.mem_append_right _ List.mem_cons_self)
    · exact Or.inr ⟨u, (Function.update_of_ne huv ..).trans hu⟩

end Sections

section Runs

variable {config : PluginConfig} {tier3 sysemu : Bool} {arch : String} {host : HostInfo}
  {evs : List Event} {s : System} {out : List Action}

/-- **Every entry of the map is the entry of a translation.** -/
theorem translated_run
    (h : runFrom (System.init config tier3 sysemu arch host) evs = some (s, out)) :
    ∀ k c, code s.machine.plugin k = some c →
      ∃ tr, Made s tr ∧ tr.tb.key = k ∧ codeOf tr.tbMeta = c := by
  refine runFrom_induction (fun s _ => ∀ k c, code s.machine.plugin k = some c →
      ∃ tr, Made s tr ∧ tr.tb.key = k ∧ codeOf tr.tbMeta = c) ?_ ?_ (fun _ _ hp => hp) ?_ ?_ h
  · intro k c hc
    exact absurd hc (by simp [code, System.init, Machine.init, PluginState.new])
  · intro s out v plugin _ hp hpl k c hc
    obtain ⟨i, j, rfl, _⟩ := ensureVcpuState_eq hpl
    exact hp k c hc
  · intro s out v tr rest _ hp _ _ hidle k c hc
    obtain ⟨tr, hmade, hkey⟩ := hp k c hc
    refine ⟨tr, ?_, hkey⟩
    rcases hmade with hin | ⟨u, hu⟩
    · exact Or.inl hin
    · refine Or.inr ⟨u, ?_⟩
      rw [← hu]
      apply Function.update_of_ne
      intro huv
      rw [huv, hidle] at hu
      exact absurd hu (by simp)
  · intro s out env v m' th' acts _ hp _ heff k c hc
    have hold : code s.machine.plugin k = some c →
        ∃ tr, Made ⟨m', Function.update s.threads v th'⟩ tr ∧ tr.tb.key = k
          ∧ codeOf tr.tbMeta = c := by
      intro hc
      obtain ⟨tr, hmade, hkey⟩ := hp k c hc
      exact ⟨tr, heff.made_mono hmade, hkey⟩
    rcases heff.code_made with heq | ⟨tr, hth', ht⟩
    · exact hold (heq ▸ hc)
    · rw [show code m'.plugin k = _ from ht.code_eq k] at hc
      by_cases hk : k = tr.tb.key
      · rw [if_pos hk, Option.some.injEq] at hc
        refine ⟨tr, Or.inr ⟨v, ?_⟩, hk.symm, hc⟩
        rw [← hth']
        exact Function.update_self ..
      · rw [if_neg hk] at hc
        exact hold hc

/-- At rest it is in the code cache. -/
theorem entry_translated
    (h : runFrom (System.init config tier3 sysemu arch host) evs = some (s, out))
    (hidle : ∀ v < s.machine.numVcpus, s.threads v = .idle) {k : TbKey} {e : TbMeta}
    (hk : s.machine.plugin.tbMap.lookup k = some e) :
    ∃ tr ∈ s.machine.translations, tr.tb.key = k ∧ codeOf tr.tbMeta = codeOf e
      ∧ tr.tb.vaddr = e.startAddr := by
  have hinv := runFrom_inv h
  have hc := code_of_lookup hk
  obtain ⟨tr, hmade, hkey, hcode⟩ := translated_run h k _ hc
  have hin : tr ∈ s.machine.translations := by
    rcases hmade with hin | ⟨u, hu⟩
    · exact hin
    · have hrest : s.threads u = .idle := by
        by_cases hlt : u < s.machine.numVcpus
        · exact hidle u hlt
        · exact hinv.threads u (Nat.le_of_not_lt hlt)
      rw [hrest] at hu
      exact absurd hu (by simp)
  refine ⟨tr, hin, hkey, hcode, ?_⟩
  have hstart : e.startAddr = k.startAddr := (hinv.codes.keyed k _ hc).1
  rw [hstart, ← hkey]
  rfl

/-! ## §2. Branch entries. -/

/-- The batches' counts by target. -/
theorem sumAt_intoTarget (t : UInt64) (l : List Triple) :
    sumAt t (l.map intoTarget)
      = sumWhere (fun e : Edge => decide (e.toAddr = t)) (l.map ofTriple) := by
  unfold sumAt
  rw [← sumWhere_map_fst (fun a => decide (a = t)) (fun e : Edge => e.toAddr) (l.map ofTriple),
      List.map_map]
  rfl

/-- **BRANCH ENTRIES, AT ANY MOMENT**: the exit handler knows of every
recorded branch, but for those that prunes threw away and those drained by a
thread that has not added them yet — whether they reached the log or not. -/
theorem branchEntries_interleaved
    (h : runFrom (System.init config tier3 sysemu arch host) evs = some (s, out)) (t : UInt64) :
    branchEntries s.machine.plugin t + sumAt t (s.unadded.map intoTarget)
        + sumWhere (fun e : Edge => decide (e.toAddr = t))
          (prunedEntries (notesOf (System.init config tier3 sysemu arch host) evs))
      = UInt64.ofNat ((recordedEdges
          (notesOf (System.init config tier3 sysemu arch host) evs)).countP
            fun e => decide (e.2.toAddr = t)) := by
  have hadded := (accounted_run h).added t
  rw [← HashMap.sumAt_items, sumAt_intoTarget t (drainedOf out)] at hadded
  rw [← (balance_run h).counts fun e => decide (e.toAddr = t), ← hadded]
  unfold branchEntries
  abel

/-- No thread at rest has a batch to add. -/
theorem unadded_idle (hidle : ∀ v < s.machine.numVcpus, s.threads v = .idle) : s.unadded = [] := by
  unfold System.unadded
  rw [List.flatMap_eq_nil_iff]
  intro v hv
  rw [hidle v (List.mem_range.mp hv)]
  rfl

/-- A branch into `t`. -/
theorem count_branchEdge_into (t : UInt64) (a b : ExecRecord) :
    (branchEdge (some a) b).countP (fun e => decide (e.toAddr = t))
      = if branchesInto t a b then 1 else 0 := by
  unfold branchEdge branchesInto
  dsimp only
  by_cases ht : b.tr.tbMeta.startAddr = t
  · by_cases he : a.tr.tbMeta.endAddr = 0
    · simp [ht, he]
    · by_cases hf : a.tr.tbMeta.fallThroughAddr = t
      · simp [ht, hf]
      · simp [ht, he, hf, Ne.symm hf]
  · by_cases hb : a.tr.tbMeta.endAddr ≠ 0 ∧ b.tr.tbMeta.startAddr ≠ a.tr.tbMeta.fallThroughAddr
    · simp [hb, ht]
    · simp [hb, ht]

/-! ## §3. The TB at an address. -/

/-- With unique starts at most one entry of the map starts at `t`. -/
theorem entries_at
    (h : runFrom (System.init config tier3 sysemu arch host) evs = some (s, out))
    (hidle : ∀ v < s.machine.numVcpus, s.threads v = .idle) (hstart : UniqueStarts s.machine)
    (o : ExitOrders) (t : UInt64) :
    (tbMetas o s.machine.plugin).filter (fun e => e.startAddr = t) = []
      ∨ ∃ e, (tbMetas o s.machine.plugin).filter (fun e => e.startAddr = t) = [e]
          ∧ s.machine.plugin.tbMap.lookup (metaKey e) = some e ∧ e.startAddr = t := by
  have hcodes := (runFrom_inv h).codes
  have hnodup : (((tbMetas o s.machine.plugin).filter fun e => e.startAddr = t).map
      metaKey).Nodup :=
    (nodup_metaKey hcodes o).sublist (List.filter_sublist.map _)
  have hlookup : ∀ e ∈ (tbMetas o s.machine.plugin).filter (fun e => e.startAddr = t),
      s.machine.plugin.tbMap.lookup (metaKey e) = some e ∧ e.startAddr = t := by
    intro e he
    obtain ⟨hmem, ht⟩ := List.mem_filter.mp he
    exact ⟨lookup_metaKey hcodes hmem, of_decide_eq_true ht⟩
  generalize (tbMetas o s.machine.plugin).filter (fun e => e.startAddr = t) = l
    at hnodup hlookup
  cases l with
  | nil => exact Or.inl rfl
  | cons e l =>
      have he := hlookup e List.mem_cons_self
      refine Or.inr ⟨e, ?_, he⟩
      cases l with
      | nil => rfl
      | cons e' l =>
          -- two entries at one start: their keys would be the same
          have he' := hlookup e' (List.mem_cons_of_mem e List.mem_cons_self)
          obtain ⟨tr, htr, hkey, _, hvaddr⟩ := entry_translated h hidle he.1
          obtain ⟨tr', htr', hkey', _, hvaddr'⟩ := entry_translated h hidle he'.1
          have hsame := hstart tr htr tr' htr' (by rw [hvaddr, hvaddr', he.2, he'.2])
          rw [hkey, hkey'] at hsame
          rw [List.map_cons, List.map_cons, hsame] at hnodup
          exact absurd List.mem_cons_self (List.nodup_cons.mp hnodup).1

/-- The start address of an executed block is that of its key. -/
theorem startAddr_executed
    (h : runFrom (System.init config tier3 sysemu arch host) evs = some (s, out)) :
    ∀ e ∈ executionsOf out, e.2.tbMeta.startAddr = e.2.tb.vaddr := by
  intro e he
  exact ((ready_run h).instrumented e.2 (Or.inl ((runFrom_inv h).executed e he).1)).start

/-- The executions at `t`, on the scoreboard of the TB there. -/
theorem execSum_at
    (h : runFrom (System.init config tier3 sysemu arch host) evs = some (s, out))
    (hidle : ∀ v < s.machine.numVcpus, s.threads v = .idle) (hstart : UniqueStarts s.machine)
    {e : TbMeta} (he : s.machine.plugin.tbMap.lookup (metaKey e) = some e) :
    execSum s.machine e.execCount
      = UInt64.ofNat ((executionsOf out).countP fun x =>
          x.2.tbMeta.startAddr = e.startAddr) := by
  have hinv := runFrom_inv h
  obtain ⟨tr, htr, hkey, _, hvaddr⟩ := entry_translated h hidle he
  have hsum : execSum s.machine e.execCount = _ := execSum_key h (code_of_lookup he)
  rw [hsum]
  congr 1
  apply List.countP_congr
  intro x hx
  simp only [decide_eq_true_eq]
  rw [startAddr_executed h x hx, ← hvaddr, ← hkey]
  constructor
  · intro heq
    exact congrArg TbKey.startAddr heq
  · intro heq
    exact hstart x.2 (hinv.executed x hx).1 tr htr heq

/-- **The executions above `b` at `t`**, over the entries that start there. -/
theorem sum_entries_at
    (h : runFrom (System.init config tier3 sysemu arch host) evs = some (s, out))
    (hidle : ∀ v < s.machine.numVcpus, s.threads v = .idle) (hstart : UniqueStarts s.machine)
    (hlen : (executionsOf out).length < 2 ^ 64) (o : ExitOrders) (t : UInt64) (b : Nat) :
    (((tbMetas o s.machine.plugin).filter fun e => e.startAddr = t).map fun e =>
        (execSum s.machine e.execCount).toNat - b).sum
      = (executionsOf out).countP (fun x => x.2.tbMeta.startAddr = t) - b := by
  rcases entries_at h hidle hstart o t with hnil | ⟨e, hone, hk, he⟩
  · -- nothing was translated at `t`, so nothing was executed there
    have hzero : (executionsOf out).countP (fun x => x.2.tbMeta.startAddr = t) = 0 := by
      rw [List.countP_eq_zero]
      intro x hx hxt
      have hinv := runFrom_inv h
      obtain ⟨e, hk, hcode⟩ := lookup_of_code (hinv.known x.2 (Or.inl (hinv.executed x hx).1))
      have hmem : e ∈ (tbMetas o s.machine.plugin).filter (fun e => e.startAddr = t) := by
        rw [List.mem_filter]
        refine ⟨mem_tbMetas.mpr ⟨_, hk⟩, ?_⟩
        rw [decide_eq_true_eq] at hxt ⊢
        exact (congrArg TbCode.startAddr hcode).trans hxt
      rw [hnil] at hmem
      exact absurd hmem List.not_mem_nil
    rw [hnil, hzero]
    show 0 = _
    omega
  · have hle : (executionsOf out).countP (fun x => x.2.tbMeta.startAddr = t)
        ≤ (executionsOf out).length := List.countP_le_length
    rw [hone, List.map_singleton, List.sum_singleton, execSum_at h hidle hstart hk, he,
        UInt64.toNat_ofNat', Nat.mod_eq_of_lt (by omega)]

/-- A TB known to fall through to `t` is one that was translated. -/
theorem predecessor_translated
    (h : runFrom (System.init config tier3 sysemu arch host) evs = some (s, out))
    (hidle : ∀ v < s.machine.numVcpus, s.threads v = .idle) (o : ExitOrders) (t : UInt64) :
    ((predecessors (tbMetas o s.machine.plugin)).lookup t).isSome = true
      ↔ ∃ tr ∈ s.machine.translations, tr.tbMeta.fallThroughAddr = t := by
  rw [predecessors_isSome]
  constructor
  · intro hex
    obtain ⟨e, he, hft⟩ := hex
    obtain ⟨k, hk⟩ := mem_tbMetas.mp he
    obtain ⟨tr, htr, _, hcode, _⟩ := entry_translated h hidle hk
    exact ⟨tr, htr, (congrArg TbCode.fallThroughAddr hcode).trans hft⟩
  · intro hex
    obtain ⟨tr, htr, hft⟩ := hex
    obtain ⟨e, hk, hcode⟩ := lookup_of_code ((runFrom_inv h).known tr (Or.inl htr))
    exact ⟨e, mem_tbMetas.mpr ⟨_, hk⟩, (congrArg TbCode.fallThroughAddr hcode).trans hft⟩

/-! ## §4. The derived counts. -/

/-- Entries of the trace, counted on the executions of the run. -/
theorem countP_entriesOf
    (h : runFrom (System.init config tier3 sysemu arch host) evs = some (s, out)) (t : UInt64) :
    (entriesOf (notesOf (System.init config tier3 sysemu arch host) evs)).countP
        (fun r => r.tr.tbMeta.startAddr = t)
      = (executionsOf out).countP fun x => x.2.tbMeta.startAddr = t := by
  rw [← entriesOf_run h, List.countP_map]
  rfl

theorem vcpu_entriesOf
    (h : runFrom (System.init config tier3 sysemu arch host) evs = some (s, out)) :
    ∀ r ∈ entriesOf (notesOf (System.init config tier3 sysemu arch host) evs),
      r.vcpu < s.machine.numVcpus := by
  intro r hr
  have hin : (r.vcpu, r.tr) ∈ executionsOf out := by
    rw [← entriesOf_run h]
    exact List.mem_map.mpr ⟨r, hr, rfl⟩
  exact ((runFrom_inv h).executed _ hin).2

/-- **FALL-THROUGHS IN EVERY INTERLEAVING.**  A streaming plugin that exits
with no callback under way, after executions that all completed, with unique
starts and no counter overflow, derives as the number of fall-throughs into
`t` (if a TB falls through to `t` at all) the true number plus the entries
whose way in was not observed — also when flushed batches were lost because
the log was not open yet: their branches are subtracted all the same. -/
theorem fallThroughs_interleaved
    (h : runFrom (System.init config tier3 sysemu arch host) evs = some (s, out))
    (htier : 1 ≤ config.tier) (hstreaming : config.streaming = true)
    (hidle : ∀ v < s.machine.numVcpus, s.threads v = .idle)
    (hcomplete : ∀ r ∈ entriesOf (notesOf (System.init config tier3 sysemu arch host) evs),
      r.complete = true)
    (hlen : (executionsOf out).length < 2 ^ 64) (hstart : UniqueStarts s.machine)
    (o : ExitOrders) (t : UInt64) :
    ((∃ tr ∈ s.machine.translations, tr.tbMeta.fallThroughAddr = t) →
        countInto t (exitFallThroughs o s.machine.plugin (execSum s.machine))
          = pairCount ExecRecord.vcpu s.machine.numVcpus (fallsInto t)
              (entriesOf (notesOf (System.init config tier3 sysemu arch host) evs))
            + unobserved t (entriesOf (notesOf (System.init config tier3 sysemu arch host) evs)))
      ∧ ((¬ ∃ tr ∈ s.machine.translations, tr.tbMeta.fallThroughAddr = t) →
        countInto t (exitFallThroughs o s.machine.plugin (execSum s.machine)) = 0
          ∧ pairCount ExecRecord.vcpu s.machine.numVcpus (fallsInto t)
              (entriesOf (notesOf (System.init config tier3 sysemu arch host) evs)) = 0) := by
  have hcount := countInto_fallThroughs t (branchEntries s.machine.plugin)
    (predecessors (tbMetas o s.machine.plugin)) (execSum s.machine) (tbMetas o s.machine.plugin)
  rw [← exitFallThroughs_eq, sum_entries_at h hidle hstart hlen o t] at hcount
  constructor
  · intro hfalls
    have hentries := branchEntries_interleaved h t
    rw [unadded_idle hidle, pruned_streaming h hstreaming, List.map_nil, sumWhere_nil, add_zero,
        countP_recordedEdges_pairs h htier hidle hcomplete (fun e => decide (e.toAddr = t))
          (branchesInto t) (count_branchEdge_into t)] at hentries
    -- an entry into `t` is a branch, a fall-through or unobserved
    have hsplit := entries_split t s.machine.numVcpus _ (vcpu_entriesOf h)
    rw [countP_entriesOf h] at hsplit
    have hle : (executionsOf out).countP (fun x => x.2.tbMeta.startAddr = t)
        ≤ (executionsOf out).length := List.countP_le_length
    have hbranch : (branchEntries s.machine.plugin t).toNat
        = pairCount ExecRecord.vcpu s.machine.numVcpus (branchesInto t)
            (entriesOf (notesOf (System.init config tier3 sysemu arch host) evs)) := by
      rw [← add_zero (branchEntries s.machine.plugin t), show (0 : UInt64) = sumAt t [] from rfl,
          hentries, UInt64.toNat_ofNat']
      exact Nat.mod_eq_of_lt (by omega)
    rw [hcount, if_pos ((predecessor_translated h hidle o t).mpr hfalls), hbranch]
    omega
  · intro hfalls
    refine ⟨?_, ?_⟩
    · rw [hcount, if_neg fun hpred => hfalls ((predecessor_translated h hidle o t).mp hpred)]
    -- whoever fell into `t` ran a translation that falls through to it
    · apply pairCount_eq_zero
      intro a ha b
      apply decide_eq_false
      intro hand
      have hin : (a.vcpu, a.tr) ∈ executionsOf out := by
        rw [← entriesOf_run h]
        exact List.mem_map.mpr ⟨a, ha, rfl⟩
      exact hfalls ⟨a.tr, ((runFrom_inv h).executed _ hin).1, hand.2⟩

end Runs

/-- Block `0x10` lies right behind block `0x0c`, and is entered by a branch from
`0x40` while thread 0 has won the exchange and not stored the writer. -/
def lostBranchEvents : List Event :=
  [.vcpuInit 0, .vcpuInit 1, .translate 0 (nopBlock 0x0c 0)] ++ sections 0 2
    ++ [.translate 1 (nopBlock 0x40 0)] ++ sections 1 4
    ++ [.translate 1 (nopBlock 0x10 0)] ++ sections 1 4
    ++ [.exec 1 0 1 ⟨[], 0⟩] ++ sections 1 6 ++ [.exec 1 1 1 ⟨[], 0⟩] ++ sections 1 9
    ++ sections 0 4

theorem fallThroughs_lost_branch :
    lostOf (outcome (installed 1 1 true) lostBranchEvents).2 = [(0x40, 0x10, 1)]
      ∧ countInto 0x10 (exitFallThroughs listOrders
          (outcome (installed 1 1 true) lostBranchEvents).1.machine.plugin
          (execSum (outcome (installed 1 1 true) lostBranchEvents).1.machine)) = 0 := by
  have hidle : ∀ v < 2,
      ((outcome (installed 1 1 true) lostBranchEvents).1.threads v).isIdle = true := by decide
  refine ⟨by decide, ?_⟩
  have hcounts := (fallThroughs_interleaved (runFrom_outcome _ _ (by decide)) (by decide) rfl
    (fun v hv => Thread.eq_idle (hidle v hv)) (by decide) (by decide) (by decide) listOrders
    0x10).1 (by decide)
  exact hcounts.trans (by decide)

end QemuProfiler.Threads

/-
  QemuProfiler.Threads.ExecCount
  ──────────────────────────────
  **NO EXECUTION IS LOST OR COUNTED TWICE** (tier 0), whatever is translated
  again, flushed or translated by several threads at once.

    • a slot holds the number of executions that ticked it (`execCounts_run`),
    • every translation of a key ticks the key's one scoreboard
      (`execSum_key`),
    • so a reader of the log finds the number of executions of every TB, and
      their total in the footer (`exec_counts_exact`).
-/
import QemuProfiler.Qemu.ExecCount
import QemuProfiler.Threads.Log

namespace QemuProfiler.Threads

open QemuProfiler.Lib QemuProfiler.Plugin QemuProfiler.Qemu QemuProfiler.Edges QemuProfiler.Format
open QemuProfiler.Convert hiding fileMagic FileHeader

section Runs

variable {config : PluginConfig} {tier3 sysemu : Bool} {arch : String} {host : HostInfo}
  {evs : List Event} {s : System} {out : List Action}

/-! ## §1. Scoreboards. -/

/-- A slot holds the number of executions that ticked it. -/
theorem execCounts_run
    (h : runFrom (System.init config tier3 sysemu arch host) evs = some (s, out)) (sb v : Nat) :
    s.machine.execCounts sb v
      = UInt64.ofNat ((ofParty Prod.fst v (executionsOf out)).countP
          fun e => e.2.tbMeta.execCount = sb) := by
  refine runFrom_induction (fun s out => s.machine.execCounts sb v
      = UInt64.ofNat ((ofParty Prod.fst v (executionsOf out)).countP
          fun e => e.2.tbMeta.execCount = sb))
    rfl (fun _ _ _ _ _ hp _ => hp) (fun _ _ hp => hp) ?_ ?_ h
  · -- entering a translation ticks one slot of one scoreboard
    intro s out w tr rest _ hp _ _ _
    show ticked s.machine.execCounts tr.tbMeta.execCount w sb v = _
    rw [ticked_apply, hp, executionsOf_append]
    show _ = UInt64.ofNat ((ofParty Prod.fst v (executionsOf out ++ [(w, tr)])).countP _)
    rw [ofParty_concat]
    by_cases hv : w = v
    · rw [if_pos hv, List.countP_append, List.countP_singleton, UInt64.ofNat_add]
      by_cases hsb : tr.tbMeta.execCount = sb
      · simp [hv, hsb]
      · simp [hsb, Ne.symm hsb]
    · rw [if_neg hv, List.append_nil, if_neg (fun h => hv h.2.symm), add_zero]
  · intro s out env w m' th' acts _ hp _ heff
    obtain ⟨_, _, _, hcounts, hexec⟩ := heff.frame
    show m'.execCounts sb v = _
    rw [hcounts, hp, executionsOf_append, hexec, List.append_nil]

/-- The sum of a scoreboard is the number of executions that ticked it. -/
theorem execSum_run
    (h : runFrom (System.init config tier3 sysemu arch host) evs = some (s, out)) (sb : Nat) :
    execSum s.machine sb
      = UInt64.ofNat ((executionsOf out).countP fun e => e.2.tbMeta.execCount = sb) := by
  unfold execSum
  rw [List.map_congr_left fun v _ => execCounts_run h sb v, sum_map_ofNat]
  congr 1
  exact sum_countP_parties Prod.fst s.machine.numVcpus _ (executionsOf out)
    fun e he => ((runFrom_inv h).executed e he).2

/-- **All translations of a key tick its one scoreboard.** -/
theorem execSum_key
    (h : runFrom (System.init config tier3 sysemu arch host) evs = some (s, out)) {k : TbKey}
    {c : TbCode} (hc : code s.machine.plugin k = some c) :
    execSum s.machine c.execCount
      = UInt64.ofNat ((executionsOf out).countP fun e => e.2.tb.key = k) := by
  have hinv := runFrom_inv h
  rw [execSum_run h]
  congr 1
  apply List.countP_congr
  intro e he
  have hknown := hinv.known e.2 (Or.inl (hinv.executed e he).1)
  simp only [decide_eq_true_eq]
  constructor
  · intro heq
    exact hinv.codes.distinct _ _ _ _ hknown hc heq
  · intro heq
    rw [heq, hc, Option.some.injEq] at hknown
    rw [hknown]
    rfl

/-- **A scoreboard, once created, is never replaced.** -/
theorem code_runSteps
    (h : runFrom (System.init config tier3 sysemu arch host) evs = some (s, out))
    {evs' : List Event} {s' : System} {out' : List Action} (h' : runFrom s evs' = some (s', out'))
    {k : TbKey} {c : TbCode} (hc : code s.machine.plugin k = some c) :
    code s'.machine.plugin k = some c := by
  have hrun := runSteps_invariant step
    (fun s out => Inv s out ∧ code s.machine.plugin k = some c) ?_ evs' s out s' out'
    ⟨runFrom_inv h, hc⟩ h'
  · exact hrun.2
  · intro s out e s' acts hp hstep
    obtain ⟨hinv, hc⟩ := hp
    refine ⟨hinv.step hstep, ?_⟩
    rcases step_cases hinv hstep with ⟨v, plugin, _, hpl, rfl, rfl⟩ | ⟨_, rfl, rfl⟩
      | ⟨v, _, _, _, tr, rest, _, _, _, _, _, rfl, rfl⟩ | ⟨env, v, m', th', _, _, heff, rfl⟩
    · obtain ⟨i, j, heq, _⟩ := ensureVcpuState_eq hpl
      rw [heq]
      exact hc
    · exact hc
    · exact hc
    · exact heff.code_mono hc

/-! ## §2. The entries. -/

/-- The key an entry belongs to. -/
def metaKey (e : TbMeta) : TbKey := ⟨e.startAddr, e.nInsns⟩

theorem metaKey_eq {s : PluginState} {next : Nat} (hcodes : CodesApart s next) {k : TbKey}
    {e : TbMeta} (h : s.tbMap.lookup k = some e) : metaKey e = k := by
  obtain ⟨hstart, hinsns, _⟩ := hcodes.keyed k (codeOf e) (code_of_lookup h)
  obtain ⟨start, insns⟩ := k
  exact TbKey.mk.injEq .. ▸ ⟨hstart, hinsns⟩

/-- The exit handler visits every key once. -/
theorem map_metaKey_tbMetas {s : PluginState} {next : Nat} (hcodes : CodesApart s next)
    (o : ExitOrders) : (tbMetas o s).map metaKey = (s.tbMap.iter o.tbMap).map Prod.fst := by
  unfold tbMetas
  rw [List.map_map]
  apply List.map_congr_left
  intro e he
  exact metaKey_eq hcodes (HashMap.mem_iter.mp he)

theorem nodup_metaKey {s : PluginState} {next : Nat} (hcodes : CodesApart s next)
    (o : ExitOrders) : ((tbMetas o s).map metaKey).Nodup := by
  rw [map_metaKey_tbMetas hcodes]
  exact HashMap.iter_nodup o.tbMap s.tbMap

theorem lookup_metaKey {s : PluginState} {next : Nat} (hcodes : CodesApart s next)
    {o : ExitOrders} {e : TbMeta} (he : e ∈ tbMetas o s) :
    s.tbMap.lookup (metaKey e) = some e := by
  obtain ⟨⟨k, e'⟩, hmem, rfl⟩ := List.mem_map.mp he
  have hlook := HashMap.mem_iter.mp hmem
  rw [metaKey_eq hcodes hlook]
  exact hlook

/-- Every execution is of a key with an entry. -/
theorem executed_metaKey
    (h : runFrom (System.init config tier3 sysemu arch host) evs = some (s, out))
    (o : ExitOrders) : ∀ e ∈ executionsOf out,
      e.2.tb.key ∈ (tbMetas o s.machine.plugin).map metaKey := by
  intro e he
  have hinv := runFrom_inv h
  obtain ⟨tbMeta, hlook, _⟩ := lookup_of_code (hinv.known e.2 (Or.inl (hinv.executed e he).1))
  rw [map_metaKey_tbMetas hinv.codes]
  exact List.mem_map.mpr ⟨(_, tbMeta), HashMap.mem_iter.mpr hlook, rfl⟩

/-- The exec counts of the entries add up to the number of executions. -/
theorem sum_execSum
    (h : runFrom (System.init config tier3 sysemu arch host) evs = some (s, out))
    (o : ExitOrders) :
    ((tbMetas o s.machine.plugin).map fun e => execSum s.machine e.execCount).sum
      = UInt64.ofNat (executionsOf out).length := by
  have hcodes := (runFrom_inv h).codes
  have hcount : ∀ e ∈ tbMetas o s.machine.plugin, execSum s.machine e.execCount
      = UInt64.ofNat ((executionsOf out).countP fun x => x.2.tb.key = metaKey e) := by
    intro e he
    exact execSum_key h (code_of_lookup (lookup_metaKey hcodes he))
  rw [List.map_congr_left hcount, sum_map_ofNat, ← sum_countP_keys
    (fun x : Nat × Translation => x.2.tb.key) (nodup_metaKey hcodes o) _ (executed_metaKey h o),
    List.map_map]
  rfl

/-! ## §3. What a reader finds. -/

/-- **The counts of a run**: one record per TB with its number of executions,
and their total in the footer, both modulo the word size. -/
structure CountsExecutions (execs : List (Nat × Translation)) (p : Profile) : Prop where
  nodup : (p.tbExecs.map fun tb => (⟨tb.startAddr, tb.nInsns⟩ : TbKey)).Nodup
  counts : ∀ tb ∈ p.tbExecs, tb.execCount
    = UInt64.ofNat (execs.countP fun e => e.2.tb.key = ⟨tb.startAddr, tb.nInsns⟩)
  complete : ∀ e ∈ execs,
    e.2.tb.key ∈ p.tbExecs.map fun tb => (⟨tb.startAddr, tb.nInsns⟩ : TbKey)
  total : ∃ f, p.footer = some f ∧ f.totalExecCount = UInt64.ofNat execs.length

theorem countsExecutions_exit
    (h : runFrom (System.init config tier3 sysemu arch host) evs = some (s, out))
    {o : ExitOrders} {written : List (Edge × UInt64)} {p : Profile}
    (hp : ExitProfile o s.machine.plugin (execSum s.machine) written p) :
    CountsExecutions (executionsOf out) p := by
  have hcodes := (runFrom_inv h).codes
  have hkeys : (p.tbExecs.map fun tb => (⟨tb.startAddr, tb.nInsns⟩ : TbKey))
      = (tbMetas o s.machine.plugin).map metaKey := by
    rw [hp.tbExecs, exitTbEntries, List.map_map, List.map_map]
    rfl
  constructor
  · rw [hkeys]
    exact nodup_metaKey hcodes o
  · intro tb htb
    rw [hp.tbExecs, exitTbEntries, List.map_map] at htb
    obtain ⟨e, he, rfl⟩ := List.mem_map.mp htb
    exact execSum_key h (code_of_lookup (lookup_metaKey hcodes he))
  · rw [hkeys]
    exact executed_metaKey h o
  · obtain ⟨f, hf, _, htotal⟩ := hp.footer
    refine ⟨f, hf, ?_⟩
    rw [htotal, exitTbEntries, List.map_map]
    exact sum_execSum h o

/-- The exit handler finds a log, unless it could not be opened or a thread is
still opening it. -/
theorem exists_writer
    (h : runFrom (System.init config tier3 sysemu arch host) evs = some (s, out))
    (hopen : s.machine.host.outputOpens = true) (hexec : executionsOf out ≠ [])
    (hcalm : ∀ v < s.machine.numVcpus, (s.threads v).opening = false) :
    ∃ w, s.machine.plugin.writer = some w := by
  have hinv := runFrom_inv h
  obtain ⟨e, he⟩ := List.exists_mem_of_ne_nil _ hexec
  have hflag := (runFrom_flagged h).translations (List.ne_nil_of_mem (hinv.executed e he).1)
  cases hw : s.machine.plugin.writer with
  | some w => exact ⟨w, rfl⟩
  | none =>
      obtain ⟨v, hv⟩ := (runFrom_writerInv h).claimed hflag hopen hw
      by_cases hlt : v < s.machine.numVcpus
      · exact absurd hv (by rw [hcalm v hlt]; simp)
      · rw [hinv.threads v (by omega)] at hv
        exact absurd hv (by simp [Thread.opening])

/-- **EXEC COUNTS ARE EXACT.**  In every interleaving there is one entry per
TB, its scoreboard is never replaced, and the log written at exit counts the
executions of every TB on all vCPUs and in all its translations. -/
theorem exec_counts_exact
    (h : runFrom (System.init config tier3 sysemu arch host) evs = some (s, out)) :
    (∀ o, ((tbMetas o s.machine.plugin).map metaKey).Nodup)
      ∧ (∀ evs' s' out', runFrom s evs' = some (s', out') →
          ∀ k e, s.machine.plugin.tbMap.lookup k = some e →
            ∃ e', s'.machine.plugin.tbMap.lookup k = some e' ∧ e'.execCount = e.execCount)
      ∧ (∀ o w, pluginExit o s.machine.plugin (execSum s.machine) = some w → ∀ ρb ρf,
          ∃ p, parse ρb ρf w.writer = .ok p ∧ CountsExecutions (executionsOf out) p)
      ∧ (s.machine.host.outputOpens = true → executionsOf out ≠ [] →
          (∀ v < s.machine.numVcpus, (s.threads v).opening = false) →
          ∀ o, ∃ w, pluginExit o s.machine.plugin (execSum s.machine) = some w) := by
  refine ⟨fun o => nodup_metaKey (runFrom_inv h).codes o, ?_, ?_, ?_⟩
  · intro evs' s' out' h' k e he
    obtain ⟨e', he', hcode⟩ := lookup_of_code (code_runSteps h h' (code_of_lookup he))
    exact ⟨e', he', congrArg TbCode.execCount hcode⟩
  · intro o w hexit ρb ρf
    obtain ⟨p, hparse, hp⟩ := exitProfile_run h hexit ρb ρf
    exact ⟨p, hparse, countsExecutions_exit h hp⟩
  · intro hopen hexec hcalm o
    obtain ⟨w, hw⟩ := exists_writer h hopen hexec hcalm
    exact ⟨_, by rw [pluginExit, hw]; rfl⟩

end Runs

/-- Two threads translate the same block at the same time; one executes it,
the code cache is flushed, and the other one translates and executes it again. -/
def retranslationEvents : List Event :=
  [.vcpuInit 0, .vcpuInit 1, .translate 0 (nopBlock 0x10 0), .translate 1 (nopBlock 0x10 0)]
    ++ sections 0 5 ++ sections 1 4 ++ [.exec 1 0 1 ⟨[], 0⟩] ++ sections 0 1 ++ sections 1 4
    ++ [.flush, .translate 0 (nopBlock 0x10 0)] ++ sections 0 4 ++ [.exec 0 2 1 ⟨[], 0⟩]

theorem exec_counts_retranslation :
    (executionsOf (outcome (installed 1 65536 false) retranslationEvents).2).length = 2
      ∧ ∃ w p f, pluginExit listOrders
          (outcome (installed 1 65536 false) retranslationEvents).1.machine.plugin
          (execSum (outcome (installed 1 65536 false) retranslationEvents).1.machine) = some w
        ∧ parse [] [] w.writer = .ok p ∧ p.footer = some f ∧ f.totalExecCount = 2 := by
  have hlen : (executionsOf (outcome (installed 1 65536 false) retranslationEvents).2).length = 2 := by
    decide
  obtain ⟨_, _, hcounts, hexit⟩ :=
    exec_counts_exact (runFrom_outcome (installed 1 65536 false) retranslationEvents (by decide))
  obtain ⟨w, hw⟩ := hexit (by decide) (by decide) (by decide) listOrders
  obtain ⟨p, hp, hc⟩ := hcounts listOrders w hw [] []
  obtain ⟨f, hf, htotal⟩ := hc.total
  rw [hlen] at htotal
  exact ⟨hlen, w, p, f, hw, hp, hf, htotal⟩

end QemuProfiler.Threads

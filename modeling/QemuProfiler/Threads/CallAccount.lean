/-
  QemuProfiler.Threads.CallAccount
  ────────────────────────────────
  **WHERE EVERY RECORDED CALL IS**, at any moment of an interleaved run: the
  call maps have every pair that `record_indirect_call` was called with, and
  no other, with the number of its calls (`callBalance_run`).
-/
import QemuProfiler.Threads.Account

namespace QemuProfiler.Threads

open QemuProfiler.Lib QemuProfiler.Plugin QemuProfiler.Qemu QemuProfiler.Edges

/-! ## §1. The pairs in the maps. -/

/-- The map has an entry for the callsite and the target. -/
def mapHas (cs tgt : UInt64) (vcpuMap : HashMap UInt64 (HashMap UInt64 UInt64)) : Bool :=
  (vcpuMap.lookup cs).any fun targets => (targets.lookup tgt).isSome

/-- Some vCPU's map has it. -/
def called (s : PluginState) (cs tgt : UInt64) : Bool := s.indirectCalls.any (mapHas cs tgt)

theorem mapHas_insert (vcpuMap : HashMap UInt64 (HashMap UInt64 UInt64)) (c t cs tgt : UInt64) :
    mapHas cs tgt (vcpuMap.insert c (((vcpuMap.lookup c).getD ∅).bump t 1))
      = (mapHas cs tgt vcpuMap || decide ((c, t) = (cs, tgt))) := by
  unfold mapHas
  by_cases hc : cs = c
  · subst hc
    rw [AList.lookup_insert, Option.any_some, HashMap.lookup_bump]
    by_cases ht : tgt = t
    · subst ht
      simp
    · rw [if_neg ht]
      cases vcpuMap.lookup cs with
      | none => simp [Ne.symm ht]
      | some targets => simp [Ne.symm ht]
  · rw [AList.lookup_insert_ne hc]
    simp [Ne.symm hc]

/-- **One recorded call adds its pair.** -/
theorem called_recordIndirectCall (s : PluginState) {v : Nat} (hv : v < s.indirectCalls.length)
    (c t cs tgt : UInt64) :
    called (s.recordIndirectCall v c t) cs tgt
      = (called s cs tgt || decide ((c, t) = (cs, tgt))) := by
  have hget : s.indirectCalls[v]? = some s.indirectCalls[v] := List.getElem?_eq_getElem hv
  have hsplit : s.indirectCalls
      = s.indirectCalls.take v ++ s.indirectCalls[v] :: s.indirectCalls.drop (v + 1) := by
    rw [← List.drop_eq_getElem_cons, List.take_append_drop]
  unfold called PluginState.recordIndirectCall
  rw [hget]
  dsimp only
  conv_rhs => rw [hsplit]
  rw [List.set_eq_take_append_cons_drop, if_pos hv, List.any_append, List.any_append,
      List.any_cons, List.any_cons, mapHas_insert]
  cases (s.indirectCalls.take v).any (mapHas cs tgt) <;>
    cases mapHas cs tgt s.indirectCalls[v] <;>
    cases (s.indirectCalls.drop (v + 1)).any (mapHas cs tgt) <;> simp

/-! ## §2. The balance. -/

/-- **A section records one call or none.** -/
theorem advance_calls (env : Env) (v : Nat) (m : Machine) (th : Thread) :
    (th.callsNow v m = []
        ∧ (advance env v m th).1.plugin.indirectCalls = m.plugin.indirectCalls)
      ∨ ∃ c, th.callsNow v m = [c] ∧ 2 ≤ m.plugin.config.tier
        ∧ (advance env v m th).1.plugin.indirectCalls
          = (m.plugin.recordIndirectCall v c.1 c.2).indirectCalls := by
  cases th with
  | exchangeFlag tb =>
      left
      unfold advance
      dsimp only
      split <;> exact ⟨rfl, rfl⟩
  | storeWriter tb =>
      obtain ⟨writer, heq⟩ := openWriter_frame m.host m.plugin
      refine Or.inl ⟨rfl, ?_⟩
      show (openWriter m.host m.plugin).indirectCalls = _
      rw [heq]
  | internSymbol tb => exact Or.inl ⟨rfl, (symbolOf_same m.plugin tb).1.indirectCalls⟩
  | mapTb tb symId =>
      exact Or.inl ⟨rfl, (mapSection_spec symId m.nextScoreboard m.plugin tb).same.indirectCalls⟩
  | laterTiers tr => exact Or.inl ⟨rfl, (laterTiers_spec m.plugin tr.tb).1.indirectCalls⟩
  | pendingCall toAddr rest =>
      show (callAt v m toAddr = [] ∧ _) ∨ ∃ c, callAt v m toAddr = [c] ∧ _
      unfold advance callAt
      dsimp only
      by_cases hcall : m.plugin.config.tier ≥ 2 ∧ (m.vcpus v).pendingIndirectCallsite ≠ 0
      · rw [if_pos hcall, if_pos hcall]
        exact Or.inr ⟨_, rfl, hcall.1, rfl⟩
      · rw [if_neg hcall, if_neg hcall]
        exact Or.inl ⟨rfl, rfl⟩
  | ops rest =>
      refine Or.inl ⟨by cases rest <;> rfl, ?_⟩
      cases rest with
      | nil => rfl
      | cons op rest =>
          obtain ⟨accs, n, heq, _⟩ := runOp_frame env v m rest op
          show (runOp env v m rest op).1.plugin.indirectCalls = _
          rw [heq]
  | _ => exact Or.inl ⟨rfl, rfl⟩

/-- **THE BALANCE** of recorded calls. -/
structure CallBalance (s : System) (notes : List Note) : Prop where
  counts : ∀ cs tgt, callCount s.machine.plugin cs tgt
    = UInt64.ofNat ((recordedCalls notes).countP fun e => decide (e.2 = (cs, tgt)))
  keys : ∀ cs tgt, called s.machine.plugin cs tgt = true
    ↔ (cs, tgt) ∈ (recordedCalls notes).map Prod.snd
  vcpus : ∀ e ∈ recordedCalls notes, e.1 < s.machine.numVcpus

section Steps

variable {s s' : System} {notes notes' : List Note}

theorem CallBalance.same (h : CallBalance s notes)
    (hcalls : ∀ cs tgt, callCount s'.machine.plugin cs tgt = callCount s.machine.plugin cs tgt
      ∧ called s'.machine.plugin cs tgt = called s.machine.plugin cs tgt)
    (hnotes : recordedCalls notes' = []) (hn : s.machine.numVcpus ≤ s'.machine.numVcpus) :
    CallBalance s' (notes ++ notes') := by
  refine ⟨?_, ?_, ?_⟩
  · intro cs tgt
    rw [(hcalls cs tgt).1, recordedCalls_append, hnotes, List.append_nil]
    exact h.counts cs tgt
  · intro cs tgt
    rw [(hcalls cs tgt).2, recordedCalls_append, hnotes, List.append_nil]
    exact h.keys cs tgt
  · intro e he
    rw [recordedCalls_append, hnotes, List.append_nil] at he
    exact lt_of_lt_of_le (h.vcpus e he) hn

theorem calls_congr {p p' : PluginState} (h : p'.indirectCalls = p.indirectCalls)
    (cs tgt : UInt64) :
    callCount p' cs tgt = callCount p cs tgt ∧ called p' cs tgt = called p cs tgt := by
  unfold callCount called
  rw [h]
  exact ⟨rfl, rfl⟩

/-- **A section keeps the balance.** -/
theorem CallBalance.run (h : CallBalance s notes) {v : Nat} (env : Env)
    (hv : v < s.machine.numVcpus)
    (hslots : 2 ≤ s.machine.plugin.config.tier →
      s.machine.numVcpus ≤ s.machine.plugin.indirectCalls.length)
    (hn : s.machine.numVcpus ≤ (afterRun env v s).machine.numVcpus) :
    CallBalance (afterRun env v s) (notes ++ sectionNotes env v s.machine (s.threads v)) := by
  rcases advance_calls env v s.machine (s.threads v) with ⟨hnone, hcalls⟩
    | ⟨⟨c, t⟩, hone, htier, hcalls⟩
  · refine h.same (calls_congr hcalls) ?_ hn
    rw [recordedCalls_section, hnone]
    rfl
  · have hlen := lt_of_lt_of_le hv (hslots htier)
    have hcalls : (afterRun env v s).machine.plugin.indirectCalls
        = (s.machine.plugin.recordIndirectCall v c t).indirectCalls := hcalls
    have hnotes : recordedCalls (sectionNotes env v s.machine (s.threads v)) = [(v, (c, t))] := by
      rw [recordedCalls_section, hone]
      rfl
    refine ⟨?_, ?_, ?_⟩
    · intro cs tgt
      rw [(calls_congr hcalls cs tgt).1, callCount_recordIndirectCall _ hlen, h.counts,
          recordedCalls_append, hnotes, List.countP_append, UInt64.ofNat_add]
      congr 1
      by_cases heq : (c, t) = (cs, tgt)
      · simp [heq]
      · simp [heq]
    · intro cs tgt
      rw [(calls_congr hcalls cs tgt).2, called_recordIndirectCall _ hlen, Bool.or_eq_true, h.keys,
          recordedCalls_append, hnotes, List.map_append, List.mem_append, decide_eq_true_eq]
      simp only [List.map_cons, List.map_nil, List.mem_singleton]
      exact ⟨Or.imp_right Eq.symm, Or.imp_right Eq.symm⟩
    · intro e he
      rw [recordedCalls_append, hnotes] at he
      rcases List.mem_append.mp he with hold | hnew
      · exact lt_of_lt_of_le (h.vcpus e hold) hn
      · rw [List.mem_singleton.mp hnew]
        exact lt_of_lt_of_le hv hn

end Steps

/-! ## §3. Every run. -/

section Runs

variable {config : PluginConfig} {tier3 sysemu : Bool} {arch : String} {host : HostInfo}
  {evs : List Event} {s : System} {out : List Action}

/-- New vCPUs start with empty maps. -/
theorem calls_ensureVcpuState {p p' : PluginState} {n : Nat} (h : p.ensureVcpuState n = some p')
    (cs tgt : UInt64) :
    callCount p' cs tgt = callCount p cs tgt ∧ called p' cs tgt = called p cs tgt := by
  obtain ⟨i, j, rfl, _⟩ := ensureVcpuState_eq h
  constructor
  · have hfresh : ((List.replicate j (∅ : HashMap UInt64 (HashMap UInt64 UInt64))).map
        (callsIn cs tgt)).sum = 0 := by
      apply List.sum_eq_zero
      intro x hx
      obtain ⟨vcpuMap, hmem, rfl⟩ := List.mem_map.mp hx
      rw [List.eq_of_mem_replicate hmem]
      rfl
    show ((p.indirectCalls ++ List.replicate j ∅).map (callsIn cs tgt)).sum = _
    rw [List.map_append, List.sum_append, hfresh, add_zero]
    rfl
  · have hfresh : (List.replicate j (∅ : HashMap UInt64 (HashMap UInt64 UInt64))).any
        (mapHas cs tgt) = false := by
      rw [List.any_eq_false]
      intro vcpuMap hmem
      rw [List.eq_of_mem_replicate hmem]
      exact Bool.false_ne_true
    show (p.indirectCalls ++ List.replicate j ∅).any (mapHas cs tgt) = _
    rw [List.any_append, hfresh, Bool.or_false]
    rfl

/-- **EVERY RUN** keeps the balance of the calls. -/
theorem callBalance_run
    (h : runFrom (System.init config tier3 sysemu arch host) evs = some (s, out)) :
    CallBalance s (notesOf (System.init config tier3 sysemu arch host) evs) := by
  refine watch_induction Threads.step note (fun s _ notes => CallBalance s notes) _ ?_ ?_ h
  · exact ⟨fun _ _ => rfl, fun cs tgt => by
      simp [called, System.init, Machine.init, PluginState.new, recordedCalls],
      fun e he => absurd he List.not_mem_nil⟩
  · intro s out notes e s' acts hreach hb hstep
    obtain ⟨evs, hreach⟩ := hreach
    have hinv := runFrom_inv hreach
    have hready := ready_run hreach
    have hslots : 2 ≤ s.machine.plugin.config.tier →
        s.machine.numVcpus ≤ s.machine.plugin.indirectCalls.length := by
      rw [hready.config_eq]
      exact hready.callSlots
    rcases step_sections hstep with ⟨v, plugin, rfl, hpl, rfl, _⟩ | ⟨v, tb, rfl, _, _, rfl, _⟩
      | ⟨rfl, rfl, _⟩ | ⟨v, tid, started, env, tr, rfl, htr, hv, _, _, rfl, _⟩
      | ⟨v, env, rfl, hv, rfl, _⟩
    · exact hb.same (calls_ensureVcpuState hpl) rfl (le_max_left ..)
    · exact hb.same (fun _ _ => ⟨rfl, rfl⟩) rfl (Nat.le_refl _)
    · exact hb.same (fun _ _ => ⟨rfl, rfl⟩) rfl (Nat.le_refl _)
    · have hgive : (s.give v (.ops (opsOf tr started))).threads v = .ops (opsOf tr started) :=
        Function.update_self ..
      have henter : CallBalance (s.give v (.ops (opsOf tr started)))
          (notes ++ [.entered ⟨v, tr, started, Emitted.none⟩]) :=
        hb.same (fun _ _ => ⟨rfl, rfl⟩) rfl (Nat.le_refl _)
      obtain ⟨rest, _, _, heq⟩ := afterRun_give_ops hinv (List.mem_of_getElem? htr) env v started
      have hrun := henter.run env hv hslots (by rw [heq]; exact Nat.le_refl _)
      rw [hgive] at hrun
      rw [note_exec htr, ← List.append_assoc]
      exact hrun
    · exact hb.run env hv hslots (numVcpus_afterRun hinv env v).ge

/-- **When nothing is under way**, the recorded calls of a kind are the pairs of
consecutive executions that call for one. -/
theorem countP_recordedCalls_pairs
    (h : runFrom (System.init config tier3 sysemu arch host) evs = some (s, out))
    (htier : 2 ≤ config.tier) (hidle : ∀ v < s.machine.numVcpus, s.threads v = .idle)
    (hcomplete : ∀ r ∈ entriesOf (notesOf (System.init config tier3 sysemu arch host) evs),
      r.complete = true) (p : UInt64 × UInt64 → Bool) (q : ExecRecord → ExecRecord → Bool)
    (hq : ∀ a b, (callBetween (Arch.fromName arch) (some a) b).countP p = if q a b then 1 else 0) :
    (recordedCalls (notesOf (System.init config tier3 sysemu arch host) evs)).countP
        (fun e => p e.2)
      = pairCount ExecRecord.vcpu s.machine.numVcpus q
          (entriesOf (notesOf (System.init config tier3 sysemu arch host) evs)) := by
  rw [← sum_countP_parties Prod.fst s.machine.numVcpus _ _ (callBalance_run h).vcpus]
  unfold pairCount
  congr 1
  apply List.map_congr_left
  intro v hv
  have hcalls := ((follows_run h).2 htier).calls v
  rw [(due_idle (hidle v (List.mem_range.mp hv))).2, List.append_nil,
      pairedOf_complete hcomplete] at hcalls
  have hcount := countP_flatMap_pairs (callBetween (Arch.fromName arch)) p q hq
    (pairs (onVcpu v (entriesOf (notesOf (System.init config tier3 sysemu arch host) evs))))
  rw [← hcalls] at hcount
  unfold callsOf at hcount
  rw [List.countP_map] at hcount
  exact hcount

theorem countP_recordedCalls_idle
    (h : runFrom (System.init config tier3 sysemu arch host) evs = some (s, out))
    (htier : 2 ≤ config.tier) (hidle : ∀ v < s.machine.numVcpus, s.threads v = .idle)
    (hcomplete : ∀ r ∈ entriesOf (notesOf (System.init config tier3 sysemu arch host) evs),
      r.complete = true) (cs tgt : UInt64) :
    (recordedCalls (notesOf (System.init config tier3 sysemu arch host) evs)).countP
        (fun e => decide (e.2 = (cs, tgt)))
      = pairCount ExecRecord.vcpu s.machine.numVcpus (callsFrom (Arch.fromName arch) cs tgt)
          (entriesOf (notesOf (System.init config tier3 sysemu arch host) evs)) :=
  countP_recordedCalls_pairs h htier hidle hcomplete (fun c => decide (c = (cs, tgt)))
    (callsFrom (Arch.fromName arch) cs tgt) (count_callBetween (Arch.fromName arch) cs tgt)

end Runs

end QemuProfiler.Threads

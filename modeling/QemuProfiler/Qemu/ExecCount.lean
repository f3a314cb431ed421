/-
  QemuProfiler.Qemu.ExecCount
  ───────────────────────────
  **EXEC COUNTS AGAINST THE EXECUTION TRACE** (tier 0).

  All translations of a key tick the one scoreboard of the key's entry, so a
  slot holds the number of executions of the key on that vCPU
  (`execCounts_key`), and the sum over the vCPUs is the number of executions
  in the trace (`execSum_key`).
-/
import QemuProfiler.Qemu.EdgeTrace

namespace QemuProfiler.Qemu

open QemuProfiler.Lib QemuProfiler.Plugin QemuProfiler.Edges

/-- The key of the executed TB. -/
def ExecRecord.key (r : ExecRecord) : TbKey := r.tr.tb.key

/-- Below the word size a count is 0 iff its word is. -/
theorem ofNat_eq_zero_iff {n : Nat} (h : n < 2 ^ 64) : UInt64.ofNat n = 0 ↔ n = 0 := by
  rw [UInt64.ofNat_eq_iff_mod_eq_toNat, Nat.mod_eq_of_lt h]
  rfl

section Runs

variable {config : PluginConfig} {tier3 sysemu : Bool} {arch : String} {host : HostInfo}
  {evs : List Event} {m : Machine} {rs : List ExecRecord}

/-- A slot holds the number of executions that ticked it. -/
theorem execCounts_run
    (h : runFrom (Machine.init config tier3 sysemu arch host) evs = some (m, rs)) (sb v : Nat) :
    m.execCounts sb v
      = UInt64.ofNat ((onVcpu v rs).countP fun r => r.tr.tbMeta.execCount = sb) := by
  refine runFrom_induction (fun m rs => m.execCounts sb v
      = UInt64.ofNat ((onVcpu v rs).countP fun r => r.tr.tbMeta.execCount = sb))
    rfl (fun m rs v plugin hp _ => hp) (fun m rs tb _ hp => hp) (fun m rs hp => hp) ?_ h
  -- only an execution ticks: one slot of one scoreboard
  intro m rs env w tr started _ hp _ _ _
  show ticked m.execCounts tr.tbMeta.execCount w sb v = _
  rw [ticked_apply, hp, onVcpu_concat]
  dsimp only
  by_cases hv : w = v
  · rw [if_pos hv, List.countP_append, List.countP_singleton, UInt64.ofNat_add]
    by_cases hsb : tr.tbMeta.execCount = sb
    · simp [hv, hsb]
    · simp [hsb, Ne.symm hsb]
  · rw [if_neg hv, List.append_nil, if_neg (fun h => hv h.2.symm), add_zero]

theorem sum_map_ofNat {α : Type} (f : α → Nat) (l : List α) :
    (l.map fun v => UInt64.ofNat (f v)).sum = UInt64.ofNat (l.map f).sum := by
  induction l with
  | nil => rfl
  | cons a l ih =>
      rw [List.map_cons, List.map_cons, List.sum_cons, List.sum_cons, ih, UInt64.ofNat_add]

/-- The sum of a scoreboard is the number of executions that ticked it. -/
theorem execSum_run
    (h : runFrom (Machine.init config tier3 sysemu arch host) evs = some (m, rs)) (sb : Nat) :
    execSum m sb = UInt64.ofNat (rs.countP fun r => r.tr.tbMeta.execCount = sb) := by
  unfold execSum
  rw [List.map_congr_left fun v _ => execCounts_run h sb v, sum_map_ofNat]
  congr 1
  exact sum_countP_parties ExecRecord.vcpu m.numVcpus _ rs
    fun r hr => ((runFrom_inv h).executed r hr).2

/-- Translations that tick the same scoreboard have the same key. -/
theorem Inv.execCount_eq_iff {a : Arch} (hinv : Inv config a m rs) {k : TbKey} {c : TbCode}
    (hc : code m.plugin k = some c) {tr : Translation} (htr : tr ∈ m.translations) :
    tr.tbMeta.execCount = c.execCount ↔ tr.tb.key = k := by
  have hknown := hinv.known tr htr
  constructor
  · intro heq
    exact hinv.distinct _ _ _ _ hknown hc heq
  · intro heq
    rw [heq, hc, Option.some.injEq] at hknown
    rw [hknown]
    rfl

/-- **The count of a key on one vCPU.** -/
theorem execCounts_key
    (h : runFrom (Machine.init config tier3 sysemu arch host) evs = some (m, rs)) {k : TbKey}
    {c : TbCode} (hc : code m.plugin k = some c) (v : Nat) :
    m.execCounts c.execCount v = UInt64.ofNat ((onVcpu v rs).countP fun r => r.key = k) := by
  have hinv := runFrom_inv h
  rw [execCounts_run h]
  congr 1
  apply List.countP_congr
  intro r hr
  simp only [decide_eq_true_eq]
  exact hinv.execCount_eq_iff hc (hinv.executed r (List.mem_of_mem_filter hr)).1

/-- **The count of a key at exit.** -/
theorem execSum_key
    (h : runFrom (Machine.init config tier3 sysemu arch host) evs = some (m, rs)) {k : TbKey}
    {c : TbCode} (hc : code m.plugin k = some c) :
    execSum m c.execCount = UInt64.ofNat (rs.countP fun r => r.key = k) := by
  have hinv := runFrom_inv h
  rw [execSum_run h]
  congr 1
  apply List.countP_congr
  intro r hr
  simp only [decide_eq_true_eq]
  exact hinv.execCount_eq_iff hc (hinv.executed r hr).1

end Runs

end QemuProfiler.Qemu

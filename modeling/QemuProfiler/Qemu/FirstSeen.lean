/-
  QemuProfiler.Qemu.FirstSeen
  ───────────────────────────
  **FIRST-SEEN NUMBERS AGAINST THE EXECUTION TRACE** (tier 0).

  The counter and the numbers in the entries are global, but the condition
  of the callback is on the executing vCPU's own count.  So an execution
  FIRES iff it is the first one of its TB on its vCPU and runs a translation
  that registered the callback (`fires`), and an entry keeps the number of
  the LAST execution of its TB that fired (`numbered_run`).

    • several vCPUs: the number is that of the vCPU that came last,
    • a retranslation before the first execution: nothing ever fires.
-/
import QemuProfiler.Lib.Stamps
import QemuProfiler.Qemu.FallThroughTrace

namespace QemuProfiler.Qemu

open QemuProfiler.Lib QemuProfiler.Plugin QemuProfiler.Edges

/-! ## §1. Executions that fire. -/

/-- The first execution of its TB on its vCPU. -/
def FirstOnVcpu (past : List ExecRecord) (r : ExecRecord) : Prop :=
  ∀ p ∈ onVcpu r.vcpu past, p.key ≠ r.key

instance (past : List ExecRecord) (r : ExecRecord) : Decidable (FirstOnVcpu past r) :=
  inferInstanceAs (Decidable (∀ p ∈ onVcpu r.vcpu past, _))

/-- The first-seen callback runs. -/
def fires (past : List ExecRecord) (r : ExecRecord) : Bool :=
  r.tr.registers && decide (FirstOnVcpu past r)

/-- Only the translation that introduces a key registers the callback. -/
theorem registers_translate (m : Machine) (tb : QemuTb) :
    ∃ tr, (translate m tb).translations = m.translations ++ [tr] ∧ tr.tb = tb
      ∧ (tr.registers = true ↔ m.plugin.tbMap.lookup tb.key = none) := by
  have ht := vcpuTbTrans_spec m.host m.nextScoreboard m.plugin tb
  refine ⟨⟨tb, (vcpuTbTrans m.host m.nextScoreboard m.plugin tb).2.2,
    (vcpuTbTrans m.host m.nextScoreboard m.plugin tb).2.1⟩, rfl, rfl, ?_⟩
  rw [ht.instr_eq, registers_eq, decide_eq_true_eq]

section Runs

variable {config : PluginConfig} {tier3 sysemu : Bool} {arch : String} {host : HostInfo}
  {evs : List Event} {m : Machine} {rs : List ExecRecord}

/-- The condition of the callback, over the trace. -/
theorem fires_iff
    (h : runFrom (Machine.init config tier3 sysemu arch host) evs = some (m, rs))
    (hlen : rs.length < 2 ^ 64) (r : ExecRecord) (hr : r.tr ∈ m.translations) :
    fires rs r = true
      ↔ (r.tr.registers = true ∧ m.execCounts r.tr.tbMeta.execCount r.vcpu = 0) := by
  have hcount := execCounts_key h ((runFrom_inv h).known r.tr hr) r.vcpu
  have hle : (onVcpu r.vcpu rs).countP (fun p => p.key = r.key) ≤ rs.length :=
    le_trans List.countP_le_length (List.length_filter_le ..)
  have hfirst : FirstOnVcpu rs r ↔ m.execCounts r.tr.tbMeta.execCount r.vcpu = 0 := by
    show _ ↔ m.execCounts (codeOf r.tr.tbMeta).execCount r.vcpu = 0
    rw [hcount]
    show _ ↔ UInt64.ofNat ((onVcpu r.vcpu rs).countP fun p => p.key = r.key) = 0
    rw [ofNat_eq_zero_iff (by omega), List.countP_eq_zero]
    unfold FirstOnVcpu
    simp only [decide_eq_true_eq]
  unfold fires
  rw [Bool.and_eq_true, decide_eq_true_eq, hfirst]

/-! ## §2. The numbers. -/

/-- The keys in the order in which they fired. -/
def firedKeys (rs : List ExecRecord) : List TbKey := fired fires ExecRecord.key rs

/-- **THE SIMULATION**: the counter is past the numbers given out, and every
entry has the last one given to its key. -/
def Numbered (m : Machine) (rs : List ExecRecord) : Prop :=
  m.plugin.sequenceCounter = UInt64.ofNat ((firedKeys rs).length + 1)
    ∧ ∀ k e, m.plugin.tbMap.lookup k = some e →
        e.firstSeenSeq = UInt64.ofNat (lastRank k (firedKeys rs))

/-- Recording edges and calls touches no number. -/
theorem pluginAfter_seen (env : Env) (v : Nat) (m : Machine) (tr : Translation) :
    (pluginAfter env v m tr).sequenceCounter = (afterSeen m v tr).sequenceCounter
      ∧ (pluginAfter env v m tr).tbMap = (afterSeen m v tr).tbMap := by
  obtain ⟨accs, flushed, writer, maps, heq, _⟩ := pluginAfter_eq env v m tr
  rw [heq]
  exact ⟨rfl, rfl⟩

/-- A translation numbers nothing: a new entry has the number 0, and its key
never fired. -/
theorem Numbered.translate (hp : Numbered m rs)
    (h : runFrom (Machine.init config tier3 sysemu arch host) evs = some (m, rs)) (tb : QemuTb) :
    Numbered (Qemu.translate m tb) rs := by
  have hinv := runFrom_inv h
  have ht := vcpuTbTrans_spec m.host m.nextScoreboard m.plugin tb
  obtain ⟨hseq, hnum⟩ := hp
  refine ⟨ht.same.sequenceCounter.trans hseq, ?_⟩
  intro k e hk
  by_cases hkey : k = tb.key
  · subst hkey
    obtain ⟨e', hlook, _, hseen⟩ := ht.entry
    have he : e = e' := Option.some.inj (hk.symm.trans hlook)
    rw [he, hseen]
    rcases ht.source with hold | ⟨hnone, _, hzero⟩
    · exact hnum _ _ hold
    · -- an executed key has an entry, and this one had none
      have hnever : tb.key ∉ firedKeys rs := by
        intro hmem
        obtain ⟨x, hx, _, hxkey⟩ := mem_fired.mp hmem
        obtain ⟨e₀, hlook₀, _⟩ :=
          lookup_of_code (hinv.known x.2.tr (hinv.executed x.2 (mem_of_mem_withPast hx)).1)
        rw [show x.2.tr.tb.key = tb.key from hxkey, hnone] at hlook₀
        exact absurd hlook₀ (by simp)
      rw [hzero, (lastRank_eq_zero _ _).mpr hnever]
      rfl
  · have hother : (Qemu.translate m tb).plugin.tbMap.lookup k = m.plugin.tbMap.lookup k :=
      ht.other k hkey
    rw [hother] at hk
    exact hnum k e hk

/-- An execution that fires takes the next number for its key, another one
changes nothing. -/
theorem Numbered.exec (hp : Numbered m rs)
    (h : runFrom (Machine.init config tier3 sysemu arch host) evs = some (m, rs))
    (hlen : rs.length < 2 ^ 64) (r : ExecRecord) (hr : r.tr ∈ m.translations) (m' : Machine)
    (hseq' : m'.plugin.sequenceCounter = (afterSeen m r.vcpu r.tr).sequenceCounter)
    (hmap' : m'.plugin.tbMap = (afterSeen m r.vcpu r.tr).tbMap) :
    Numbered m' (rs ++ [r]) := by
  obtain ⟨hseq, hnum⟩ := hp
  have hiff := fires_iff h hlen r hr
  unfold Numbered firedKeys at *
  rw [hseq', hmap', fired_concat]
  by_cases hf : fires rs r = true
  · have hcond := hiff.mp hf
    have hafter : afterSeen m r.vcpu r.tr = m.plugin.firstSeenCb r.key := if_pos hcond
    rw [if_pos hf, hafter]
    -- `fetch_add` and the store of the old value into the entry
    constructor
    · show m.plugin.sequenceCounter + 1 = _
      rw [hseq, List.length_append, List.length_singleton, ← UInt64.ofNat_one,
          ← UInt64.ofNat_add]
    · intro k e hk
      have hk' : (m.plugin.tbMap.modify r.key
          fun e => { e with firstSeenSeq := m.plugin.sequenceCounter }).lookup k = some e := hk
      rw [HashMap.lookup_modify] at hk'
      rw [lastRank_concat]
      by_cases hkey : k = r.key
      · rw [if_pos hkey] at hk'
        obtain ⟨e', _, he⟩ := Option.map_eq_some_iff.mp hk'
        rw [if_pos hkey.symm, ← he, ← hseq]
      · rw [if_neg hkey] at hk'
        rw [if_neg (Ne.symm hkey)]
        exact hnum k e hk'
  · have hcond : ¬ (r.tr.registers = true ∧ m.execCounts r.tr.tbMeta.execCount r.vcpu = 0) :=
      fun hc => hf (hiff.mpr hc)
    have hafter : afterSeen m r.vcpu r.tr = m.plugin := if_neg hcond
    rw [if_neg hf, hafter, List.append_nil]
    exact ⟨hseq, hnum⟩

/-- **EVERY RUN** keeps the simulation, as long as no counter can wrap. -/
theorem numbered_run
    (h : runFrom (Machine.init config tier3 sysemu arch host) evs = some (m, rs))
    (hlen : rs.length < 2 ^ 64) : Numbered m rs := by
  refine runFrom_induction (fun m rs => rs.length < 2 ^ 64 → Numbered m rs) ?_ ?_ ?_
    (fun m rs hp => hp) ?_ h hlen
  · intro _
    refine ⟨rfl, ?_⟩
    intro k e hk
    exact absurd hk (by simp [Machine.init, PluginState.new])
  · intro m rs v plugin hp hpl hlen
    obtain ⟨i, j, rfl, _⟩ := ensureVcpuState_eq hpl
    exact hp hlen
  · intro m rs tb hreach hp hlen
    obtain ⟨evs, hreach⟩ := hreach
    exact (hp hlen).translate hreach tb
  · intro m rs env v tr started hreach hp htr _ _ hlen
    obtain ⟨evs, hreach⟩ := hreach
    have hlen' : rs.length < 2 ^ 64 := by
      rw [List.length_append, List.length_singleton] at hlen
      omega
    obtain ⟨hseq, hmap⟩ := pluginAfter_seen env v m tr
    exact (hp hlen').exec hreach hlen' ⟨v, tr, started, emittedAt env v m tr⟩ htr _ hseq hmap

/-! ## §3. The entries written at exit. -/

def entryKey (e : TbEntry) : TbKey := ⟨e.1, e.2.2.1⟩

def entryExec (e : TbEntry) : UInt64 := e.2.2.2.1

def entrySeq (e : TbEntry) : UInt64 := e.2.2.2.2

/-- What is written for a key: its executions and its last number. -/
theorem exitTbEntries_spec
    (h : runFrom (Machine.init config tier3 sysemu arch host) evs = some (m, rs))
    (hlen : rs.length < 2 ^ 64) (o : ExitOrders) {e : TbEntry}
    (he : e ∈ exitTbEntries o m.plugin (execSum m)) :
    entryExec e = UInt64.ofNat (rs.countP fun r => r.key = entryKey e)
      ∧ entrySeq e = UInt64.ofNat (lastRank (entryKey e) (firedKeys rs)) := by
  obtain ⟨tbMeta, hmem, rfl⟩ := List.mem_map.mp he
  obtain ⟨k, hk⟩ := mem_tbMetas.mp hmem
  have hc := code_of_lookup hk
  obtain ⟨hstart, hinsns, _⟩ := (runFrom_inv h).keyed k _ hc
  have hkey : k = ⟨tbMeta.startAddr, tbMeta.nInsns⟩ := by
    obtain ⟨start, insns⟩ := k
    rw [show start = tbMeta.startAddr from hstart.symm,
        show insns = tbMeta.nInsns from hinsns.symm]
  constructor
  · show execSum m (codeOf tbMeta).execCount
      = UInt64.ofNat (rs.countP fun r => r.key = (⟨tbMeta.startAddr, tbMeta.nInsns⟩ : TbKey))
    rw [execSum_key h hc, hkey]
  · show tbMeta.firstSeenSeq
      = UInt64.ofNat (lastRank (⟨tbMeta.startAddr, tbMeta.nInsns⟩ : TbKey) (firedKeys rs))
    rw [(numbered_run h hlen).2 k tbMeta hk, hkey]

/-- Every executed key has an entry. -/
theorem exists_exitTbEntry
    (h : runFrom (Machine.init config tier3 sysemu arch host) evs = some (m, rs))
    (o : ExitOrders) {r : ExecRecord} (hr : r ∈ rs) :
    ∃ e ∈ exitTbEntries o m.plugin (execSum m), entryKey e = r.key := by
  have hinv := runFrom_inv h
  have hknown := hinv.known r.tr (hinv.executed r hr).1
  obtain ⟨hstart, hinsns, _⟩ := hinv.keyed _ _ hknown
  obtain ⟨tbMeta, hk, hcode⟩ := lookup_of_code hknown
  refine ⟨_, List.mem_map.mpr ⟨tbMeta, mem_tbMetas.mpr ⟨_, hk⟩, rfl⟩, ?_⟩
  rw [← hcode] at hstart hinsns
  show (⟨(codeOf tbMeta).startAddr, (codeOf tbMeta).nInsns⟩ : TbKey) = _
  rw [hstart, hinsns]
  rfl

theorem lastRank_firedKeys_lt (k : TbKey) (hlen : rs.length < 2 ^ 64) :
    lastRank k (firedKeys rs) < 2 ^ 64 := by
  have h1 := lastRank_le_length k (firedKeys rs)
  have h2 := length_fired_le fires ExecRecord.key rs
  unfold firedKeys at h1 ⊢
  omega

/-! ## §4. Placed in time. -/

/-- An executed TB has a number, one that was not executed has none. -/
def PlacedInTime (e : TbEntry) : Prop :=
  (0 < entryExec e → entrySeq e ≠ 0) ∧ (entryExec e = 0 → entrySeq e = 0)

instance (e : TbEntry) : Decidable (PlacedInTime e) := inferInstanceAs (Decidable (_ ∧ _))

/-- The number of an entry is not 0 iff its key fired. -/
theorem placedInTime_iff
    (h : runFrom (Machine.init config tier3 sysemu arch host) evs = some (m, rs))
    (hlen : rs.length < 2 ^ 64) (o : ExitOrders) {e : TbEntry}
    (he : e ∈ exitTbEntries o m.plugin (execSum m)) :
    PlacedInTime e ↔ ((∃ r ∈ rs, r.key = entryKey e) → entryKey e ∈ firedKeys rs) := by
  obtain ⟨hexec, hseq⟩ := exitTbEntries_spec h hlen o he
  have hle : rs.countP (fun r => r.key = entryKey e) ≤ rs.length := List.countP_le_length
  have hexec0 : entryExec e = 0 ↔ ¬ ∃ r ∈ rs, r.key = entryKey e := by
    rw [hexec, ofNat_eq_zero_iff (by omega), List.countP_eq_zero]
    simp
  have hseq0 : entrySeq e = 0 ↔ entryKey e ∉ firedKeys rs := by
    rw [hseq, ofNat_eq_zero_iff (lastRank_firedKeys_lt _ hlen), lastRank_eq_zero]
  -- a key that fired was executed
  have hfired : entryKey e ∈ firedKeys rs → ∃ r ∈ rs, r.key = entryKey e := by
    intro hmem
    obtain ⟨x, hx, _, hkey⟩ := mem_fired.mp hmem
    exact ⟨x.2, mem_of_mem_withPast hx, hkey⟩
  unfold PlacedInTime
  rw [UInt64.pos_iff_ne_zero, ne_eq, ne_eq, hexec0, hseq0]
  constructor
  · intro hp hr
    by_contra hno
    exact hp.1 (fun hn => hn hr) hno
  · intro hp
    refine ⟨fun hr hno => hno (hp (not_not.mp hr)), ?_⟩
    intro hr hmem
    exact hr (hfired hmem)

/-- **EXACTLY WHEN EVERY EXECUTED TB IS PLACED IN TIME.**  For every order of
translations, cache flushes and executions: all entries are right iff for
every executed TB there is a vCPU whose first execution of it ran a
translation that registered the callback. -/
theorem placed_in_time_iff
    (h : runFrom (Machine.init config tier3 sysemu arch host) evs = some (m, rs))
    (hlen : rs.length < 2 ^ 64) (o : ExitOrders) :
    (∀ e ∈ exitTbEntries o m.plugin (execSum m), PlacedInTime e)
      ↔ ∀ r ∈ rs, ∃ x ∈ withPast rs,
          x.2.key = r.key ∧ x.2.tr.registers = true ∧ FirstOnVcpu x.1 x.2 := by
  -- the callback ran iff its translation registered it and the count was still 0
  have hmem : ∀ k, k ∈ firedKeys rs ↔ ∃ x ∈ withPast rs,
      x.2.key = k ∧ x.2.tr.registers = true ∧ FirstOnVcpu x.1 x.2 := by
    intro k
    unfold firedKeys
    rw [mem_fired]
    simp only [fires, Bool.and_eq_true, decide_eq_true_eq]
    constructor
    · intro hx
      obtain ⟨x, hx, hf, hk⟩ := hx
      exact ⟨x, hx, hk, hf⟩
    · intro hx
      obtain ⟨x, hx, hk, hf⟩ := hx
      exact ⟨x, hx, hf, hk⟩
  constructor
  · intro hall r hr
    obtain ⟨e, he, hkey⟩ := exists_exitTbEntry h o hr
    have hp := (placedInTime_iff h hlen o he).mp (hall e he) ⟨r, hr, hkey.symm⟩
    rw [hkey] at hp
    exact (hmem r.key).mp hp
  · intro hall e he
    rw [placedInTime_iff h hlen o he]
    intro hr
    obtain ⟨r, hr, hkey⟩ := hr
    rw [← hkey]
    exact (hmem r.key).mpr (hall r hr)

/-- One block, translated and executed, then flushed, translated again and
executed again. -/
def flushAfterEvents : List Event :=
  [.vcpuInit 0, .translate (nopBlock 0x10 0), .exec 0 0 1 ⟨[], 0⟩, .flush,
    .translate (nopBlock 0x10 0), .exec 0 1 1 ⟨[], 0⟩]

/-- The flush comes before the first execution. -/
def flushBeforeEvents : List Event :=
  [.vcpuInit 0, .translate (nopBlock 0x10 0), .flush, .translate (nopBlock 0x10 0),
    .exec 0 1 1 ⟨[], 0⟩]

theorem placed_in_time_flush_after :
    exitTbEntries listOrders (outcome 0 flushAfterEvents).1.plugin
        (execSum (outcome 0 flushAfterEvents).1) = [(0x10, 0x10, 1, 2, 1)]
      ∧ ∀ e ∈ exitTbEntries listOrders (outcome 0 flushAfterEvents).1.plugin
          (execSum (outcome 0 flushAfterEvents).1), PlacedInTime e :=
  ⟨by decide,
    (placed_in_time_iff (runFrom_outcome _ _ (by decide)) (by decide) listOrders).mpr (by decide)⟩

/-- **AN EXECUTED TB WITHOUT A NUMBER**: the translation that registered the
callback never ran. -/
theorem retranslated_tb_not_placed :
    exitTbEntries listOrders (outcome 0 flushBeforeEvents).1.plugin
        (execSum (outcome 0 flushBeforeEvents).1) = [(0x10, 0x10, 1, 1, 0)]
      ∧ ¬ ∀ e ∈ exitTbEntries listOrders (outcome 0 flushBeforeEvents).1.plugin
          (execSum (outcome 0 flushBeforeEvents).1), PlacedInTime e := by
  have hentries : exitTbEntries listOrders (outcome 0 flushBeforeEvents).1.plugin
      (execSum (outcome 0 flushBeforeEvents).1) = [(0x10, 0x10, 1, 1, 0)] := by decide
  refine ⟨hentries, ?_⟩
  rw [hentries]
  intro hall
  have hplaced := hall _ (List.mem_singleton_self _)
  exact hplaced.1 (by decide) rfl

/-! ## §5. The order of the numbers. -/

/-- Position of the earliest execution of a TB, on any vCPU. -/
def firstExec (k : TbKey) (rs : List ExecRecord) : Nat := rs.findIdx fun r => r.key = k

/-- Both TBs are executed, the first one earlier than the second. -/
def ExecutedBefore (k k' : TbKey) (rs : List ExecRecord) : Prop :=
  firstExec k rs < firstExec k' rs ∧ firstExec k' rs < rs.length

instance (k k' : TbKey) (rs : List ExecRecord) : Decidable (ExecutedBefore k k' rs) :=
  inferInstanceAs (Decidable (_ ∧ _))

/-- Position, counted from 1, of the last execution of a TB that is the first
one on its vCPU: when the last vCPU reached the TB. -/
def lastFirstExec (k : TbKey) (rs : List ExecRecord) : Nat :=
  lastFire (fun past r => decide (FirstOnVcpu past r)) ExecRecord.key k rs

/-- **EXACTLY WHEN THE NUMBERS ARE IN EXECUTION ORDER.**  When all executions
run translations that registered the callback: the TB that was executed
earlier has the smaller number iff the last vCPU to reach it does so before
the last vCPU to reach the other one. -/
theorem first_seen_order_iff
    (h : runFrom (Machine.init config tier3 sysemu arch host) evs = some (m, rs))
    (hlen : rs.length < 2 ^ 64) (hreg : ∀ r ∈ rs, r.tr.registers = true) (o : ExitOrders)
    {e e' : TbEntry} (he : e ∈ exitTbEntries o m.plugin (execSum m))
    (he' : e' ∈ exitTbEntries o m.plugin (execSum m)) :
    (ExecutedBefore (entryKey e) (entryKey e') rs → entrySeq e < entrySeq e')
      ↔ (ExecutedBefore (entryKey e) (entryKey e') rs →
          lastFirstExec (entryKey e) rs < lastFirstExec (entryKey e') rs) := by
  apply imp_congr_right
  intro _
  have hfires : Along (fun past r => fires past r = decide (FirstOnVcpu past r)) rs := by
    intro past r rest hsplit
    unfold fires
    rw [hreg r (by rw [hsplit]; exact List.mem_append_right _ (List.mem_cons_self ..)),
        Bool.true_and]
  unfold lastFirstExec
  rw [(exitTbEntries_spec h hlen o he).2, (exitTbEntries_spec h hlen o he').2,
      UInt64.ofNat_lt_iff_lt (lastRank_firedKeys_lt _ hlen) (lastRank_firedKeys_lt _ hlen),
      ← lastFire_congr _ _ _ _ _ hfires, ← lastFire_congr _ _ _ _ _ hfires]
  exact lastRank_lt_iff fires ExecRecord.key (entryKey e) (entryKey e') rs

/-- Two blocks, executed on vCPU 0; then vCPU 1 executes the second one, or
the first. -/
def secondVcpuEvents (tid : Nat) : List Event :=
  [.vcpuInit 0, .vcpuInit 1, .translate (nopBlock 0x10 0), .translate (nopBlock 0x40 0),
    .exec 0 0 1 ⟨[], 0⟩, .exec 0 1 1 ⟨[], 0⟩, .exec 1 tid 1 ⟨[], 0⟩]

/-- vCPU 1 goes on with the second block: the numbers are 1 and 3. -/
theorem first_seen_order_second_block :
    (0x10, 0x10, 1, 1, 1) ∈ exitTbEntries listOrders (outcome 0 (secondVcpuEvents 1)).1.plugin
        (execSum (outcome 0 (secondVcpuEvents 1)).1)
      ∧ (0x40, 0x40, 1, 2, 3) ∈ exitTbEntries listOrders
        (outcome 0 (secondVcpuEvents 1)).1.plugin (execSum (outcome 0 (secondVcpuEvents 1)).1)
      ∧ entrySeq (0x10, 0x10, 1, 1, 1) < entrySeq (0x40, 0x40, 1, 2, 3) :=
  ⟨by decide, by decide,
    (first_seen_order_iff (runFrom_outcome 0 (secondVcpuEvents 1) (by decide)) (by decide)
      (by decide) listOrders (by decide) (by decide)).mpr (by decide) (by decide)⟩

/-- **THE EARLIER TB HAS THE LARGER NUMBER**: vCPU 1 reaches the first block
after vCPU 0 went on to the second. -/
theorem second_vcpu_renumbers :
    exitTbEntries listOrders (outcome 0 (secondVcpuEvents 0)).1.plugin
        (execSum (outcome 0 (secondVcpuEvents 0)).1)
        = [(0x10, 0x10, 1, 2, 3), (0x40, 0x40, 1, 1, 2)]
      ∧ ExecutedBefore ⟨0x10, 1⟩ ⟨0x40, 1⟩ (outcome 0 (secondVcpuEvents 0)).2
      ∧ ∀ r ∈ (outcome 0 (secondVcpuEvents 0)).2, r.tr.registers = true := by
  decide

end Runs

end QemuProfiler.Qemu

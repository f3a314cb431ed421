/-
  QemuProfiler.Threads.ResourceFlags
  ──────────────────────────────────
  **THE RESOURCE FLAGS OF TBs** in interleaved runs.  They are stored through a
  pointer to the entry, without a lock, once per translation.

    • `advance_flags` — what a section does to the flags of an entry,
    • `flags_run` — an entry has the flags of the last translation of its key,
    • `tb_resources_exact` — so has its record in the file, and there is one
      for every key whose flags are not zero.
-/
import QemuProfiler.Threads.ExecCount
import QemuProfiler.Threads.ResourceFile

namespace QemuProfiler.Threads

open QemuProfiler.Lib QemuProfiler.Plugin QemuProfiler.Qemu QemuProfiler.Edges QemuProfiler.Format
open QemuProfiler.Convert hiding fileMagic FileHeader

/-! ## §1. Sections. -/

/-- The resource flags of an entry. -/
def flags (p : PluginState) (k : TbKey) : Option UInt32 :=
  (p.tbMap.lookup k).map TbMeta.coprocFlags

/-- Are TBs classified? -/
def classifies (p : PluginState) : Bool := p.tier3 && p.config.tier ≥ 3

theorem flags_congr {p p' : PluginState} (h : p'.tbMap = p.tbMap) : flags p' = flags p := by
  unfold flags
  rw [h]

theorem flags_modify {p p' : PluginState} {key : TbKey} {f : TbMeta → TbMeta}
    (h : p'.tbMap = p.tbMap.modify key f) (hf : ∀ e, (f e).coprocFlags = e.coprocFlags) :
    flags p' = flags p := by
  funext k
  unfold flags
  rw [h, HashMap.lookup_modify]
  by_cases hk : k = key
  · rw [if_pos hk, hk, Option.map_map]
    congr 1
    funext e
    exact hf e
  · rw [if_neg hk]

/-- The section of tier 0 under the lock creates an entry without flags. -/
theorem mapSection_flags (symId : UInt16) (scoreboard : Nat) (p : PluginState) (tb : QemuTb)
    (k : TbKey) :
    flags (Tier0.mapSection symId scoreboard p tb).1 k
      = if k = tb.key ∧ p.tbMap.lookup tb.key = none then some 0 else flags p k := by
  unfold Tier0.mapSection flags
  cases hlook : p.tbMap.lookup tb.key with
  | some existing => rw [if_neg (by simp)]
  | none =>
      dsimp only
      by_cases hk : k = tb.key
      · rw [if_pos ⟨hk, rfl⟩, hk, AList.lookup_insert]
        rfl
      · rw [if_neg fun h => hk h.1, AList.lookup_insert_ne hk]

/-- The later tiers store the flags of their translation. -/
theorem laterTiers_flags (p : PluginState) (tb : QemuTb) (k : TbKey) :
    flags (laterTiers p tb) k
      = if k = tb.key ∧ classifies p = true then
          (flags p k).map fun _ => Tier3.classifyTb p.targetArch tb
        else flags p k := by
  have htier2 : ∃ p₂, (if p.config.tier ≥ 2 then Tier2.instrumentTb p tb else p) = p₂
      ∧ flags p₂ = flags p ∧ classifies p₂ = classifies p ∧ p₂.targetArch = p.targetArch := by
    by_cases htier : p.config.tier ≥ 2
    · rw [if_pos htier]
      refine ⟨_, rfl, ?_, rfl, rfl⟩
      by_cases hind : Tier2.classOf p.targetArch (tb.insns.getLast tb.nonempty) = .indirect
      · exact flags_modify (if_pos hind) fun _ => rfl
      · exact flags_congr (if_neg hind)
    · rw [if_neg htier]
      exact ⟨p, rfl, rfl, rfl, rfl⟩
  obtain ⟨p₂, heq, hflags, hclass, harch⟩ := htier2
  unfold laterTiers
  rw [heq, ← hflags, ← hclass, ← harch]
  dsimp only
  by_cases hon : classifies p₂ = true
  · have hon' : (p₂.tier3 && decide (p₂.config.tier ≥ 3)) = true := hon
    rw [if_pos hon']
    unfold flags
    rw [HashMap.lookup_modify]
    by_cases hk : k = tb.key
    · rw [if_pos hk, if_pos ⟨hk, hon⟩, hk, Option.map_map, Option.map_map]
      rfl
    · rw [if_neg hk, if_neg fun h => hk h.1]
  · have hon' : ¬ (p₂.tier3 && decide (p₂.config.tier ≥ 3)) = true := hon
    rw [if_neg hon', if_neg fun h => hon h.2]

/-- **WHAT A SECTION DOES TO THE FLAGS**: two sections of `vcpu_tb_trans` touch
them. -/
theorem advance_flags (env : Env) (v : Nat) (m : Machine) {th : Thread} (hq : NoTick th.queue) :
    (∃ tb symId, th = .mapTb tb symId
        ∧ (advance env v m th).1.translations = m.translations
        ∧ ∀ k, flags (advance env v m th).1.plugin k
          = if k = tb.key ∧ m.plugin.tbMap.lookup tb.key = none then some 0 else flags m.plugin k)
      ∨ (∃ tr, th = .laterTiers tr
        ∧ (advance env v m th).1.translations = m.translations ++ [tr]
        ∧ ∀ k, flags (advance env v m th).1.plugin k
          = if k = tr.tb.key ∧ classifies m.plugin = true then
              (flags m.plugin k).map fun _ => Tier3.classifyTb m.plugin.targetArch tr.tb
            else flags m.plugin k)
      ∨ (flags (advance env v m th).1.plugin = flags m.plugin
        ∧ (advance env v m th).1.translations = m.translations) := by
  by_cases hmap : ∃ tb symId, th = .mapTb tb symId
  · obtain ⟨tb, symId, rfl⟩ := hmap
    exact Or.inl ⟨tb, symId, rfl, rfl, mapSection_flags symId m.nextScoreboard m.plugin tb⟩
  by_cases hlater : ∃ tr, th = .laterTiers tr
  · obtain ⟨tr, rfl⟩ := hlater
    exact Or.inr (Or.inl ⟨tr, rfl, rfl, laterTiers_flags m.plugin tr.tb⟩)
  -- any other section keeps the entries, up to the number of one
  refine Or.inr (Or.inr ?_)
  have heff := advance_effect env v m hq
  revert heff
  generalize (advance env v m th).1 = m', (advance env v m th).2.1 = th',
    (advance env v m th).2.2 = acts
  intro heff
  cases heff with
  | quiet hm _ _ _ _ => exact ⟨flags_congr hm.tbMap, hm.translations⟩
  | storeWriter tb =>
      obtain ⟨writer, heq⟩ := openWriter_frame m.host m.plugin
      refine ⟨flags_congr ?_, rfl⟩
      show (openWriter m.host m.plugin).tbMap = _
      rw [heq]
  | mapTb _ _ _ => exact absurd ⟨_, _, rfl⟩ hmap
  | laterTiers tr => exact absurd ⟨tr, rfl⟩ hlater
  | storeNumber key seq rest => exact ⟨flags_modify rfl fun _ => rfl, rfl⟩
  | _ => exact ⟨rfl, rfl⟩

/-! ## §2. Runs. -/

/-- The flags that the last translation of a key has. -/
def cachedFlags (on : Bool) (arch : Arch) (k : TbKey) (trs : List Translation) : UInt32 :=
  if on then
    (((trs.filter fun tr => tr.tb.key = k).getLast?).map fun tr =>
      Tier3.classifyTb arch tr.tb).getD 0
  else 0

theorem cachedFlags_append (on : Bool) (arch : Arch) (k : TbKey) (trs : List Translation)
    (tr : Translation) :
    cachedFlags on arch k (trs ++ [tr])
      = if k = tr.tb.key ∧ on = true then Tier3.classifyTb arch tr.tb
        else cachedFlags on arch k trs := by
  unfold cachedFlags
  cases on with
  | false => simp
  | true =>
      rw [if_pos rfl, if_pos rfl, List.filter_append]
      by_cases hk : tr.tb.key = k
      · rw [List.filter_cons_of_pos (by simpa using hk), List.filter_nil, List.getLast?_concat,
          if_pos ⟨hk.symm, rfl⟩]
        rfl
      · rw [List.filter_cons_of_neg (by simpa using hk), List.filter_nil, List.append_nil,
          if_neg fun h => hk h.1.symm]

/-- A key without translation has no flags. -/
theorem cachedFlags_eq_zero {on : Bool} {arch : Arch} {k : TbKey} {trs : List Translation}
    (h : ∀ tr ∈ trs, tr.tb.key ≠ k) : cachedFlags on arch k trs = 0 := by
  unfold cachedFlags
  rw [List.filter_eq_nil_iff.mpr fun tr htr => by simpa using h tr htr]
  split <;> rfl

section Runs

variable {config : PluginConfig} {tier3 sysemu : Bool} {arch : String} {host : HostInfo}

/-- **THE FLAGS OF AN ENTRY** are those of the last translation of its key, in
every reachable state. -/
theorem flags_run {evs : List Event} {s : System} {out : List Action}
    (h : runFrom (System.init config tier3 sysemu arch host) evs = some (s, out)) :
    ∀ k f, flags s.machine.plugin k = some f →
      f = cachedFlags (tier3 && decide (config.tier ≥ 3)) (Arch.fromName arch) k
        s.machine.translations := by
  have hrun := runSteps_induction Threads.step (fun s _ =>
    settingsOf s.machine.plugin = (config, tier3, sysemu, arch)
      ∧ s.machine.plugin.targetArch = Arch.fromName arch
      ∧ ∀ k f, flags s.machine.plugin k = some f →
          f = cachedFlags (tier3 && decide (config.tier ≥ 3)) (Arch.fromName arch) k
            s.machine.translations) (System.init config tier3 sysemu arch host) ?_ ?_ h
  · exact hrun.2.2
  · refine ⟨rfl, rfl, ?_⟩
    intro k f hf
    exact absurd hf (by simp [flags, System.init, Machine.init, PluginState.new])
  · intro s out e s' acts hreach hs hstep
    obtain ⟨evs, hreach⟩ := hreach
    obtain ⟨hset, harch, hflags⟩ := hs
    have hinv := runFrom_inv hreach
    have hinit := ready_run (show runFrom _ (evs ++ [e]) = some (s', out ++ acts) from
      runSteps_concat Threads.step e evs _ s out hreach hstep)
    refine ⟨(step_settings hstep).trans hset, hinit.arch_eq, ?_⟩
    have hclass : classifies s.machine.plugin = (tier3 && decide (config.tier ≥ 3)) := by
      simp only [settingsOf, Prod.mk.injEq] at hset
      unfold classifies
      rw [hset.1, hset.2.1]
    rcases step_sections hstep with ⟨v, plugin, _, hp, rfl, _⟩ | ⟨v, tb, _, _, hidle, rfl, _⟩
      | ⟨_, rfl, _⟩ | ⟨v, tid, started, env, tr, _, htr, _, _, _, rfl, _⟩ | ⟨v, env, _, _, rfl, _⟩
    · obtain ⟨i, j, heq, _⟩ := ensureVcpuState_eq hp
      intro k f hf
      rw [show flags _ k = flags s.machine.plugin k from
        congrFun (flags_congr (by rw [heq])) k] at hf
      exact hflags k f hf
    · exact hflags
    · exact hflags
    · obtain ⟨rest, _, _, heq⟩ := afterRun_give_ops hinv (List.mem_of_getElem? htr) env v started
      rw [heq]
      exact hflags
    · intro k f hf
      have hsection := advance_flags env v s.machine (hinv.queues v)
      have hf' : flags (advance env v s.machine (s.threads v)).1.plugin k = some f := hf
      show f = cachedFlags _ _ k (advance env v s.machine (s.threads v)).1.translations
      rcases hsection with ⟨tb, symId, hth, htrs, hcases⟩ | ⟨tr, hth, htrs, hcases⟩
        | ⟨hsame, htrs⟩
      · rw [hcases] at hf'
        rw [htrs]
        by_cases hnew : k = tb.key ∧ s.machine.plugin.tbMap.lookup tb.key = none
        · -- a new entry: there was no translation of its key
          rw [if_pos hnew, Option.some.injEq] at hf'
          rw [← hf']
          refine (cachedFlags_eq_zero ?_).symm
          intro tr htr hkey
          have hknown := hinv.known tr (Or.inl htr)
          rw [hkey, hnew.1] at hknown
          unfold code at hknown
          rw [hnew.2] at hknown
          exact absurd hknown (by simp)
        · rw [if_neg hnew] at hf'
          exact hflags k f hf'
      · rw [hcases] at hf'
        rw [htrs, cachedFlags_append, ← harch, ← hclass]
        by_cases hkey : k = tr.tb.key ∧ classifies s.machine.plugin = true
        · rw [if_pos hkey] at hf' ⊢
          obtain ⟨_, _, heq⟩ := Option.map_eq_some_iff.mp hf'
          exact heq.symm
        · rw [if_neg hkey] at hf' ⊢
          rw [harch, hclass]
          exact hflags k f hf'
      · rw [hsame] at hf'
        rw [htrs]
        exact hflags k f hf'

/-- **RESOURCE RECORDS ARE EXACT**, with or without runtime events: in tier 3,
a reader finds one record for every TB key whose last translation has resource
flags, with these flags; below tier 3, none. -/
theorem tb_resources_exact {apiVersion : Int} {evs : List (Event ⊕ Runtime)} {s : System}
    {out : List (Action ⊕ Seen)}
    (h : runWith apiVersion (System.init config tier3 sysemu arch host) evs = some (s, out))
    {o : ExitOrders} {w : ProfileWriter}
    (hexit : pluginExit o s.machine.plugin (execSum s.machine) = some w) (ρb ρf : IterOrder) :
    ∃ (p : Profile) (keys : List TbKey), parse ρb ρf w.writer = .ok p ∧ keys.Nodup
      ∧ (∀ k, k ∈ keys ↔ cachedFlags (tier3 && decide (config.tier ≥ 3)) (Arch.fromName arch) k
          s.machine.translations ≠ 0)
      ∧ p.tbResources = keys.map fun k => ⟨k.startAddr,
          cachedFlags (tier3 && decide (config.tier ≥ 3)) (Arch.fromName arch) k
            s.machine.translations, 0⟩ := by
  obtain ⟨cs, hcs, hlog⟩ := exit_log h hexit
  obtain ⟨p, hparse, _, hres⟩ := parse_isLog hlog ρb ρf
  rw [flatMap_exitLog tbResourcesOf (fun _ _ => rfl) (fun _ => rfl) (fun _ _ _ => rfl)
    (fun _ _ _ => rfl) (fun _ => rfl) (fun _ => rfl) (fun _ => rfl) (fun _ => rfl) (fun _ => rfl)
    hcs, tbResources_exitResources, exit_settings h] at hres
  -- the tables of tier 3 have no part in the entries
  obtain ⟨s₀, t, hrun, rfl⟩ := observed h
  have hinv := runFrom_inv hrun
  have hcodes : CodesApart (System.withTables t s₀).machine.plugin s₀.machine.nextScoreboard :=
    ⟨hinv.codes.keyed, hinv.codes.distinct⟩
  have hflags := flags_run hrun
  have htrs : (System.withTables t s₀).machine.translations = s₀.machine.translations := rfl
  simp only [htrs]
  by_cases hon : (tier3 && decide (config.tier ≥ 3)) = true
  · rw [if_pos hon] at hres
    have hkeyed : ∀ e ∈ tbMetas o (System.withTables t s₀).machine.plugin,
        e.coprocFlags = cachedFlags (tier3 && decide (config.tier ≥ 3)) (Arch.fromName arch)
          (metaKey e) s₀.machine.translations := by
      intro e he
      have hlook : s₀.machine.plugin.tbMap.lookup (metaKey e) = some e := lookup_metaKey hcodes he
      apply hflags
      unfold flags
      rw [hlook]
      rfl
    refine ⟨p, ((tbMetas o (System.withTables t s₀).machine.plugin).filter
        fun tb => tb.coprocFlags ≠ 0).map metaKey, hparse,
      (nodup_metaKey hcodes o).sublist (List.filter_sublist.map metaKey), ?_, ?_⟩
    · intro k
      rw [List.mem_map]
      constructor
      · rintro ⟨e, he, rfl⟩
        obtain ⟨hin, hne⟩ := List.mem_filter.mp he
        rw [← hkeyed e hin]
        simpa using hne
      · intro hne
        -- flags come from a translation, and its key has an entry
        have htr : ∃ tr ∈ s₀.machine.translations, tr.tb.key = k := by
          by_contra hnone
          exact hne (cachedFlags_eq_zero fun tr htr heq => hnone ⟨tr, htr, heq⟩)
        obtain ⟨tr, htr, rfl⟩ := htr
        obtain ⟨e, hlook, _⟩ := lookup_of_code (hinv.known tr (Or.inl htr))
        have hmem : e ∈ tbMetas o (System.withTables t s₀).machine.plugin :=
          List.mem_map.mpr ⟨(tr.tb.key, e), HashMap.mem_iter.mpr hlook, rfl⟩
        have hkey : metaKey e = tr.tb.key := metaKey_eq hinv.codes hlook
        refine ⟨e, List.mem_filter.mpr ⟨hmem, ?_⟩, hkey⟩
        rw [hkeyed e hmem, hkey]
        simpa using hne
    · rw [hres, List.map_map]
      apply List.map_congr_left
      intro e he
      have hin := (List.mem_filter.mp he).1
      show tbResourceOf e = ⟨e.startAddr, _, 0⟩
      unfold tbResourceOf
      rw [hkeyed e hin]
  · rw [if_neg hon] at hres
    refine ⟨p, [], hparse, List.nodup_nil, ?_, hres⟩
    intro k
    refine ⟨fun hin => absurd hin List.not_mem_nil, ?_⟩
    intro hne
    exact absurd (if_neg hon) hne

end Runs

/-- A block with one floating-point instruction. -/
def fpBlock (vaddr : UInt64) : QemuTb :=
  { vaddr := vaddr
    insns := [{ vaddr := vaddr, size := 4, data := [0x53, 0, 0, 0], symbol := none }]
    nonempty := by simp }

/-- Code is replaced: the block at 0x10 loses its floating-point instruction,
the one at 0x40 gets one. -/
def replacedCode : List (Event ⊕ Runtime) :=
  ([.vcpuInit 0, .translate 0 (fpBlock 0x10)] ++ sections 0 6 ++ [.translate 0 (nopBlock 0x40 0)]
    ++ sections 0 6 ++ [.flush, .translate 0 (nopBlock 0x10 0)] ++ sections 0 6
    ++ [.translate 0 (fpBlock 0x40)] ++ sections 0 6 : List Event).map .inl

theorem tb_resources_exact_replaced :
    ∃ w p, pluginExit listOrders (outcomeWith 6 board replacedCode).1.machine.plugin
        (execSum (outcomeWith 6 board replacedCode).1.machine) = some w
      ∧ parse [] [] w.writer = .ok p ∧ ⟨0x40, coprocFp, 0⟩ ∈ p.tbResources := by
  have hrun : runWith 6 board replacedCode
      = some ((outcomeWith 6 board replacedCode).1, (outcomeWith 6 board replacedCode).2) :=
    runWith_outcomeWith (by decide)
  have hexit : (pluginExit listOrders (outcomeWith 6 board replacedCode).1.machine.plugin
      (execSum (outcomeWith 6 board replacedCode).1.machine)).isSome = true := by
    unfold pluginExit
    rw [Option.isSome_map]
    decide
  obtain ⟨w, hw⟩ := Option.isSome_iff_exists.mp hexit
  obtain ⟨p, keys, hp, _, hkeys, hres⟩ := tb_resources_exact hrun hw [] []
  refine ⟨w, p, hw, hp, ?_⟩
  rw [hres]
  exact List.mem_map.mpr ⟨⟨0x40, 1⟩, (hkeys _).mpr (by decide), by decide⟩

end QemuProfiler.Threads

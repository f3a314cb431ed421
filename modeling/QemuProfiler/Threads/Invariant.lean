/-
  QemuProfiler.Threads.Invariant
  ──────────────────────────────
  **WHAT HOLDS IN EVERY REACHABLE STATE** of the interleaved system: there is
  one entry per TB key with a scoreboard of its own, every translation, also
  one that is still under way, works on the entry of its key, and every
  execution counts once.

    • `step_cases` — the four things a step can be,
    • `Inv`, `runFrom_inv` — the invariant,
    • `runFrom_induction` — the rule for everything else that runs keep.
-/
import QemuProfiler.Qemu.EdgeTrace
import QemuProfiler.Threads.Effects

namespace QemuProfiler.Threads

open QemuProfiler.Lib QemuProfiler.Plugin QemuProfiler.Qemu

/-! ## §1. The registrations of a translation. -/

/-- An execution ticks the translation's scoreboard first, and nothing ticks
afterwards. -/
def TicksOnce (tr : Translation) : Prop :=
  ∀ started, ∃ rest, NoTick rest
    ∧ opsOf tr started = .inline (.add (.execCount tr.tbMeta.execCount) 1) :: rest

theorem noTick_append {ops ops' : List TbOp} (h : NoTick ops) (h' : NoTick ops') :
    NoTick (ops ++ ops') := by
  intro op hop
  rcases List.mem_append.mp hop with hin | hin
  · exact h op hin
  · exact h' op hin

/-- What tiers 1 and 2 register on instructions is stores to the vCPU's own
state. -/
theorem noTick_insnOps (s : PluginState) (tb : QemuTb) (tier0 : List TbOp) (tbMeta : TbMeta) :
    ∀ ops ∈ (instrumentationOf s tb tier0 tbMeta).insnOps, NoTick (ops.map .inline) := by
  have htier2 : ∀ insn, NoTick ((tier2InsnOps s insn).map .inline) := by
    intro insn op hop
    unfold tier2InsnOps Tier2.insnOps at hop
    split at hop
    · split at hop
      · rw [List.map_singleton, List.mem_singleton] at hop
        rw [hop]
        rfl
      · exact absurd hop List.not_mem_nil
    · exact absurd hop List.not_mem_nil
  have htier1 : NoTick ((if s.config.tier ≥ 1 then Tier1.lastInsnOps tbMeta else []).map .inline) := by
    intro op hop
    split at hop
    · simp only [Tier1.lastInsnOps, List.map_cons, List.map_nil, List.mem_cons,
        List.not_mem_nil, or_false] at hop
      rcases hop with rfl | rfl <;> rfl
    · exact absurd hop List.not_mem_nil
  intro ops hops
  unfold instrumentationOf at hops
  rcases List.mem_append.mp hops with hin | hin
  · obtain ⟨insn, _, rfl⟩ := List.mem_map.mp hin
    exact htier2 insn
  · rw [List.mem_singleton.mp hin, List.map_append]
    exact noTick_append htier1 (htier2 _)

theorem noTick_tbOps (s : PluginState) (tbMeta : TbMeta) :
    NoTick ((if s.config.tier ≥ 1 then Tier1.tbOps tbMeta else [])
      ++ (if s.config.tier ≥ 2 then Tier2.tbOps else [])) := by
  apply noTick_append
  · intro op hop
    split at hop
    · rw [Tier1.tbOps, List.mem_singleton] at hop
      rw [hop]
      rfl
    · exact absurd hop List.not_mem_nil
  · intro op hop
    split at hop
    · rw [Tier2.tbOps, List.mem_singleton] at hop
      rw [hop]
      rfl
    · exact absurd hop List.not_mem_nil

theorem noTick_insns {insnOps : List (List InlineOp)}
    (h : ∀ ops ∈ insnOps, NoTick (ops.map .inline)) (started : Nat) :
    NoTick ((insnOps.take started).flatten.map .inline) := by
  intro op hop
  obtain ⟨iop, hiop, rfl⟩ := List.mem_map.mp hop
  obtain ⟨ops, hops, hin⟩ := List.mem_flatten.mp hiop
  exact h ops (List.mem_of_mem_take hops) _ (List.mem_map_of_mem hin)

/-- **A translation ticks once per execution.** -/
theorem ticksOnce_of_translates {scoreboard : Nat} {s s' : PluginState} {tb : QemuTb}
    {tr : Translation} (h : Translates scoreboard s tb s' tr.instr tr.tbMeta) : TicksOnce tr := by
  intro started
  have hinsns := noTick_insns (noTick_insnOps s tb
    (tier0Ops (decide (s.tbMap.lookup tb.key = none)) tb.key tr.tbMeta.execCount) tr.tbMeta) started
  have hrest := noTick_append (noTick_tbOps s tr.tbMeta) hinsns
  unfold opsOf
  rw [h.instr_eq]
  cases decide (s.tbMap.lookup tb.key = none) with
  | false => exact ⟨_, hrest, List.append_assoc ..⟩
  | true =>
      refine ⟨.condCb (.firstSeen tb.key) .eq (.execCount tr.tbMeta.execCount) 1 :: _, ?_,
        List.append_assoc ..⟩
      intro op hop
      rcases List.mem_cons.mp hop with heq | hin
      · rw [heq]
        rfl
      · exact hrest op hin

/-! ## §2. The invariant. -/

/-- The translation is in the code cache, or about to get there. -/
def Made (s : System) (tr : Translation) : Prop :=
  tr ∈ s.machine.translations ∨ ∃ v, s.threads v = .laterTiers tr

structure Inv (s : System) (out : List Action) : Prop where
  codes : CodesApart s.machine.plugin s.machine.nextScoreboard
  /-- A translation works on the entry of its key. -/
  known : ∀ tr, Made s tr → code s.machine.plugin tr.tb.key = some (codeOf tr.tbMeta)
  ticksOnce : ∀ tr, Made s tr → TicksOnce tr
  queues : ∀ v, NoTick (s.threads v).queue
  /-- There is a thread for every vCPU, and no other. -/
  threads : ∀ v, s.machine.numVcpus ≤ v → s.threads v = .idle
  executed : ∀ e ∈ executionsOf out, e.2 ∈ s.machine.translations ∧ e.1 < s.machine.numVcpus

theorem inv_init (config : PluginConfig) (tier3 sysemu : Bool) (arch : String)
    (host : HostInfo) : Inv (System.init config tier3 sysemu arch host) [] where
  codes := by
    constructor
    · intro k c hc
      exact absurd hc (by simp [code, System.init, Machine.init, PluginState.new])
    · intro k k' c c' hc
      exact absurd hc (by simp [code, System.init, Machine.init, PluginState.new])
  known := by
    intro tr htr
    rcases htr with hin | ⟨v, hv⟩
    · exact absurd hin List.not_mem_nil
    · exact absurd hv (by simp [System.init])
  ticksOnce := by
    intro tr htr
    rcases htr with hin | ⟨v, hv⟩
    · exact absurd hin List.not_mem_nil
    · exact absurd hv (by simp [System.init])
  queues := fun _ op hop => absurd hop List.not_mem_nil
  threads := fun _ _ => rfl
  executed := fun e he => absurd he List.not_mem_nil

/-! ## §3. The steps. -/

/-- **WHAT A STEP CAN BE**: a vCPU comes up, the code cache is flushed, a
translation is entered, or a thread runs a section. -/
theorem step_cases {s s' : System} {e : Event} {out acts : List Action} (hinv : Inv s out)
    (h : step s e = some (s', acts)) :
    (∃ v plugin, e = .vcpuInit v ∧ s.machine.plugin.ensureVcpuState (v + 1) = some plugin
        ∧ s' = ⟨{ s.machine with
            plugin := plugin, numVcpus := max s.machine.numVcpus (v + 1) }, s.threads⟩
        ∧ acts = [])
      ∨ (e = .flush
        ∧ s' = ⟨{ s.machine with liveFrom := s.machine.translations.length }, s.threads⟩
        ∧ acts = [])
      ∨ (∃ v tid started env tr rest, e = .exec v tid started env
        ∧ tr ∈ s.machine.translations ∧ v < s.machine.numVcpus ∧ s.threads v = .idle ∧ NoTick rest
        ∧ s' = ⟨{ s.machine with
            execCounts := ticked s.machine.execCounts tr.tbMeta.execCount v },
          Function.update s.threads v (.ops rest)⟩
        ∧ acts = [.executed v tr])
      ∨ (∃ env v m' th', (e = .run v env ∨ (∃ tb, e = .translate v tb) ∧ s.threads v = .idle)
        ∧ v < s.machine.numVcpus ∧ Effect env v s.machine (s.threads v) m' th' acts
        ∧ s' = ⟨m', Function.update s.threads v th'⟩) := by
  have hidle : ∀ {th : Thread}, th.isIdle = true → th = .idle := by
    intro th hth
    cases th with
    | idle => rfl
    | _ => exact absurd hth (by simp [Thread.isIdle])
  cases e with
  | vcpuInit v =>
      simp only [step] at h
      cases hp : s.machine.plugin.ensureVcpuState (v + 1) with
      | none => simp [hp] at h
      | some plugin =>
          simp only [hp, Option.some.injEq, Prod.mk.injEq] at h
          exact Or.inl ⟨v, plugin, rfl, hp, h.1.symm, h.2.symm⟩
  | translate v tb =>
      simp only [step] at h
      by_cases hok : v < s.machine.numVcpus ∧ (s.threads v).isIdle = true
      · -- calling `vcpu_tb_trans` changes nothing but the thread
        simp only [if_pos hok, Option.some.injEq, System.afterSection, Prod.mk.injEq] at h
        refine Or.inr (Or.inr (Or.inr ⟨⟨[], 0⟩, v, s.machine, .loadFlag tb,
          Or.inr ⟨⟨tb, rfl⟩, hidle hok.2⟩, hok.1, ?_, h.1.symm⟩))
        rw [← h.2, hidle hok.2]
        exact .quiet (Quiet.refl _) rfl rfl (List.Subset.refl _) fun h => Or.inl h
      · rw [if_neg hok] at h
        exact absurd h (by simp)
  | flush =>
      simp only [step, Option.some.injEq, Prod.mk.injEq] at h
      exact Or.inr (Or.inl ⟨rfl, h.1.symm, h.2.symm⟩)
  | exec v tid started env =>
      simp only [step] at h
      cases htr : s.machine.translations[tid]? with
      | none => simp [htr] at h
      | some tr =>
          simp only [htr] at h
          by_cases hok : v < s.machine.numVcpus ∧ (s.threads v).isIdle = true
              ∧ s.machine.liveFrom ≤ tid ∧ started ≤ tr.tb.insns.length
          · have hmem := List.mem_of_getElem? htr
            obtain ⟨rest, hrest, hops⟩ := hinv.ticksOnce tr (Or.inl hmem) started
            simp only [if_pos hok, hops, Option.some.injEq, System.afterSection,
              Prod.mk.injEq] at h
            exact Or.inr (Or.inr (Or.inl ⟨v, tid, started, env, tr, rest, rfl, hmem, hok.1,
              hidle hok.2.1, hrest, h.1.symm, h.2.symm⟩))
          · rw [if_neg hok] at h
            exact absurd h (by simp)
  | run v env =>
      simp only [step] at h
      by_cases hv : v < s.machine.numVcpus
      · simp only [if_pos hv, Option.some.injEq, System.afterSection, Prod.mk.injEq] at h
        refine Or.inr (Or.inr (Or.inr ⟨env, v, _, _, Or.inl rfl, hv, ?_, h.1.symm⟩))
        rw [← h.2]
        exact advance_effect env v s.machine (hinv.queues v)
      · rw [if_neg hv] at h
        exact absurd h (by simp)

/-! ## §4. Sections keep the invariant. -/

theorem code_congr {s s' : PluginState} (h : s'.tbMap = s.tbMap) : code s' = code s := by
  unfold code
  rw [h]

/-- Changing the other fields of an entry keeps the code. -/
theorem code_modified {s s' : PluginState} {key : TbKey} {f : TbMeta → TbMeta}
    (hf : ∀ e, codeOf (f e) = codeOf e)
    (hmap : ∀ k, s'.tbMap.lookup k
      = if k = key then (s.tbMap.lookup key).map f else s.tbMap.lookup k) :
    code s' = code s := by
  funext k
  unfold code
  rw [hmap]
  by_cases hk : k = key
  · rw [if_pos hk, hk]
    cases s.tbMap.lookup key with
    | none => rfl
    | some e => exact congrArg some (hf e)
  · rw [if_neg hk]

theorem openWriter_frame (host : HostInfo) (s : PluginState) :
    ∃ writer, openWriter host s = { s with writer := writer } := by
  unfold openWriter
  by_cases hopen : host.outputOpens = true
  · rw [if_pos hopen]
    exact ⟨_, rfl⟩
  · rw [if_neg hopen]
    exact ⟨s.writer, rfl⟩

theorem laterTiers_frame (s : PluginState) (tb : QemuTb) :
    ∃ directCalls tbMap,
      laterTiers s tb = { s with directCalls := directCalls, tbMap := tbMap } := by
  have htier2 : ∃ directCalls tbMap,
      (if s.config.tier ≥ 2 then Tier2.instrumentTb s tb else s)
        = { s with directCalls := directCalls, tbMap := tbMap } := by
    split
    · exact ⟨_, _, rfl⟩
    · exact ⟨s.directCalls, s.tbMap, rfl⟩
  obtain ⟨directCalls, tbMap, heq⟩ := htier2
  unfold laterTiers
  rw [heq]
  dsimp only
  split
  · exact ⟨_, _, rfl⟩
  · exact ⟨_, _, rfl⟩

section Sections

variable {env : Env} {v : Nat} {m m' : Machine} {th th' : Thread} {acts : List Action}

/-- **Entries change under the lock of `tb_map` only.** -/
theorem Effect.code_cases (h : Effect env v m th m' th' acts) :
    (code m'.plugin = code m.plugin ∧ m'.nextScoreboard = m.nextScoreboard)
      ∨ (∃ tr : Translation, m'.nextScoreboard = m.nextScoreboard + 1
        ∧ Translates m.nextScoreboard m.plugin tr.tb m'.plugin tr.instr tr.tbMeta) := by
  cases h with
  | quiet hm _ _ _ _ => exact Or.inl ⟨code_congr hm.tbMap, hm.nextScoreboard⟩
  | storeWriter tb =>
      obtain ⟨writer, heq⟩ := openWriter_frame m.host m.plugin
      rw [heq]
      exact Or.inl ⟨rfl, rfl⟩
  | mapTb htb h _ =>
      rw [← htb] at h
      exact Or.inr ⟨_, rfl, h⟩
  | laterTiers tr =>
      obtain ⟨_, f, hf, _, hmap⟩ := laterTiers_spec m.plugin tr.tb
      exact Or.inl ⟨code_modified hf hmap, rfl⟩
  | storeNumber key seq rest =>
      refine Or.inl ⟨?_, rfl⟩
      exact code_modified (f := fun e => { e with firstSeenSeq := seq }) (fun _ => rfl)
        fun k => HashMap.lookup_modify ..
  | claimWriter tb _ => exact Or.inl ⟨rfl, rfl⟩
  | takeNumber key _ => exact Or.inl ⟨rfl, rfl⟩
  | drain accs _ _ => exact Or.inl ⟨rfl, rfl⟩
  | addFlushed edges toAddr rest => exact Or.inl ⟨rfl, rfl⟩
  | writeBatch edges toAddr rest => exact Or.inl ⟨rfl, rfl⟩

/-- The section that makes a translation. -/
theorem Effect.made (h : Effect env v m th m' th' acts) {tr : Translation}
    (hth' : th' = .laterTiers tr) :
    Translates m.nextScoreboard m.plugin tr.tb m'.plugin tr.instr tr.tbMeta := by
  cases h with
  | mapTb htb ht _ =>
      rw [Thread.laterTiers.injEq] at hth'
      rw [← hth', htb]
      exact ht
  | quiet _ _ hcalm _ _ =>
      rw [hth'] at hcalm
      exact absurd hcalm (by simp [Thread.calm])
  | _ => exact absurd hth' (by simp)

/-- A scoreboard, once created, is never replaced. -/
theorem Effect.code_mono (h : Effect env v m th m' th' acts) {k : TbKey} {c : TbCode}
    (hc : code m.plugin k = some c) : code m'.plugin k = some c := by
  rcases h.code_cases with ⟨hcode, _⟩ | ⟨tr, _, ht⟩
  · rw [hcode]
    exact hc
  · exact ht.code_mono hc

/-- What a section leaves alone. -/
theorem Effect.frame (h : Effect env v m th m' th' acts) :
    m'.numVcpus = m.numVcpus ∧ m'.host = m.host ∧ m'.plugin.config = m.plugin.config
      ∧ m'.execCounts = m.execCounts ∧ executionsOf acts = [] := by
  cases h with
  | quiet hm _ _ _ _ => exact ⟨hm.numVcpus, hm.host, hm.config, hm.execCounts, rfl⟩
  | storeWriter tb =>
      obtain ⟨writer, heq⟩ := openWriter_frame m.host m.plugin
      rw [heq]
      exact ⟨rfl, rfl, rfl, rfl, rfl⟩
  | mapTb _ ht _ => exact ⟨rfl, rfl, ht.same.config, rfl, rfl⟩
  | laterTiers tr => exact ⟨rfl, rfl, (laterTiers_spec m.plugin tr.tb).1.config, rfl, rfl⟩
  | writeBatch edges toAddr rest =>
      refine ⟨rfl, rfl, rfl, rfl, ?_⟩
      cases m.plugin.writer <;> rfl
  | claimWriter tb _ => exact ⟨rfl, rfl, rfl, rfl, rfl⟩
  | takeNumber key _ => exact ⟨rfl, rfl, rfl, rfl, rfl⟩
  | storeNumber key seq rest => exact ⟨rfl, rfl, rfl, rfl, rfl⟩
  | drain accs _ _ => exact ⟨rfl, rfl, rfl, rfl, rfl⟩
  | addFlushed edges toAddr rest => exact ⟨rfl, rfl, rfl, rfl, rfl⟩

/-- Translations reach the code cache from the thread that made them. -/
theorem Effect.translations (h : Effect env v m th m' th' acts) :
    m'.translations = m.translations
      ∨ ∃ tr, th = .laterTiers tr ∧ m'.translations = m.translations ++ [tr] := by
  cases h with
  | quiet hm _ _ _ _ => exact Or.inl hm.translations
  | laterTiers tr => exact Or.inr ⟨tr, rfl, rfl⟩
  | _ => exact Or.inl rfl

end Sections

section Steps

variable {s : System} {out : List Action} {env : Env} {v : Nat} {m' : Machine} {th' : Thread}
  {acts : List Action}

theorem update_cases {threads : Nat → Thread} {u : Nat} {th x : Thread}
    (h : Function.update threads v th u = x) : (u = v ∧ th = x) ∨ (u ≠ v ∧ threads u = x) := by
  by_cases huv : u = v
  · rw [huv, Function.update_self] at h
    exact Or.inl ⟨huv, h⟩
  · rw [Function.update_of_ne huv] at h
    exact Or.inr ⟨huv, h⟩

/-- A translation that is there after a section was there before, or the
section made it. -/
theorem made_cases (h : Effect env v s.machine (s.threads v) m' th' acts) {tr : Translation}
    (hmade : Made ⟨m', Function.update s.threads v th'⟩ tr) :
    Made s tr ∨ Translates s.machine.nextScoreboard s.machine.plugin tr.tb m'.plugin tr.instr
      tr.tbMeta := by
  rcases hmade with hin | ⟨u, hu⟩
  · rcases h.translations with heq | ⟨tr', hth, heq⟩
    · exact Or.inl (Or.inl (heq ▸ hin))
    · rcases List.mem_append.mp (heq ▸ hin) with hold | hnew
      · exact Or.inl (Or.inl hold)
      · rw [List.mem_singleton.mp hnew]
        exact Or.inl (Or.inr ⟨v, hth⟩)
  · rcases update_cases hu with ⟨_, hth'⟩ | ⟨_, hold⟩
    · exact Or.inr (h.made hth')
    · exact Or.inl (Or.inr ⟨u, hold⟩)

theorem Inv.effect (hinv : Inv s out) (hv : v < s.machine.numVcpus)
    (h : Effect env v s.machine (s.threads v) m' th' acts) :
    Inv ⟨m', Function.update s.threads v th'⟩ (out ++ acts) where
  codes := by
    -- scoreboards change with the mapping of a TB only
    rcases h.code_cases with ⟨hcode, hnext⟩ | ⟨tr, hnext, ht⟩
    · show CodesApart m'.plugin m'.nextScoreboard
      rw [hnext]
      constructor
      · rw [hcode]
        exact hinv.codes.keyed
      · rw [hcode]
        exact hinv.codes.distinct
    · show CodesApart m'.plugin m'.nextScoreboard
      rw [hnext]
      exact hinv.codes.translate ht
  known := by
    intro tr hmade
    rcases made_cases h hmade with hold | ht
    · exact h.code_mono (hinv.known tr hold)
    · show code m'.plugin tr.tb.key = _
      rw [ht.code_eq, if_pos rfl]
  ticksOnce := by
    intro tr hmade
    rcases made_cases h hmade with hold | ht
    · exact hinv.ticksOnce tr hold
    · exact ticksOnce_of_translates ht
  queues := by
    intro u
    by_cases huv : u = v
    · show NoTick (Function.update s.threads v th' u).queue
      rw [huv, Function.update_self]
      exact (hinv.queues v).mono h.queue_subset
    · show NoTick (Function.update s.threads v th' u).queue
      rw [Function.update_of_ne huv]
      exact hinv.queues u
  threads := by
    intro u hu
    have hn : s.machine.numVcpus ≤ u := h.frame.1 ▸ hu
    show Function.update s.threads v th' u = .idle
    rw [Function.update_of_ne (by omega)]
    exact hinv.threads u hn
  executed := by
    intro e he
    -- a section executes nothing, and translations are only added
    obtain ⟨hn, _, _, _, hexec⟩ := h.frame
    rw [executionsOf_append, hexec, List.append_nil] at he
    obtain ⟨hin, hlt⟩ := hinv.executed e he
    refine ⟨?_, by rw [hn]; exact hlt⟩
    rcases h.translations with heq | ⟨tr, _, heq⟩
    · rw [heq]
      exact hin
    · rw [heq]
      exact List.mem_append_left _ hin

theorem Inv.vcpuInit (hinv : Inv s out) {plugin : PluginState}
    (hp : s.machine.plugin.ensureVcpuState (v + 1) = some plugin) :
    Inv ⟨{ s.machine with plugin := plugin, numVcpus := max s.machine.numVcpus (v + 1) },
      s.threads⟩ out := by
  obtain ⟨i, j, heq, _⟩ := ensureVcpuState_eq hp
  have hcode : code plugin = code s.machine.plugin := by
    rw [heq]
    rfl
  refine ⟨⟨?_, ?_⟩, ?_, hinv.ticksOnce, hinv.queues, ?_, ?_⟩
  · rw [hcode]
    exact hinv.codes.keyed
  · rw [hcode]
    exact hinv.codes.distinct
  · intro tr hmade
    rw [hcode]
    exact hinv.known tr hmade
  · intro u hu
    exact hinv.threads u (le_trans (le_max_left ..) hu)
  · intro e he
    obtain ⟨hin, hlt⟩ := hinv.executed e he
    exact ⟨hin, lt_of_lt_of_le hlt (le_max_left ..)⟩

theorem Inv.tick (hinv : Inv s out) (hv : v < s.machine.numVcpus) {tr : Translation}
    (htr : tr ∈ s.machine.translations) {rest : List TbOp} (hrest : NoTick rest)
    (counts : Nat → Nat → UInt64) :
    Inv ⟨{ s.machine with execCounts := counts }, Function.update s.threads v (.ops rest)⟩
      (out ++ [.executed v tr]) := by
  have hmade : ∀ tr', Made ⟨{ s.machine with execCounts := counts },
      Function.update s.threads v (.ops rest)⟩ tr' → Made s tr' := by
    intro tr' hmade
    rcases hmade with hin | ⟨u, hu⟩
    · exact Or.inl hin
    · rcases update_cases hu with ⟨_, hops⟩ | ⟨_, hold⟩
      · exact absurd hops (by simp)
      · exact Or.inr ⟨u, hold⟩
  refine ⟨hinv.codes, fun tr' h => hinv.known tr' (hmade tr' h),
    fun tr' h => hinv.ticksOnce tr' (hmade tr' h), ?_, ?_, ?_⟩
  · intro u
    by_cases huv : u = v
    · show NoTick (Function.update s.threads v (.ops rest) u).queue
      rw [huv, Function.update_self]
      exact hrest
    · show NoTick (Function.update s.threads v (.ops rest) u).queue
      rw [Function.update_of_ne huv]
      exact hinv.queues u
  · intro u hu
    have hn : s.machine.numVcpus ≤ u := hu
    show Function.update s.threads v (.ops rest) u = .idle
    rw [Function.update_of_ne (by omega)]
    exact hinv.threads u hn
  · intro e he
    rw [executionsOf_append] at he
    rcases List.mem_append.mp he with hin | hin
    · exact hinv.executed e hin
    · rw [List.mem_singleton.mp hin]
      exact ⟨htr, hv⟩

theorem Inv.step {s' : System} {e : Event} (hinv : Inv s out)
    (hstep : Threads.step s e = some (s', acts)) : Inv s' (out ++ acts) := by
  rcases step_cases hinv hstep with ⟨v, plugin, _, hp, rfl, rfl⟩ | ⟨_, rfl, rfl⟩
    | ⟨v, _, _, _, tr, rest, _, htr, hv, _, hrest, rfl, rfl⟩
    | ⟨env, v, m', th', _, hv, heff, rfl⟩
  · rw [List.append_nil]
    exact hinv.vcpuInit hp
  · rw [List.append_nil]
    exact ⟨hinv.codes, hinv.known, hinv.ticksOnce, hinv.queues, hinv.threads, hinv.executed⟩
  · exact hinv.tick hv htr hrest _
  · exact hinv.effect hv heff

end Steps

/-! ## §5. Runs. -/

section Runs

variable {config : PluginConfig} {tier3 sysemu : Bool} {arch : String} {host : HostInfo}
  {evs : List Event} {s : System} {out : List Action}

/-- **EVERY RUN** keeps the invariant. -/
theorem runFrom_inv
    (h : runFrom (System.init config tier3 sysemu arch host) evs = some (s, out)) : Inv s out :=
  runSteps_induction Threads.step Inv _ (inv_init config tier3 sysemu arch host)
    (fun _ _ _ _ _ _ hinv hstep => hinv.step hstep) h

/-- **THE INVARIANT RULE FOR RUNS**: a property of states and actions that
every kind of step keeps holds after every run. -/
theorem runFrom_induction (P : System → List Action → Prop)
    (h₀ : P (System.init config tier3 sysemu arch host) [])
    (hinit : ∀ s out v plugin, Inv s out → P s out →
      s.machine.plugin.ensureVcpuState (v + 1) = some plugin →
      P ⟨{ s.machine with plugin := plugin, numVcpus := max s.machine.numVcpus (v + 1) },
        s.threads⟩ out)
    (hflush : ∀ s out, P s out →
      P ⟨{ s.machine with liveFrom := s.machine.translations.length }, s.threads⟩ out)
    (htick : ∀ s out v tr rest, Inv s out → P s out → tr ∈ s.machine.translations →
      v < s.machine.numVcpus → s.threads v = .idle →
      P ⟨{ s.machine with execCounts := ticked s.machine.execCounts tr.tbMeta.execCount v },
        Function.update s.threads v (.ops rest)⟩ (out ++ [.executed v tr]))
    (heffect : ∀ s out env v m' th' acts, Inv s out → P s out → v < s.machine.numVcpus →
      Effect env v s.machine (s.threads v) m' th' acts →
      P ⟨m', Function.update s.threads v th'⟩ (out ++ acts))
    (h : runFrom (System.init config tier3 sysemu arch host) evs = some (s, out)) : P s out := by
  refine runSteps_induction Threads.step P _ h₀ ?_ h
  intro s out e s' acts hreach hp hstep
  obtain ⟨evs, hreach⟩ := hreach
  have hinv := runFrom_inv hreach
  rcases step_cases hinv hstep with ⟨v, plugin, _, hpl, rfl, rfl⟩ | ⟨_, rfl, rfl⟩
    | ⟨v, _, _, _, tr, rest, _, htr, hv, hidle, _, rfl, rfl⟩
    | ⟨env, v, m', th', _, hv, heff, rfl⟩
  · rw [List.append_nil]
    exact hinit s out v plugin hinv hp hpl
  · rw [List.append_nil]
    exact hflush s out hp
  · exact htick s out v tr rest hinv hp htr hv hidle
  · exact heffect s out env v m' th' acts hinv hp hv heff

end Runs

/-- The plugin installed at a tier, streaming or not, other arguments at their
defaults. -/
def installed (tier : UInt8) (topN : UInt64) (streaming : Bool) : System :=
  System.init { PluginConfig.default with tier := tier, topN := topN, streaming := streaming }
    false false "riscv64" exampleHost

/-- The outcome of a possible run. -/
def outcome (s₀ : System) (evs : List Event) : System × List Action :=
  outcomeOf step s₀ evs

theorem runFrom_outcome (s₀ : System) (evs : List Event)
    (h : (runFrom s₀ evs).isSome = true) :
    runFrom s₀ evs = some ((outcome s₀ evs).1, (outcome s₀ evs).2) :=
  runSteps_outcomeOf step s₀ evs h

/-- Thread `v` runs `n` sections. -/
def sections (v n : Nat) : List Event := List.replicate n (.run v ⟨[], 0⟩)

end QemuProfiler.Threads

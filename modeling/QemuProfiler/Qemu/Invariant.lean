/-
  QemuProfiler.Qemu.Invariant
  ───────────────────────────
  **WHAT HOLDS IN EVERY REACHABLE STATE** of the emulator with the plugin
  loaded, whatever the order of vCPU starts, translations, cache flushes and
  executions.

    • `vcpuTbTrans_spec` — what a translation changes,
    • `step_cases` — the four things a step can be,
    • `Inv`, `runFrom_inv` — the invariant,
    • `runFrom_induction` — the rule for everything else that runs keep.
-/
import QemuProfiler.Plugin.Sections
import QemuProfiler.Qemu.ExecSpec

namespace QemuProfiler.Qemu

open QemuProfiler.Lib QemuProfiler.Plugin QemuProfiler.Edges

/-! ## §1. What a translation changes. -/

/-- The part of a TB's metadata that never changes. -/
structure TbCode where
  startAddr : UInt64
  endAddr : UInt64
  nInsns : UInt16
  fallThroughAddr : UInt64
  execCount : Nat
  deriving DecidableEq, Repr

def codeOf (e : TbMeta) : TbCode :=
  ⟨e.startAddr, e.endAddr, e.nInsns, e.fallThroughAddr, e.execCount⟩

/-- The code a TB is entered with when its key is new. -/
def freshCode (tb : QemuTb) (scoreboard : Nat) : TbCode :=
  ⟨tb.vaddr, tb.endAddr, UInt16.ofNat tb.insns.length, tb.fallThroughAddr, scoreboard⟩

/-- Configuration and everything that was recorded is the same. -/
structure SameRecords (s s' : PluginState) : Prop where
  config : s'.config = s.config
  targetArch : s'.targetArch = s.targetArch
  sequenceCounter : s'.sequenceCounter = s.sequenceCounter
  edgeAccumulators : s'.edgeAccumulators = s.edgeAccumulators
  indirectCalls : s'.indirectCalls = s.indirectCalls
  flushedBranchEntries : s'.flushedBranchEntries = s.flushedBranchEntries

theorem SameRecords.trans {s s' s'' : PluginState} (h : SameRecords s s')
    (h' : SameRecords s' s'') : SameRecords s s'' :=
  ⟨h'.config.trans h.config, h'.targetArch.trans h.targetArch,
    h'.sequenceCounter.trans h.sequenceCounter,
    h'.edgeAccumulators.trans h.edgeAccumulators, h'.indirectCalls.trans h.indirectCalls,
    h'.flushedBranchEntries.trans h.flushedBranchEntries⟩

theorem initWriterIfNeeded_same (host : HostInfo) (s : PluginState) :
    SameRecords s (initWriterIfNeeded host s)
      ∧ (initWriterIfNeeded host s).tbMap = s.tbMap := by
  unfold initWriterIfNeeded
  by_cases hinit : s.writerInitialized = true
  · rw [if_pos hinit]
    exact ⟨⟨rfl, rfl, rfl, rfl, rfl, rfl⟩, rfl⟩
  · rw [if_neg hinit]
    dsimp only
    by_cases hopen : host.outputOpens = true
    · rw [if_pos hopen]
      exact ⟨⟨rfl, rfl, rfl, rfl, rfl, rfl⟩, rfl⟩
    · rw [if_neg hopen]
      exact ⟨⟨rfl, rfl, rfl, rfl, rfl, rfl⟩, rfl⟩

theorem symbolOf_same (s : PluginState) (tb : QemuTb) :
    SameRecords s (Tier0.symbolOf s tb).2 ∧ (Tier0.symbolOf s tb).2.tbMap = s.tbMap := by
  obtain ⟨next, ids, symbols, heq⟩ := Tier0.symbolOf_frame s tb
  rw [heq]
  exact ⟨⟨rfl, rfl, rfl, rfl, rfl, rfl⟩, rfl⟩

/-- What a translation of `tb` does: `s` before, `s'` after. -/
structure Translates (scoreboard : Nat) (s : PluginState) (tb : QemuTb) (s' : PluginState)
    (instr : Instrumentation) (tbMeta : TbMeta) : Prop where
  same : SameRecords s s'
  /-- The first-seen callback is registered for a new key only. -/
  instr_eq : instr = instrumentationOf s tb
    (tier0Ops (decide (s.tbMap.lookup tb.key = none)) tb.key tbMeta.execCount) tbMeta
  other : ∀ k, k ≠ tb.key → s'.tbMap.lookup k = s.tbMap.lookup k
  entry : ∃ e, s'.tbMap.lookup tb.key = some e ∧ codeOf e = codeOf tbMeta
    ∧ e.firstSeenSeq = tbMeta.firstSeenSeq
  source : s.tbMap.lookup tb.key = some tbMeta
    ∨ (s.tbMap.lookup tb.key = none ∧ codeOf tbMeta = freshCode tb scoreboard
        ∧ tbMeta.firstSeenSeq = 0)

/-- The section of tier 0 on `tb_map`: look up or create the entry. -/
theorem mapSection_spec (symId : UInt16) (scoreboard : Nat) (s : PluginState) (tb : QemuTb) :
    Translates scoreboard s tb (Tier0.mapSection symId scoreboard s tb).1
      (instrumentationOf s tb (Tier0.mapSection symId scoreboard s tb).2.1
        (Tier0.mapSection symId scoreboard s tb).2.2)
      (Tier0.mapSection symId scoreboard s tb).2.2 := by
  unfold Tier0.mapSection
  cases hk : s.tbMap.lookup tb.key with
  | some existing =>
      -- translated before: the old entry is used and nothing is registered
      refine ⟨⟨rfl, rfl, rfl, rfl, rfl, rfl⟩, ?_, ?_, ⟨existing, hk, rfl, rfl⟩, Or.inl hk⟩
      · simp [hk, tier0Ops]
      · intro k _
        rfl
  | none =>
      refine ⟨⟨rfl, rfl, rfl, rfl, rfl, rfl⟩, ?_, ?_, ?_, Or.inr ⟨hk, rfl, rfl⟩⟩
      · simp [hk, tier0Ops]
      · intro k hne
        exact AList.lookup_insert_ne hne
      · exact ⟨_, AList.lookup_insert .., rfl, rfl⟩

/-- Later tiers only touch other fields of the entry. -/
theorem Translates.then {scoreboard : Nat} {s s' s'' : PluginState} {tb : QemuTb}
    {instr : Instrumentation} {tbMeta : TbMeta} (h : Translates scoreboard s tb s' instr tbMeta)
    (hsame : SameRecords s' s'') (f : TbMeta → TbMeta) (hcode : ∀ e, codeOf (f e) = codeOf e)
    (hseen : ∀ e, (f e).firstSeenSeq = e.firstSeenSeq)
    (hmap : ∀ k, s''.tbMap.lookup k
      = if k = tb.key then (s'.tbMap.lookup tb.key).map f else s'.tbMap.lookup k) :
    Translates scoreboard s tb s'' instr tbMeta := by
  refine ⟨h.same.trans hsame, h.instr_eq, ?_, ?_, h.source⟩
  · intro k hne
    rw [hmap, if_neg hne, h.other k hne]
  · obtain ⟨e, hlook, hce, hse⟩ := h.entry
    refine ⟨f e, ?_, (hcode e).trans hce, (hseen e).trans hse⟩
    rw [hmap, if_pos rfl, hlook]
    rfl

/-- **Tiers 2 and 3** change flags of the entry, if anything. -/
theorem laterTiers_spec (s : PluginState) (tb : QemuTb) :
    SameRecords s (laterTiers s tb)
      ∧ ∃ f : TbMeta → TbMeta, (∀ e, codeOf (f e) = codeOf e)
        ∧ (∀ e, (f e).firstSeenSeq = e.firstSeenSeq)
        ∧ ∀ k, (laterTiers s tb).tbMap.lookup k
          = if k = tb.key then (s.tbMap.lookup tb.key).map f else s.tbMap.lookup k := by
  have hkeep : ∀ (m : HashMap TbKey TbMeta) k,
      m.lookup k = if k = tb.key then (m.lookup tb.key).map id else m.lookup k := by
    intro m k
    rw [Option.map_id_fun, id_eq]
    by_cases hk : k = tb.key
    · rw [if_pos hk, hk]
    · rw [if_neg hk]
  have htier2 : SameRecords s (if s.config.tier ≥ 2 then Tier2.instrumentTb s tb else s)
      ∧ ∃ f : TbMeta → TbMeta, (∀ e, codeOf (f e) = codeOf e)
        ∧ (∀ e, (f e).firstSeenSeq = e.firstSeenSeq)
        ∧ ∀ k, (if s.config.tier ≥ 2 then Tier2.instrumentTb s tb else s).tbMap.lookup k
          = if k = tb.key then (s.tbMap.lookup tb.key).map f else s.tbMap.lookup k := by
    by_cases htier : s.config.tier ≥ 2
    · rw [if_pos htier]
      refine ⟨⟨rfl, rfl, rfl, rfl, rfl, rfl⟩, ?_⟩
      unfold Tier2.instrumentTb
      dsimp only
      -- tier 2 marks a block that ends in an indirect branch
      by_cases hind : Tier2.classOf s.targetArch (tb.insns.getLast tb.nonempty) = .indirect
      · rw [if_pos hind]
        exact ⟨fun m => { m with endsWithIndirect := true }, fun _ => rfl, fun _ => rfl,
          fun k => HashMap.lookup_modify ..⟩
      · rw [if_neg hind]
        exact ⟨id, fun _ => rfl, fun _ => rfl, hkeep s.tbMap⟩
    · rw [if_neg htier]
      exact ⟨⟨rfl, rfl, rfl, rfl, rfl, rfl⟩, id, fun _ => rfl, fun _ => rfl, hkeep s.tbMap⟩
  unfold laterTiers
  generalize (if s.config.tier ≥ 2 then Tier2.instrumentTb s tb else s) = s₂ at htier2
  obtain ⟨hsame, f, hcode, hseen, hmap⟩ := htier2
  dsimp only
  -- tier 3 stores the flags of the coprocessor instructions
  by_cases htier : (s₂.tier3 && decide (s₂.config.tier ≥ 3)) = true
  · rw [if_pos htier]
    refine ⟨hsame.trans ⟨rfl, rfl, rfl, rfl, rfl, rfl⟩,
      fun e => { f e with coprocFlags := Tier3.classifyTb s₂.targetArch tb },
      fun e => hcode e, fun e => hseen e, ?_⟩
    intro k
    rw [HashMap.lookup_modify]
    by_cases hk : k = tb.key
    · rw [if_pos hk, if_pos hk, hmap, if_pos rfl, Option.map_map]
      rfl
    · rw [if_neg hk, if_neg hk, hmap, if_neg hk]
  · rw [if_neg htier]
    exact ⟨hsame, f, hcode, hseen, hmap⟩

/-- Opening the log beforehand makes no difference. -/
theorem Translates.after_same {scoreboard : Nat} {s₀ s s' : PluginState} {tb : QemuTb}
    {instr : Instrumentation} {tbMeta : TbMeta} (h : Translates scoreboard s tb s' instr tbMeta)
    (hsame : SameRecords s₀ s) (hmap : s.tbMap = s₀.tbMap) :
    Translates scoreboard s₀ tb s' instr tbMeta := by
  obtain ⟨hs, hinstr, hother, hentry, hsource⟩ := h
  rw [hmap] at hinstr hsource
  refine ⟨hsame.trans hs, ?_, ?_, hentry, hsource⟩
  · rw [hinstr]
    exact instrumentationOf_congr hsame.config hsame.targetArch _ _ _
  · intro k hne
    rw [hother k hne, hmap]

/-- Tier 0, symbol table included. -/
theorem tier0_spec (scoreboard : Nat) (s : PluginState) (tb : QemuTb) :
    Translates scoreboard s tb (Tier0.instrumentTb scoreboard s tb).1
      (instrumentationOf s tb (Tier0.instrumentTb scoreboard s tb).2.1
        (Tier0.instrumentTb scoreboard s tb).2.2)
      (Tier0.instrumentTb scoreboard s tb).2.2 := by
  obtain ⟨hsame, htb⟩ := symbolOf_same s tb
  have hmap := (mapSection_spec (Tier0.symbolOf s tb).1 scoreboard (Tier0.symbolOf s tb).2
    tb).after_same hsame htb
  rw [instrumentationOf_congr hsame.config hsame.targetArch] at hmap
  exact hmap

/-- **A TRANSLATION**, all tiers. -/
theorem vcpuTbTrans_spec (host : HostInfo) (scoreboard : Nat) (s : PluginState) (tb : QemuTb) :
    Translates scoreboard s tb (vcpuTbTrans host scoreboard s tb).1
      (vcpuTbTrans host scoreboard s tb).2.1 (vcpuTbTrans host scoreboard s tb).2.2 := by
  obtain ⟨hinit, htb⟩ := initWriterIfNeeded_same host s
  have h0 := (tier0_spec scoreboard (initWriterIfNeeded host s) tb).after_same hinit htb
  rw [vcpuTbTrans_eq]
  dsimp only
  generalize Tier0.instrumentTb scoreboard (initWriterIfNeeded host s) tb = r at h0
  obtain ⟨s₁, ops, tbMeta⟩ := r
  dsimp only at h0 ⊢
  -- what the later tiers register does not depend on the entry
  have hinstr : instrumentationOf s₁ tb ops tbMeta
      = instrumentationOf (initWriterIfNeeded host s) tb ops tbMeta :=
    instrumentationOf_congr (h0.same.config.trans hinit.config.symm)
      (h0.same.targetArch.trans hinit.targetArch.symm) _ _ _
  rw [hinstr]
  obtain ⟨hsame, f, hcode, hseen, hmap⟩ := laterTiers_spec s₁ tb
  exact h0.then hsame f hcode hseen hmap

/-! ## §2. The steps. -/

/-- **WHAT A STEP CAN BE.** -/
theorem step_cases {m m' : Machine} {e : Event} {out : List ExecRecord}
    (h : step m e = some (m', out)) :
    (∃ v plugin, e = .vcpuInit v ∧ m.plugin.ensureVcpuState (v + 1) = some plugin
        ∧ m' = { m with plugin := plugin, numVcpus := max m.numVcpus (v + 1) } ∧ out = [])
      ∨ (∃ tb, e = .translate tb ∧ m' = translate m tb ∧ out = [])
      ∨ (e = .flush ∧ m' = { m with liveFrom := m.translations.length } ∧ out = [])
      ∨ (∃ v tid started env tr, e = .exec v tid started env ∧ tr ∈ m.translations
          ∧ v < m.numVcpus ∧ started ≤ tr.tb.insns.length
          ∧ m' = (execTb env v m tr started).1
          ∧ out = [⟨v, tr, started, (execTb env v m tr started).2⟩]) := by
  cases e with
  | vcpuInit v =>
      unfold step at h
      cases hp : m.plugin.ensureVcpuState (v + 1) with
      | none => simp [hp] at h
      | some plugin =>
          simp only [hp, Option.some.injEq, Prod.mk.injEq] at h
          exact Or.inl ⟨v, plugin, rfl, hp, h.1.symm, h.2.symm⟩
  | translate tb =>
      simp only [step, Option.some.injEq, Prod.mk.injEq] at h
      exact Or.inr (Or.inl ⟨tb, rfl, h.1.symm, h.2.symm⟩)
  | flush =>
      simp only [step, Option.some.injEq, Prod.mk.injEq] at h
      exact Or.inr (Or.inr (Or.inl ⟨rfl, h.1.symm, h.2.symm⟩))
  | exec v tid started env =>
      unfold step at h
      cases htr : m.translations[tid]? with
      | none => simp [htr] at h
      | some tr =>
          simp only [htr] at h
          -- a vCPU runs only blocks of the current cache, and no more than their insns
          by_cases hok : v < m.numVcpus ∧ m.liveFrom ≤ tid ∧ started ≤ tr.tb.insns.length
          · simp only [if_pos hok, Option.some.injEq, Prod.mk.injEq] at h
            exact Or.inr (Or.inr (Or.inr ⟨v, tid, started, env, tr, rfl,
              List.mem_of_getElem? htr, hok.1, hok.2.2, h.1.symm, h.2.symm⟩))
          · rw [if_neg hok] at h
            exact absurd h (by simp)

/-! ## §3. The invariant. -/

/-- The fixed part of the entry under a key. -/
def code (s : PluginState) (k : TbKey) : Option TbCode := (s.tbMap.lookup k).map codeOf

theorem code_of_lookup {s : PluginState} {k : TbKey} {e : TbMeta}
    (h : s.tbMap.lookup k = some e) : code s k = some (codeOf e) := by
  unfold code
  rw [h]
  rfl

theorem lookup_of_code {s : PluginState} {k : TbKey} {c : TbCode} (h : code s k = some c) :
    ∃ e, s.tbMap.lookup k = some e ∧ codeOf e = c :=
  Option.map_eq_some_iff.mp h

structure Inv (config : PluginConfig) (arch : Arch) (m : Machine) (rs : List ExecRecord) :
    Prop where
  config_eq : m.plugin.config = config
  arch_eq : m.plugin.targetArch = arch
  instrumented : ∀ tr ∈ m.translations, Instrumented m.plugin tr
  /-- The metadata a translation was instrumented with is that of its entry. -/
  known : ∀ tr ∈ m.translations, code m.plugin tr.tb.key = some (codeOf tr.tbMeta)
  keyed : ∀ k c, code m.plugin k = some c → c.startAddr = k.startAddr ∧ c.nInsns = k.nInsns
    ∧ c.execCount < m.nextScoreboard
  /-- Every entry comes from a translation. -/
  translated : ∀ k c, code m.plugin k = some c →
    ∃ tr ∈ m.translations, tr.tb.key = k ∧ codeOf tr.tbMeta = c
  /-- Every entry has an exec-count scoreboard of its own. -/
  distinct : ∀ k k' c c', code m.plugin k = some c → code m.plugin k' = some c' →
    c.execCount = c'.execCount → k = k'
  executed : ∀ r ∈ rs, r.tr ∈ m.translations ∧ r.vcpu < m.numVcpus
  slots : m.numVcpus ≤ m.plugin.edgeAccumulators.length
  callSlots : 2 ≤ config.tier → m.numVcpus ≤ m.plugin.indirectCalls.length

theorem Inv.tier_le {config : PluginConfig} {arch : Arch} {m : Machine} {rs : List ExecRecord}
    (h : Inv config arch m rs) {tier : UInt8} (htier : tier ≤ config.tier) :
    tier ≤ m.plugin.config.tier := by
  rw [h.config_eq]
  exact htier

theorem inv_init (config : PluginConfig) (tier3 sysemu : Bool) (arch : String)
    (host : HostInfo) :
    Inv config (Arch.fromName arch) (Machine.init config tier3 sysemu arch host) [] where
  config_eq := rfl
  arch_eq := rfl
  instrumented := by
    intro tr htr
    exact absurd htr (List.not_mem_nil)
  known := by
    intro tr htr
    exact absurd htr (List.not_mem_nil)
  keyed := by
    intro k c hc
    exact absurd hc (by simp [code, Machine.init, PluginState.new])
  translated := by
    intro k c hc
    exact absurd hc (by simp [code, Machine.init, PluginState.new])
  distinct := by
    intro k k' c c' hc
    exact absurd hc (by simp [code, Machine.init, PluginState.new])
  executed := by
    intro r hr
    exact absurd hr (List.not_mem_nil)
  slots := Nat.zero_le _
  callSlots := fun _ => Nat.zero_le _

section Steps

variable {config : PluginConfig} {arch : Arch} {m : Machine} {rs : List ExecRecord}

/-- Growing to `n` slots gives at least `n` of them. -/
theorem growTo_length {α : Type} {n : Nat} {fresh : α} {slots slots' : List α}
    (h : growTo n fresh slots = some slots') :
    n ≤ slots'.length ∧ slots.length ≤ slots'.length
      ∧ ∃ k, slots' = slots ++ List.replicate k fresh := by
  unfold growTo at h
  by_cases hlt : slots.length < n
  · rw [if_pos hlt] at h
    by_cases hmax : n ≤ maxVcpus
    · rw [if_pos hmax, Option.some.injEq] at h
      rw [← h, List.length_append, List.length_replicate]
      exact ⟨by omega, by omega, _, rfl⟩
    · rw [if_neg hmax] at h
      exact absurd h (by simp)
  · rw [if_neg hlt, Option.some.injEq] at h
    rw [← h]
    exact ⟨by omega, le_refl _, 0, by simp⟩

/-- A new vCPU adds empty slots. -/
theorem ensureVcpuState_eq {s s' : PluginState} {n : Nat} (h : s.ensureVcpuState n = some s') :
    ∃ i j, s' = { s with
        edgeAccumulators := s.edgeAccumulators
          ++ List.replicate i (EdgeAccumulator.new s.config.topN s.config.streaming)
        indirectCalls := s.indirectCalls ++ List.replicate j ∅ }
      ∧ n ≤ s'.edgeAccumulators.length
      ∧ (2 ≤ s.config.tier → n ≤ s'.indirectCalls.length) := by
  unfold PluginState.ensureVcpuState at h
  simp only [Option.bind_eq_bind, Option.bind_eq_some_iff] at h
  obtain ⟨accs, haccs, h⟩ := h
  obtain ⟨hn, _, i, rfl⟩ := growTo_length haccs
  by_cases htier : 2 ≤ s.config.tier
  · rw [if_pos htier, Option.bind_eq_some_iff] at h
    obtain ⟨calls, hcalls, heq⟩ := h
    obtain ⟨hn', _, j, rfl⟩ := growTo_length hcalls
    rw [← Option.some.inj heq]
    exact ⟨i, j, rfl, hn, fun _ => hn'⟩
  · rw [if_neg htier, Option.bind_some] at h
    rw [← Option.some.inj h]
    exact ⟨i, 0, by simp, hn, fun h2 => absurd h2 htier⟩

/-- Steps that translate nothing: only the records and the slots are at
stake. -/
theorem Inv.frame (h : Inv config arch m rs) {m' : Machine} {rs' : List ExecRecord}
    (hconf : m'.plugin.config = m.plugin.config)
    (harch : m'.plugin.targetArch = m.plugin.targetArch)
    (hcode : code m'.plugin = code m.plugin) (htrs : m'.translations = m.translations)
    (hnext : m'.nextScoreboard = m.nextScoreboard)
    (hexec : ∀ r ∈ rs', r.tr ∈ m.translations ∧ r.vcpu < m'.numVcpus)
    (hslots : m'.numVcpus ≤ m'.plugin.edgeAccumulators.length)
    (hcalls : 2 ≤ config.tier → m'.numVcpus ≤ m'.plugin.indirectCalls.length) :
    Inv config arch m' rs' where
  config_eq := hconf.trans h.config_eq
  arch_eq := harch.trans h.arch_eq
  instrumented := by
    intro tr htr
    rw [htrs] at htr
    exact (h.instrumented tr htr).congr hconf.symm harch.symm
  known := by
    rw [htrs, hcode]
    exact h.known
  keyed := by
    rw [hcode, hnext]
    exact h.keyed
  translated := by
    rw [htrs, hcode]
    exact h.translated
  distinct := by
    rw [hcode]
    exact h.distinct
  executed := by
    rw [htrs]
    exact hexec
  slots := hslots
  callSlots := hcalls

theorem Inv.vcpuInit (h : Inv config arch m rs) {v : Nat} {plugin : PluginState}
    (hp : m.plugin.ensureVcpuState (v + 1) = some plugin) :
    Inv config arch { m with plugin := plugin, numVcpus := max m.numVcpus (v + 1) } rs := by
  obtain ⟨i, j, heq, hn, hn'⟩ := ensureVcpuState_eq hp
  have hslots := h.slots
  refine h.frame (by rw [heq]) (by rw [heq]) (by rw [heq]; rfl) rfl rfl ?_ ?_ ?_
  · intro r hr
    exact ⟨(h.executed r hr).1, lt_of_lt_of_le (h.executed r hr).2 (le_max_left ..)⟩
  · -- the old slots cover the old vCPUs, the new ones cover `v`
    have hlen : m.plugin.edgeAccumulators.length ≤ plugin.edgeAccumulators.length := by
      rw [heq, List.length_append]
      omega
    show max m.numVcpus (v + 1) ≤ plugin.edgeAccumulators.length
    omega
  · intro h2
    have hcalls := h.callSlots h2
    have hnew := hn' (by rw [h.config_eq]; exact h2)
    have hlen : m.plugin.indirectCalls.length ≤ plugin.indirectCalls.length := by
      rw [heq, List.length_append]
      omega
    show max m.numVcpus (v + 1) ≤ plugin.indirectCalls.length
    omega

/-- A translation keeps the entries, or adds one under the new key. -/
theorem Translates.code_eq {scoreboard : Nat} {s s' : PluginState} {tb : QemuTb}
    {instr : Instrumentation} {tbMeta : TbMeta} (h : Translates scoreboard s tb s' instr tbMeta)
    (k : TbKey) :
    code s' k = if k = tb.key then some (codeOf tbMeta) else code s k := by
  unfold code
  by_cases hk : k = tb.key
  · obtain ⟨e, hlook, hce, _⟩ := h.entry
    rw [if_pos hk, hk, hlook, Option.map_some, hce]
  · rw [if_neg hk, h.other k hk]

/-- An old entry survives a translation. -/
theorem Translates.code_mono {scoreboard : Nat} {s s' : PluginState} {tb : QemuTb}
    {instr : Instrumentation} {tbMeta : TbMeta} (h : Translates scoreboard s tb s' instr tbMeta)
    {k : TbKey} {c : TbCode} (hc : code s k = some c) : code s' k = some c := by
  rw [h.code_eq]
  by_cases hk : k = tb.key
  · rw [if_pos hk]
    unfold code at hc
    rw [hk] at hc
    rcases h.source with hold | ⟨hnone, _, _⟩
    · rw [hold] at hc
      exact hc
    · rw [hnone] at hc
      exact absurd hc (by simp)
  · rw [if_neg hk, hc]

/-- The entry of a translation: an old one, or a fresh one with the next
scoreboard. -/
theorem Translates.entry_cases {scoreboard : Nat} {s s' : PluginState} {tb : QemuTb}
    {instr : Instrumentation} {tbMeta : TbMeta}
    (h : Translates scoreboard s tb s' instr tbMeta) :
    code s tb.key = some (codeOf tbMeta)
      ∨ (code s tb.key = none ∧ codeOf tbMeta = freshCode tb scoreboard) := by
  unfold code
  rcases h.source with hold | ⟨hnone, hfresh, _⟩
  · exact Or.inl (by rw [hold]; rfl)
  · exact Or.inr ⟨by rw [hnone]; rfl, hfresh⟩

/-- Entries are stored under their own key, each with an exec-count scoreboard
of its own, all of them handed out before `next`. -/
structure CodesApart (s : PluginState) (next : Nat) : Prop where
  keyed : ∀ k c, code s k = some c → c.startAddr = k.startAddr ∧ c.nInsns = k.nInsns
    ∧ c.execCount < next
  distinct : ∀ k k' c c', code s k = some c → code s k' = some c' →
    c.execCount = c'.execCount → k = k'

section Translate

variable {s s' : PluginState} {next : Nat} {tb : QemuTb} {instr : Instrumentation}
  {tbMeta : TbMeta}

theorem CodesApart.keyed_entry (h : CodesApart s next)
    (ht : Translates next s tb s' instr tbMeta) :
    (codeOf tbMeta).startAddr = tb.key.startAddr ∧ (codeOf tbMeta).nInsns = tb.key.nInsns
      ∧ (codeOf tbMeta).execCount < next + 1 := by
  rcases ht.entry_cases with hold | ⟨_, hfresh⟩
  · obtain ⟨h1, h2, h3⟩ := h.keyed _ _ hold
    exact ⟨h1, h2, by omega⟩
  · rw [hfresh]
    exact ⟨rfl, rfl, Nat.lt_succ_self _⟩

/-- The entries stay apart: a new one has a scoreboard that no old one has. -/
theorem CodesApart.distinct_translate (h : CodesApart s next)
    (ht : Translates next s tb s' instr tbMeta) {k k' : TbKey}
    {c c' : TbCode} (hc : code s' k = some c) (hc' : code s' k' = some c')
    (hsb : c.execCount = c'.execCount) : k = k' := by
  rcases ht.entry_cases with hold | ⟨_, hfresh⟩
  · -- nothing new: the entries are as before
    have hsame : ∀ k, code s' k = code s k := by
      intro k
      rw [ht.code_eq]
      by_cases hk : k = tb.key
      · rw [if_pos hk, hk, hold]
      · rw [if_neg hk]
    rw [hsame] at hc hc'
    exact h.distinct k k' c c' hc hc' hsb
  · have hnew : ∀ c, code s' tb.key = some c → c.execCount = next := by
      intro c hc
      rw [ht.code_eq, if_pos rfl, Option.some.injEq] at hc
      rw [← hc, hfresh]
      rfl
    have hother : ∀ k c, k ≠ tb.key → code s' k = some c → code s k = some c := by
      intro k c hk hc
      rwa [ht.code_eq, if_neg hk] at hc
    by_cases hk : k = tb.key
    · by_cases hk' : k' = tb.key
      · rw [hk, hk']
      · -- an old scoreboard is below the next one
        have h1 := hnew c (hk ▸ hc)
        have h2 := (h.keyed k' c' (hother k' c' hk' hc')).2.2
        omega
    · by_cases hk' : k' = tb.key
      · have h1 := hnew c' (hk' ▸ hc')
        have h2 := (h.keyed k c (hother k c hk hc)).2.2
        omega
      · exact h.distinct k k' c c' (hother k c hk hc) (hother k' c' hk' hc') hsb

/-- **A translation keeps the entries apart.** -/
theorem CodesApart.translate (h : CodesApart s next)
    (ht : Translates next s tb s' instr tbMeta) : CodesApart s' (next + 1) where
  keyed := by
    intro k c hc
    rw [ht.code_eq] at hc
    by_cases hk : k = tb.key
    · rw [if_pos hk, Option.some.injEq] at hc
      rw [← hc, hk]
      exact h.keyed_entry ht
    · rw [if_neg hk] at hc
      obtain ⟨h1, h2, h3⟩ := h.keyed k c hc
      exact ⟨h1, h2, Nat.lt_succ_of_lt h3⟩
  distinct := fun _ _ _ _ hc hc' hsb => h.distinct_translate ht hc hc' hsb

end Translate

theorem Inv.codes (h : Inv config arch m rs) : CodesApart m.plugin m.nextScoreboard :=
  ⟨h.keyed, h.distinct⟩

theorem Inv.translate (h : Inv config arch m rs) (tb : QemuTb) :
    Inv config arch (Qemu.translate m tb) rs := by
  have ht := vcpuTbTrans_spec m.host m.nextScoreboard m.plugin tb
  unfold Qemu.translate
  generalize vcpuTbTrans m.host m.nextScoreboard m.plugin tb = r at ht
  obtain ⟨s', instr, tbMeta⟩ := r
  dsimp only at ht ⊢
  have hcodes := h.codes.translate ht
  refine ⟨ht.same.config.trans h.config_eq, ht.same.targetArch.trans h.arch_eq,
    ?_, ?_, hcodes.keyed, ?_, hcodes.distinct, ?_, ?_, ?_⟩
  · intro tr htr
    rcases List.mem_append.mp htr with htr | htr
    · exact (h.instrumented tr htr).congr ht.same.config.symm ht.same.targetArch.symm
    · rw [List.mem_singleton.mp htr]
      refine Instrumented.congr ⟨?_, (h.codes.keyed_entry ht).1⟩ ht.same.config.symm ht.same.targetArch.symm
      rw [ht.instr_eq, registers_eq]
  · intro tr htr
    rcases List.mem_append.mp htr with htr | htr
    · exact ht.code_mono (h.known tr htr)
    · rw [List.mem_singleton.mp htr, ht.code_eq]
      exact if_pos rfl
  -- an entry of the map is the new one, or one from before
  · intro k c hc
    rw [ht.code_eq] at hc
    by_cases hk : k = tb.key
    · rw [if_pos hk, Option.some.injEq] at hc
      exact ⟨⟨tb, tbMeta, instr⟩, List.mem_append_right _ (List.mem_singleton_self _), hk.symm, hc⟩
    · rw [if_neg hk] at hc
      obtain ⟨tr, htr, hkey⟩ := h.translated k c hc
      exact ⟨tr, List.mem_append_left _ htr, hkey⟩
  · intro r hr
    exact ⟨List.mem_append_left _ (h.executed r hr).1, (h.executed r hr).2⟩
  · rw [ht.same.edgeAccumulators]
    exact h.slots
  · rw [ht.same.indirectCalls]
    exact h.callSlots

/-- The first-seen callback writes no other field of an entry. -/
theorem code_firstSeenCb (s : PluginState) (key : TbKey) : code (s.firstSeenCb key) = code s := by
  funext k
  unfold code PluginState.firstSeenCb
  dsimp only
  rw [HashMap.lookup_modify]
  by_cases hk : k = key
  · rw [if_pos hk, hk]
    cases s.tbMap.lookup key <;> rfl
  · rw [if_neg hk]

theorem code_afterSeen (m : Machine) (v : Nat) (tr : Translation) :
    code (afterSeen m v tr) = code m.plugin := by
  unfold afterSeen
  split
  · exact code_firstSeenCb _ _
  · rfl

/-- An execution keeps code and slots. -/
theorem pluginAfter_frame (env : Env) (v : Nat) (m : Machine) (tr : Translation) :
    (pluginAfter env v m tr).targetArch = m.plugin.targetArch
      ∧ code (pluginAfter env v m tr) = code m.plugin
      ∧ (pluginAfter env v m tr).edgeAccumulators.length = m.plugin.edgeAccumulators.length
      ∧ (pluginAfter env v m tr).indirectCalls.length = m.plugin.indirectCalls.length := by
  obtain ⟨accs, flushed, writer, maps, heq, haccs, hmaps⟩ := pluginAfter_eq env v m tr
  have hseen : (afterSeen m v tr).targetArch = m.plugin.targetArch
      ∧ (afterSeen m v tr).edgeAccumulators = m.plugin.edgeAccumulators
      ∧ (afterSeen m v tr).indirectCalls = m.plugin.indirectCalls := by
    unfold afterSeen
    split <;> exact ⟨rfl, rfl, rfl⟩
  rw [heq]
  refine ⟨hseen.1, code_afterSeen m v tr, ?_, ?_⟩
  · rw [← hseen.2.1]
    exact haccs
  · rw [← hseen.2.2]
    exact hmaps

theorem Inv.exec (h : Inv config arch m rs) (env : Env) {v : Nat} {tr : Translation}
    {started : Nat} (htr : tr ∈ m.translations) (hv : v < m.numVcpus)
    (hs : started ≤ tr.tb.insns.length) :
    Inv config arch (execTb env v m tr started).1
      (rs ++ [⟨v, tr, started, (execTb env v m tr started).2⟩]) := by
  obtain ⟨harch, hcode, hlen, hlen'⟩ := pluginAfter_frame env v m tr
  rw [execTb_eq env v m (h.instrumented tr htr) hs]
  refine h.frame (config_pluginAfter env v m tr) harch hcode rfl rfl ?_ ?_ ?_
  · intro r hr
    rcases List.mem_append.mp hr with hr | hr
    · exact h.executed r hr
    · rw [List.mem_singleton.mp hr]
      exact ⟨htr, hv⟩
  · rw [hlen]
    exact h.slots
  · rw [hlen']
    exact h.callSlots

theorem Inv.step (h : Inv config arch m rs) {e : Event} {m' : Machine} {out : List ExecRecord}
    (hstep : Qemu.step m e = some (m', out)) : Inv config arch m' (rs ++ out) := by
  rcases step_cases hstep with ⟨v, plugin, _, hp, rfl, rfl⟩ | ⟨tb, _, rfl, rfl⟩ | ⟨_, rfl, rfl⟩
    | ⟨v, tid, started, env, tr, _, htr, hv, hs, rfl, rfl⟩
  · rw [List.append_nil]
    exact h.vcpuInit hp
  · rw [List.append_nil]
    exact h.translate tb
  · rw [List.append_nil]
    exact h.frame rfl rfl rfl rfl rfl h.executed h.slots h.callSlots
  · exact h.exec env htr hv hs

end Steps

/-! ## §4. Runs. -/

/-- **EVERY RUN** keeps the invariant. -/
theorem runFrom_inv {config : PluginConfig} {tier3 sysemu : Bool} {arch : String}
    {host : HostInfo} {evs : List Event} {m : Machine} {rs : List ExecRecord}
    (h : runFrom (Machine.init config tier3 sysemu arch host) evs = some (m, rs)) :
    Inv config (Arch.fromName arch) m rs :=
  runSteps_induction Qemu.step (Inv config (Arch.fromName arch)) _
    (inv_init config tier3 sysemu arch host) (fun _ _ _ _ _ _ hinv hstep => hinv.step hstep) h

/-- **THE INVARIANT RULE FOR RUNS**: a property of states and records that
every kind of step keeps holds after every run.  A step may use what is known
of the state it starts from. -/
theorem runFrom_induction {config : PluginConfig} {tier3 sysemu : Bool} {arch : String}
    {host : HostInfo} (P : Machine → List ExecRecord → Prop)
    (h₀ : P (Machine.init config tier3 sysemu arch host) [])
    (hinit : ∀ m rs v plugin, P m rs → m.plugin.ensureVcpuState (v + 1) = some plugin →
      P { m with plugin := plugin, numVcpus := max m.numVcpus (v + 1) } rs)
    (htrans : ∀ m rs tb,
      (∃ evs, runFrom (Machine.init config tier3 sysemu arch host) evs = some (m, rs)) → P m rs →
      P (translate m tb) rs)
    (hflush : ∀ m rs, P m rs → P { m with liveFrom := m.translations.length } rs)
    (hexec : ∀ m rs env v tr started,
      (∃ evs, runFrom (Machine.init config tier3 sysemu arch host) evs = some (m, rs)) → P m rs →
      tr ∈ m.translations → v < m.numVcpus → started ≤ tr.tb.insns.length →
      P { m with
            plugin := pluginAfter env v m tr
            execCounts := ticked m.execCounts tr.tbMeta.execCount v
            vcpus := Function.update m.vcpus v (vcpuAfter m.plugin tr started (m.vcpus v)) }
        (rs ++ [⟨v, tr, started, emittedAt env v m tr⟩]))
    {evs : List Event} {m : Machine} {rs : List ExecRecord}
    (h : runFrom (Machine.init config tier3 sysemu arch host) evs = some (m, rs)) :
    P m rs := by
  refine runSteps_induction Qemu.step P _ h₀ ?_ h
  intro m rs e m' out hreach hp hstep
  obtain ⟨evs, hreach⟩ := hreach
  rcases step_cases hstep with ⟨v, plugin, _, hpl, rfl, rfl⟩ | ⟨tb, _, rfl, rfl⟩ | ⟨_, rfl, rfl⟩
    | ⟨v, tid, started, env, tr, _, htr, hv, hs, rfl, rfl⟩
  · rw [List.append_nil]
    exact hinit m rs v plugin hp hpl
  · rw [List.append_nil]
    exact htrans m rs tb ⟨evs, hreach⟩ hp
  · rw [List.append_nil]
    exact hflush m rs hp
  · -- the reached state satisfies `Inv`, so the execution has its closed form
    rw [execTb_eq env v m ((runFrom_inv hreach).instrumented tr htr) hs]
    exact hexec m rs env v tr started ⟨evs, hreach⟩ hp htr hv hs

end QemuProfiler.Qemu

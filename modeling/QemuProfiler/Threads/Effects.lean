/-
  QemuProfiler.Threads.Effects
  ────────────────────────────
  **WHAT A SECTION CAN DO** to the shared state (`advance_effect`).

  Most sections are QUIET: they touch a vCPU's own data, or tables that only
  the exit handler reads.  The others are listed one by one, so an invariant
  of runs needs one case for each of them and one for all quiet sections.
-/
import QemuProfiler.Qemu.Invariant
import QemuProfiler.Threads.System

namespace QemuProfiler.Threads

open QemuProfiler.Lib QemuProfiler.Plugin QemuProfiler.Qemu

/-! ## §1. Views of a thread. -/

/-- The registrations the thread has still to run. -/
def Thread.queue : Thread → List TbOp
  | .ops rest => rest
  | .storeNumber _ _ rest => rest
  | .addFlushed _ _ rest => rest
  | .writeBatch _ _ rest => rest
  | .pendingCall _ rest => rest
  | _ => []

/-- Nothing of shared interest is in the thread's hands. -/
def Thread.calm : Thread → Bool
  | .storeWriter _ => false
  | .laterTiers _ => false
  | .storeNumber _ _ _ => false
  | .addFlushed _ _ _ => false
  | .writeBatch _ _ _ => false
  | _ => true

/-- The thread has got past `init_writer_if_needed`, or into its last part. -/
def Thread.pastFlag : Thread → Bool
  | .idle => false
  | .loadFlag _ => false
  | .exchangeFlag _ => false
  | _ => true

/-- The registration works on an exec count. -/
def ticks : TbOp → Bool
  | .inline (.add (.execCount _) _) => true
  | .inline (.store (.execCount _) _) => true
  | _ => false

/-- **Only the first registration of an execution counts.** -/
def NoTick (ops : List TbOp) : Prop := ∀ op ∈ ops, ticks op = false

theorem NoTick.mono {ops ops' : List TbOp} (h : NoTick ops) (hsub : ops' ⊆ ops) : NoTick ops' :=
  fun op hop => h op (hsub hop)

/-! ## §2. Quiet sections. -/

/-- Nothing that several threads share has changed, apart from tables that
only the exit handler reads. -/
structure Quiet (m m' : Machine) : Prop where
  config : m'.plugin.config = m.plugin.config
  tbMap : m'.plugin.tbMap = m.plugin.tbMap
  sequenceCounter : m'.plugin.sequenceCounter = m.plugin.sequenceCounter
  flushedBranchEntries : m'.plugin.flushedBranchEntries = m.plugin.flushedBranchEntries
  writer : m'.plugin.writer = m.plugin.writer
  writerInitialized : m'.plugin.writerInitialized = m.plugin.writerInitialized
  host : m'.host = m.host
  execCounts : m'.execCounts = m.execCounts
  numVcpus : m'.numVcpus = m.numVcpus
  nextScoreboard : m'.nextScoreboard = m.nextScoreboard
  translations : m'.translations = m.translations

theorem Quiet.refl (m : Machine) : Quiet m m :=
  ⟨rfl, rfl, rfl, rfl, rfl, rfl, rfl, rfl, rfl, rfl, rfl⟩

/-- An inline operation writes to its vCPU and to the counts. -/
theorem runInline_frame (v : Nat) (m : Machine) (op : InlineOp) :
    ∃ vcpus counts, runInline v m op = { m with vcpus := vcpus, execCounts := counts } := by
  cases op with
  | add slot imm => cases slot <;> exact ⟨_, _, rfl⟩
  | store slot imm => cases slot <;> exact ⟨_, _, rfl⟩

theorem quiet_runInline (v : Nat) (m : Machine) {op : InlineOp}
    (h : ticks (.inline op) = false) : Quiet m (runInline v m op) := by
  cases op with
  | add slot imm =>
      cases slot with
      | execCount sb => exact absurd h (by simp [ticks])
      | _ => constructor <;> rfl
  | store slot imm =>
      cases slot with
      | execCount sb => exact absurd h (by simp [ticks])
      | _ => constructor <;> rfl

theorem quiet_symbolOf (m : Machine) (tb : QemuTb) :
    Quiet m (Machine.withPlugin m (Tier0.symbolOf m.plugin tb).2) := by
  obtain ⟨next, ids, symbols, heq⟩ := Tier0.symbolOf_frame m.plugin tb
  rw [heq]
  constructor <;> rfl

theorem quiet_recordIndirectCall (m : Machine) (v : Nat) (callsite target : UInt64) :
    Quiet m (Machine.withPlugin m (m.plugin.recordIndirectCall v callsite target)) := by
  unfold PluginState.recordIndirectCall
  cases m.plugin.indirectCalls[v]? with
  | none => exact Quiet.refl m
  | some vcpuMap => constructor <;> rfl

/-- A record leaves at least its own edge in a streaming accumulator. -/
theorem drain_record_ne_nil (env : Env) (acc : EdgeAccumulator) (threshold fromAddr toAddr : UInt64)
    (h : (acc.record env.iter fromAddr toAddr).shouldFlush threshold = true) :
    ((acc.record env.iter fromAddr toAddr).drain env.iter).1 ≠ [] := by
  cases acc with
  | topN table => exact absurd h (by simp [EdgeAccumulator.record, EdgeAccumulator.shouldFlush])
  | streaming map =>
      rw [(EdgeAccumulator.drain_eq env.iter _).1]
      show ((map.edges.bump ⟨fromAddr, toAddr⟩ 1).iter env.iter).map toTriple ≠ []
      intro hnil
      have hitems : (map.edges.bump ⟨fromAddr, toAddr⟩ 1).items = [] := by
        have hperm := shuffle_perm env.iter (map.edges.bump ⟨fromAddr, toAddr⟩ 1).items
        have hiter : shuffle env.iter (map.edges.bump ⟨fromAddr, toAddr⟩ 1).items = [] :=
          List.map_eq_nil_iff.mp hnil
        rw [hiter] at hperm
        exact hperm.symm.eq_nil
      have hmem : (⟨⟨fromAddr, toAddr⟩, (map.edges.lookup ⟨fromAddr, toAddr⟩).getD 0 + 1⟩
          : Edge × UInt64) ∈ (map.edges.bump ⟨fromAddr, toAddr⟩ 1).items := by
        rw [HashMap.mem_items, HashMap.lookup_bump, if_pos rfl]
      rw [hitems] at hmem
      exact absurd hmem List.not_mem_nil

/-- The local part of `record_edge` changes the accumulators, not their number;
it drains no empty batch. -/
theorem recordLocal_spec (env : Env) (s : PluginState) (v : Nat) (fromAddr toAddr : UInt64) :
    ∃ accs, (s.recordLocal env v fromAddr toAddr).1 = { s with edgeAccumulators := accs }
      ∧ accs.length = s.edgeAccumulators.length
      ∧ ∀ edges, (s.recordLocal env v fromAddr toAddr).2 = some edges → edges ≠ [] := by
  unfold PluginState.recordLocal
  cases s.edgeAccumulators[v]? with
  | none => exact ⟨s.edgeAccumulators, rfl, rfl, fun edges h => absurd h (by simp)⟩
  | some acc =>
      dsimp only
      by_cases hflush : (s.config.streaming
          && (acc.record env.iter fromAddr toAddr).shouldFlush s.config.topN) = true
      · rw [if_pos hflush]
        refine ⟨_, rfl, List.length_set, ?_⟩
        intro edges h
        rw [← Option.some.inj h]
        rw [Bool.and_eq_true] at hflush
        exact drain_record_ne_nil env acc _ fromAddr toAddr hflush.2
      · rw [if_neg hflush]
        exact ⟨_, rfl, List.length_set, fun edges h => absurd h (by simp)⟩

/-- **What a registration can do**: write to its vCPU and to the counts, record
in the accumulators, take a number. -/
theorem runOp_frame (env : Env) (v : Nat) (m : Machine) (rest : List TbOp) (op : TbOp) :
    ∃ accs n, (runOp env v m rest op).1.plugin
        = { m.plugin with edgeAccumulators := accs, sequenceCounter := n }
      ∧ accs.length = m.plugin.edgeAccumulators.length
      ∧ (runOp env v m rest op).1.translations = m.translations := by
  cases op with
  | inline op =>
      obtain ⟨vcpus, counts, heq⟩ := runInline_frame v m op
      show ∃ accs n, (runInline v m op).plugin = _ ∧ _ ∧ (runInline v m op).translations = _
      rw [heq]
      exact ⟨_, _, rfl, rfl, rfl⟩
  | condCb cb cond slot imm =>
      unfold runOp startCallback
      dsimp only
      split
      · cases cb with
        | firstSeen key => exact ⟨_, _, rfl, rfl, rfl⟩
        | branchTaken toAddr =>
            obtain ⟨accs, heq, hlen, _⟩ :=
              recordLocal_spec env m.plugin v (m.vcpus v).lastTbEnd toAddr
            dsimp only
            split
            · exact ⟨_, _, rfl, rfl, rfl⟩
            · rw [heq]
              -- drained or not, the machine is the same
              cases (m.plugin.recordLocal env v (m.vcpus v).lastTbEnd toAddr).2 with
              | none => exact ⟨accs, _, rfl, hlen, rfl⟩
              | some edges => exact ⟨accs, _, rfl, hlen, rfl⟩
      · exact ⟨_, _, rfl, rfl, rfl⟩

/-! ## §3. The effects. -/

/-- The effects of one section of a thread: machine and thread after it, and
what it emits. -/
inductive Effect (env : Env) (v : Nat) (m : Machine) :
    Thread → Machine → Thread → List Action → Prop
  | quiet {th th' : Thread} {m' : Machine} (hm : Quiet m m') (hth : th.calm = true)
      (hth' : th'.calm = true) (hq : th'.queue ⊆ th.queue)
      (hpast : th'.pastFlag = true → th.pastFlag = true ∨ m.plugin.writerInitialized = true) :
      Effect env v m th m' th' []
  | claimWriter (tb : QemuTb) (hflag : m.plugin.writerInitialized = false) :
      Effect env v m (.exchangeFlag tb)
        (Machine.withPlugin m { m.plugin with writerInitialized := true }) (.storeWriter tb) []
  | storeWriter (tb : QemuTb) :
      Effect env v m (.storeWriter tb) (Machine.withPlugin m (openWriter m.host m.plugin))
        (.internSymbol tb) []
  | mapTb {tb : QemuTb} {symId : UInt16} {plugin : PluginState} {tr : Translation}
      (htb : tr.tb = tb)
      (h : Translates m.nextScoreboard m.plugin tb plugin tr.instr tr.tbMeta)
      (hrest : plugin = { m.plugin with tbMap := plugin.tbMap }) :
      Effect env v m (.mapTb tb symId)
        { m with plugin := plugin, nextScoreboard := m.nextScoreboard + 1 } (.laterTiers tr) []
  | laterTiers (tr : Translation) :
      Effect env v m (.laterTiers tr)
        { m with
          plugin := Plugin.laterTiers m.plugin tr.tb
          translations := m.translations ++ [tr] } .idle []
  | takeNumber {ops rest : List TbOp} (key : TbKey) (hq : rest ⊆ ops) :
      Effect env v m (.ops ops) (Machine.withPlugin m m.plugin.takeNumber)
        (.storeNumber key m.plugin.sequenceCounter rest) [.numbered key]
  | storeNumber (key : TbKey) (seq : UInt64) (rest : List TbOp) :
      Effect env v m (.storeNumber key seq rest)
        (Machine.withPlugin m (m.plugin.storeNumber key seq)) (.ops rest) []
  | drain {ops rest : List TbOp} {edges : List Triple} {toAddr : UInt64}
      (accs : List EdgeAccumulator) (hq : rest ⊆ ops) (hne : edges ≠ []) :
      Effect env v m (.ops ops) (Machine.withPlugin m { m.plugin with edgeAccumulators := accs })
        (.addFlushed edges toAddr rest) [.drained edges]
  | addFlushed (edges : List Triple) (toAddr : UInt64) (rest : List TbOp) :
      Effect env v m (.addFlushed edges toAddr rest)
        (Machine.withPlugin m (m.plugin.addFlushed edges)) (.writeBatch edges toAddr rest) []
  | writeBatch (edges : List Triple) (toAddr : UInt64) (rest : List TbOp) :
      Effect env v m (.writeBatch edges toAddr rest)
        (Machine.withPlugin m (m.plugin.writeBatch env v edges)) (.pendingCall toAddr rest)
        [if m.plugin.writer.isSome then .logged edges else .lost edges]

/-- One registration. -/
theorem runOp_effect (env : Env) (v : Nat) (m : Machine) {op : TbOp} {rest : List TbOp}
    (hop : ticks op = false) :
    Effect env v m (.ops (op :: rest)) (runOp env v m rest op).1 (runOp env v m rest op).2.1
      (runOp env v m rest op).2.2 := by
  have hsub : rest ⊆ op :: rest := List.subset_cons_self op rest
  cases op with
  | inline op => exact .quiet (quiet_runInline v m hop) rfl rfl hsub fun _ => Or.inl rfl
  | condCb cb cond slot imm =>
      unfold runOp
      dsimp only
      by_cases hcond : Cond.holds cond (readSlot m v slot) imm = true
      · rw [if_pos hcond]
        cases cb with
        | firstSeen key => exact .takeNumber key hsub
        | branchTaken toAddr =>
            unfold startCallback
            dsimp only
            by_cases hzero : (m.vcpus v).lastTbEnd = 0
            · rw [if_pos hzero]
              exact .quiet (Quiet.refl m) rfl rfl hsub fun _ => Or.inl rfl
            · rw [if_neg hzero]
              obtain ⟨accs, hplugin, _, hne⟩ :=
                recordLocal_spec env m.plugin v (m.vcpus v).lastTbEnd toAddr
              rw [hplugin]
              cases hdrain : (m.plugin.recordLocal env v (m.vcpus v).lastTbEnd toAddr).2 with
              | none => exact .quiet (by constructor <;> rfl) rfl rfl hsub fun _ => Or.inl rfl
              | some edges => exact .drain accs hsub (hne edges hdrain)
      · rw [if_neg hcond]
        exact .quiet (Quiet.refl m) rfl rfl hsub fun _ => Or.inl rfl

/-- **ONE SECTION.** -/
theorem advance_effect (env : Env) (v : Nat) (m : Machine) {th : Thread} (hq : NoTick th.queue) :
    Effect env v m th (advance env v m th).1 (advance env v m th).2.1
      (advance env v m th).2.2 := by
  cases th with
  | idle => exact .quiet (Quiet.refl m) rfl rfl (List.Subset.refl _) fun h => Or.inl h
  | loadFlag tb =>
      unfold advance
      dsimp only
      by_cases hflag : m.plugin.writerInitialized = true
      · rw [if_pos hflag]
        exact .quiet (Quiet.refl m) rfl rfl (List.Subset.refl _) fun _ => Or.inr hflag
      · rw [if_neg hflag]
        exact .quiet (Quiet.refl m) rfl rfl (List.Subset.refl _) fun h => Or.inl h
  | exchangeFlag tb =>
      unfold advance
      dsimp only
      by_cases hflag : m.plugin.writerInitialized = true
      · rw [if_pos hflag]
        exact .quiet (Quiet.refl m) rfl rfl (List.Subset.refl _) fun _ => Or.inr hflag
      · rw [if_neg hflag]
        exact .claimWriter tb (by simpa using hflag)
  | storeWriter tb => exact .storeWriter tb
  | internSymbol tb =>
      exact .quiet (quiet_symbolOf m tb) rfl rfl (List.Subset.refl _) fun _ => Or.inl rfl
  | mapTb tb symId =>
      have ht := mapSection_spec symId m.nextScoreboard m.plugin tb
      unfold advance
      dsimp only
      refine .mapTb rfl ?_ ?_
      · rw [instrumentationOf_congr ht.same.config ht.same.targetArch]
        exact ht
      · unfold Tier0.mapSection
        cases m.plugin.tbMap.lookup tb.key with
        | some existing => rfl
        | none => rfl
  | laterTiers tr => exact .laterTiers tr
  | ops rest =>
      cases rest with
      | nil => exact .quiet (Quiet.refl m) rfl rfl (List.Subset.refl _) fun _ => Or.inl rfl
      | cons op rest => exact runOp_effect env v m (hq op List.mem_cons_self)
  | storeNumber key seq rest => exact .storeNumber key seq rest
  | addFlushed edges toAddr rest => exact .addFlushed edges toAddr rest
  | writeBatch edges toAddr rest => exact .writeBatch edges toAddr rest
  | pendingCall toAddr rest =>
      unfold advance
      dsimp only
      by_cases hcall : m.plugin.config.tier ≥ 2 ∧ (m.vcpus v).pendingIndirectCallsite ≠ 0
      · rw [if_pos hcall]
        exact .quiet (quiet_recordIndirectCall m v _ _) rfl rfl (List.Subset.refl _)
          fun _ => Or.inl rfl
      · rw [if_neg hcall]
        exact .quiet (Quiet.refl m) rfl rfl (List.Subset.refl _) fun _ => Or.inl rfl

/-- No section makes a registration that counts. -/
theorem Effect.queue_subset {env : Env} {v : Nat} {m m' : Machine} {th th' : Thread}
    {out : List Action} (h : Effect env v m th m' th' out) : th'.queue ⊆ th.queue := by
  cases h with
  | quiet _ _ _ hq _ => exact hq
  | takeNumber _ hq => exact hq
  | drain _ hq _ => exact hq
  | _ => exact List.Subset.refl _

end QemuProfiler.Threads

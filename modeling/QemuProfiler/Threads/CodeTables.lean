/-
  QemuProfiler.Threads.CodeTables
  ───────────────────────────────
  **THE TABLES THAT TRANSLATION FILLS**, in interleaved runs: the symbols and
  the direct calls.

  Each of the two tables changes in one section of `vcpu_tb_trans`
  (`advance_tables`).  An observer notes the names as they are interned
  (`internedNames`); one induction over the run then gives both tables
  (`codeTables_run`):

    • `symbols_exact` — the symbols of the file are the first 65535 distinct
      names in the order in which they were interned,
    • `direct_calls_exact` — its direct calls are those of the translated
      blocks, each once, weighted with the executions of its block.
-/
import QemuProfiler.Plugin.CallWeights
import QemuProfiler.Qemu.Symbols
import QemuProfiler.Threads.FallThroughs
import QemuProfiler.Threads.ResourceFile

namespace QemuProfiler.Threads

open QemuProfiler.Lib QemuProfiler.Plugin QemuProfiler.Qemu QemuProfiler.Edges QemuProfiler.Format
open QemuProfiler.Convert (Profile SymbolRecord parse)

/-! ## §1. Sections. -/

/-- Neither of the two tables has changed. -/
structure SameTables (p p' : PluginState) : Prop where
  directCalls : p'.directCalls = p.directCalls
  nextSymId : p'.nextSymId = p.nextSymId
  symbolIds : p'.symbolIds = p.symbolIds
  symbols : p'.symbols = p.symbols

theorem SameTables.refl (p : PluginState) : SameTables p p := ⟨rfl, rfl, rfl, rfl⟩

theorem SameTables.interned {p p' : PluginState} (h : SameTables p p')
    {table : NameTable String 65535} {missed : Nat} (hp : Interned table missed p) :
    Interned table missed p' where
  ids := h.symbolIds ▸ hp.ids
  names := h.symbols ▸ hp.names
  next := h.nextSymId.trans hp.next
  filled := hp.filled

/-- The TB that a thread has interned the symbol of and not handed over yet. -/
def Thread.takenUp : Thread → Option QemuTb
  | .mapTb tb _ => some tb
  | .laterTiers tr => some tr.tb
  | _ => none

/-- A registration takes no TB up. -/
theorem takenUp_runOp (env : Env) (v : Nat) (m : Machine) (rest : List TbOp) (op : TbOp) :
    (runOp env v m rest op).2.1.takenUp = none := by
  cases op with
  | inline op => rfl
  | condCb cb cond slot imm =>
      unfold runOp startCallback
      dsimp only
      split
      · cases cb with
        | firstSeen key => rfl
        | branchTaken toAddr =>
            dsimp only
            split
            · rfl
            · cases (m.plugin.recordLocal env v (m.vcpus v).lastTbEnd toAddr).2 <;> rfl
      · rfl

/-- **WHICH SECTIONS TOUCH THE TABLES**: interning and the later tiers; a
thread hands its TB from the one to the other. -/
theorem advance_tables (env : Env) (v : Nat) (m : Machine) (th : Thread) :
    (∃ tb, th = .internSymbol tb)
      ∨ (∃ tr, th = .laterTiers tr)
      ∨ (SameTables m.plugin (advance env v m th).1.plugin
        ∧ (advance env v m th).1.translations = m.translations
        ∧ (advance env v m th).2.1.takenUp = th.takenUp) := by
  cases th with
  | loadFlag tb =>
      refine Or.inr (Or.inr ⟨SameTables.refl m.plugin, rfl, ?_⟩)
      show (if m.plugin.writerInitialized then Thread.internSymbol tb else .exchangeFlag tb).takenUp
        = none
      split <;> rfl
  | exchangeFlag tb =>
      refine Or.inr (Or.inr ?_)
      unfold advance
      dsimp only
      split <;> exact ⟨⟨rfl, rfl, rfl, rfl⟩, rfl, rfl⟩
  | storeWriter tb =>
      obtain ⟨writer, heq⟩ := openWriter_frame m.host m.plugin
      refine Or.inr (Or.inr ⟨?_, rfl, rfl⟩)
      show SameTables m.plugin (openWriter m.host m.plugin)
      rw [heq]
      exact ⟨rfl, rfl, rfl, rfl⟩
  | internSymbol tb => exact Or.inl ⟨tb, rfl⟩
  | mapTb tb symId =>
      refine Or.inr (Or.inr ⟨?_, rfl, rfl⟩)
      show SameTables m.plugin (Tier0.mapSection symId m.nextScoreboard m.plugin tb).1
      unfold Tier0.mapSection
      cases m.plugin.tbMap.lookup tb.key with
      | some existing => exact SameTables.refl m.plugin
      | none => exact ⟨rfl, rfl, rfl, rfl⟩
  | laterTiers tr => exact Or.inr (Or.inl ⟨tr, rfl⟩)
  | ops rest =>
      refine Or.inr (Or.inr ?_)
      cases rest with
      | nil => exact ⟨SameTables.refl m.plugin, rfl, rfl⟩
      | cons op rest =>
          obtain ⟨accs, n, heq, _, htrs⟩ := runOp_frame env v m rest op
          refine ⟨?_, htrs, takenUp_runOp env v m rest op⟩
          show SameTables m.plugin (runOp env v m rest op).1.plugin
          rw [heq]
          exact ⟨rfl, rfl, rfl, rfl⟩
  -- a recorded call goes to the maps of the indirect calls
  | pendingCall toAddr rest =>
      refine Or.inr (Or.inr ?_)
      unfold advance
      dsimp only
      split
      · obtain ⟨maps, heq, _⟩ := recordCalls_frame v
          [((m.vcpus v).pendingIndirectCallsite, toAddr)] m.plugin
        refine ⟨?_, rfl, rfl⟩
        show SameTables m.plugin (recordCalls v m.plugin
          [((m.vcpus v).pendingIndirectCallsite, toAddr)])
        rw [heq]
        exact ⟨rfl, rfl, rfl, rfl⟩
      · exact ⟨SameTables.refl m.plugin, rfl, rfl⟩
  | _ => exact Or.inr (Or.inr ⟨⟨rfl, rfl, rfl, rfl⟩, rfl, rfl⟩)

theorem laterTiers_symbols (p : PluginState) (tb : QemuTb) {table : NameTable String 65535}
    {missed : Nat} (hp : Interned table missed p) : Interned table missed (laterTiers p tb) := by
  obtain ⟨directCalls, tbMap, heq⟩ := laterTiers_frame p tb
  rw [heq]
  exact ⟨hp.ids, hp.names, hp.next, hp.filled⟩

/-! ## §2. Runs. -/

/-- The name that the next section of a thread interns. -/
def Thread.internsNow : Thread → List String
  | .internSymbol tb => (symbolOfTb tb).toList
  | _ => []

theorem Thread.internsNow_eq_nil {th : Thread} (h : ¬ ∃ tb, th = .internSymbol tb) :
    th.internsNow = [] := by
  cases th with
  | internSymbol tb => exact absurd ⟨tb, rfl⟩ h
  | _ => rfl

/-- The name that a step interns. -/
def internNote (s : System) : Event → List String
  | .run v _ => (s.threads v).internsNow
  | _ => []

/-- The names that are interned in a run, in order. -/
def internedNames (s : System) (evs : List Event) : List String := watch step internNote s evs

/-- The emulator has a translation of the TB, or a thread holds it. -/
def InHand (s : System) (tb : QemuTb) : Prop :=
  (∃ tr ∈ s.machine.translations, tr.tb = tb) ∨ ∃ v, (s.threads v).takenUp = some tb

/-- A thread that holds the same as before. -/
theorem inHand_update {s : System} {m' : Machine} {v : Nat} {th' : Thread}
    (htrs : m'.translations = s.machine.translations) (htaken : th'.takenUp = (s.threads v).takenUp)
    (tb : QemuTb) : InHand ⟨m', Function.update s.threads v th'⟩ tb ↔ InHand s tb := by
  have hsame : ∀ u, (Function.update s.threads v th' u).takenUp = (s.threads u).takenUp := by
    intro u
    by_cases hu : u = v
    · rw [hu, Function.update_self, htaken]
    · rw [Function.update_of_ne hu]
  unfold InHand
  dsimp only
  rw [htrs]
  simp only [hsame]

/-- Interning puts a TB in a thread's hands. -/
theorem inHand_intern {s : System} {m' : Machine} {v : Nat} {tb : QemuTb} {symId : UInt16}
    (htrs : m'.translations = s.machine.translations) (hfree : (s.threads v).takenUp = none)
    (tb' : QemuTb) :
    InHand ⟨m', Function.update s.threads v (.mapTb tb symId)⟩ tb' ↔ InHand s tb' ∨ tb' = tb := by
  unfold InHand
  dsimp only
  rw [htrs, or_assoc]
  refine or_congr_right ?_
  constructor
  · rintro ⟨u, hu⟩
    by_cases huv : u = v
    · rw [huv, Function.update_self] at hu
      exact Or.inr (Option.some.inj hu).symm
    · rw [Function.update_of_ne huv] at hu
      exact Or.inl ⟨u, hu⟩
  · rintro (⟨u, hu⟩ | rfl)
    · refine ⟨u, ?_⟩
      have huv : u ≠ v := by
        rintro rfl
        rw [hfree] at hu
        cases hu
      rw [Function.update_of_ne huv]
      exact hu
    · exact ⟨v, by rw [Function.update_self]; rfl⟩

/-- The later tiers hand the TB to the emulator. -/
theorem inHand_laterTiers {s : System} {m' : Machine} {v : Nat} {tr : Translation}
    (htrs : m'.translations = s.machine.translations ++ [tr])
    (hth : s.threads v = .laterTiers tr) (tb : QemuTb) :
    InHand ⟨m', Function.update s.threads v .idle⟩ tb ↔ InHand s tb := by
  unfold InHand
  dsimp only
  rw [htrs]
  constructor
  · rintro (⟨tr', hin, rfl⟩ | ⟨u, hu⟩)
    · rcases List.mem_append.mp hin with hold | hnew
      · exact Or.inl ⟨tr', hold, rfl⟩
      · rw [List.mem_singleton.mp hnew]
        exact Or.inr ⟨v, by rw [hth]; rfl⟩
    · by_cases huv : u = v
      · rw [huv, Function.update_self] at hu
        cases hu
      · rw [Function.update_of_ne huv] at hu
        exact Or.inr ⟨u, hu⟩
  · rintro (⟨tr', hin, rfl⟩ | ⟨u, hu⟩)
    · exact Or.inl ⟨tr', List.mem_append_left _ hin, rfl⟩
    · by_cases huv : u = v
      · rw [huv, hth] at hu
        exact Or.inl ⟨tr, List.mem_append_right _ List.mem_cons_self, Option.some.inj hu⟩
      · exact Or.inr ⟨u, by rw [Function.update_of_ne huv]; exact hu⟩

/-- What the two tables hold: `names` were interned. -/
structure CodeTables (tier : UInt8) (arch : Arch) (names : List String) (s : System) : Prop where
  interned : NameTable.misses 65535 names < 2 ^ 64 →
    Interned (NameTable.ofCalls 65535 names) (NameTable.misses 65535 names) s.machine.plugin
  named : ∀ name, name ∈ names ↔ ∃ tb, InHand s tb ∧ symbolOfTb tb = some name
  direct : ∀ x, x ∈ s.machine.plugin.directCalls
    ↔ 2 ≤ tier ∧ ∃ tr ∈ s.machine.translations, x ∈ directPairs arch tr.tb

section Steps

variable {tier : UInt8} {arch : Arch} {names : List String} {s s' : System}

theorem CodeTables.frame (h : CodeTables tier arch names s)
    (htables : SameTables s.machine.plugin s'.machine.plugin)
    (htrs : s'.machine.translations = s.machine.translations)
    (hhand : ∀ tb, InHand s' tb ↔ InHand s tb) : CodeTables tier arch names s' where
  interned := fun hmisses => htables.interned (h.interned hmisses)
  named := by
    intro name
    simp only [hhand]
    exact h.named name
  direct := by
    intro x
    rw [htables.directCalls, htrs]
    exact h.direct x

theorem CodeTables.intern (h : CodeTables tier arch names s) {v : Nat} {tb : QemuTb}
    (hth : s.threads v = .internSymbol tb) (env : Env) :
    CodeTables tier arch (names ++ (symbolOfTb tb).toList) (afterRun env v s) := by
  have hafter : afterRun env v s
      = ⟨Machine.withPlugin s.machine (Tier0.symbolOf s.machine.plugin tb).2,
        Function.update s.threads v (.mapTb tb (Tier0.symbolOf s.machine.plugin tb).1)⟩ := by
    unfold afterRun
    rw [hth]
    rfl
  have hhand := @inHand_intern s (Machine.withPlugin s.machine
    (Tier0.symbolOf s.machine.plugin tb).2) v tb (Tier0.symbolOf s.machine.plugin tb).1 rfl
    (by rw [hth]; rfl)
  rw [hafter]
  refine ⟨?_, ?_, ?_⟩
  · intro hmisses
    refine (symbolOf_spec (h.interned ?_) hmisses).2
    -- there were no more misses before
    cases hsym : symbolOfTb tb with
    | none =>
        rw [hsym, Option.toList_none, List.append_nil] at hmisses
        exact hmisses
    | some name =>
        rw [hsym, Option.toList_some, NameTable.misses_concat] at hmisses
        exact Nat.lt_of_le_of_lt (Nat.le_add_right _ _) hmisses
  · intro name
    simp only [hhand, List.mem_append, h.named, Option.mem_toList]
    constructor
    · rintro (⟨tb', hin, hname⟩ | hname)
      · exact ⟨tb', Or.inl hin, hname⟩
      · exact ⟨tb, Or.inr rfl, hname⟩
    · rintro ⟨tb', hin | rfl, hname⟩
      · exact Or.inl ⟨tb', hin, hname⟩
      · exact Or.inr hname
  · intro x
    obtain ⟨next, ids, symbols, heq⟩ := Tier0.symbolOf_frame s.machine.plugin tb
    show x ∈ (Tier0.symbolOf s.machine.plugin tb).2.directCalls ↔ _
    rw [heq]
    exact h.direct x

theorem CodeTables.laterTiers (h : CodeTables tier arch names s) {v : Nat} {tr : Translation}
    (hth : s.threads v = .laterTiers tr) (htier : s.machine.plugin.config.tier = tier)
    (harch : s.machine.plugin.targetArch = arch) (env : Env) :
    CodeTables tier arch names (afterRun env v s) := by
  have hafter : afterRun env v s
      = ⟨{ s.machine with
            plugin := Plugin.laterTiers s.machine.plugin tr.tb
            translations := s.machine.translations ++ [tr] },
        Function.update s.threads v .idle⟩ := by
    unfold afterRun
    rw [hth]
    rfl
  have hhand := fun tb => (inHand_laterTiers (show (afterRun env v s).machine.translations
      = s.machine.translations ++ [tr] by rw [hafter]) hth tb)
  rw [hafter] at hhand ⊢
  refine ⟨?_, ?_, ?_⟩
  · exact fun hmisses => laterTiers_symbols _ _ (h.interned hmisses)
  · intro name
    rw [h.named]
    exact exists_congr fun tb => and_congr_left fun _ => (hhand tb).symm
  · intro x
    show x ∈ (Plugin.laterTiers s.machine.plugin tr.tb).directCalls ↔ _
    rw [mem_directCalls_laterTiers, h.direct, htier, harch, ← and_or_left]
    refine and_congr_right fun _ => ?_
    simp only [List.mem_append, List.mem_singleton, or_and_right, exists_or, exists_eq_left]

end Steps

section Runs

variable {config : PluginConfig} {tier3 sysemu : Bool} {arch : String} {host : HostInfo}
  {evs : List Event} {s : System} {out : List Action}

/-- **BOTH TABLES, IN EVERY REACHABLE STATE.** -/
theorem codeTables_run
    (h : runFrom (System.init config tier3 sysemu arch host) evs = some (s, out)) :
    CodeTables config.tier (Arch.fromName arch)
      (internedNames (System.init config tier3 sysemu arch host) evs) s := by
  refine watch_induction Threads.step internNote
    (fun s _ names => CodeTables config.tier (Arch.fromName arch) names s) _ ?_ ?_ h
  · refine ⟨fun _ => interned_new config tier3 sysemu arch, ?_, ?_⟩
    · intro name
      refine iff_of_false List.not_mem_nil ?_
      rintro ⟨tb, (⟨tr, htr, _⟩ | ⟨v, hv⟩), _⟩
      · exact absurd htr List.not_mem_nil
      · cases hv
    · intro x
      refine iff_of_false (AList.notMem_empty x) ?_
      rintro ⟨_, tr, htr, _⟩
      exact absurd htr List.not_mem_nil
  -- only a thread that interns adds a name, and only the later tiers add direct calls
  · intro s out names e s' acts hreach hs hstep
    obtain ⟨evs, hreach⟩ := hreach
    have hinv := runFrom_inv hreach
    have hready := ready_run hreach
    rcases step_sections hstep with ⟨v, plugin, rfl, hp, rfl, _⟩ | ⟨v, tb, rfl, _, hidle, rfl, _⟩
      | ⟨rfl, rfl, _⟩ | ⟨v, tid, started, env, tr, rfl, htr, _, hidle, _, rfl, _⟩
      | ⟨v, env, rfl, _, rfl, _⟩
    · obtain ⟨i, j, heq, _⟩ := ensureVcpuState_eq hp
      rw [show internNote s (.vcpuInit v) = [] from rfl, List.append_nil]
      refine hs.frame ?_ rfl fun _ => Iff.rfl
      show SameTables s.machine.plugin plugin
      rw [heq]
      exact ⟨rfl, rfl, rfl, rfl⟩
    · rw [show internNote s (.translate v tb) = [] from rfl, List.append_nil]
      exact hs.frame (SameTables.refl _) rfl (inHand_update rfl (by rw [hidle]; rfl))
    · rw [show internNote s .flush = [] from rfl, List.append_nil]
      exact hs.frame (SameTables.refl _) rfl fun _ => Iff.rfl
    · obtain ⟨rest, _, _, heq⟩ := afterRun_give_ops hinv (List.mem_of_getElem? htr) env v started
      rw [show internNote s (.exec v tid started env) = [] from rfl, List.append_nil, heq]
      exact hs.frame (SameTables.refl _) rfl (inHand_update rfl (by rw [hidle]; rfl))
    · by_cases hintern : ∃ tb, s.threads v = .internSymbol tb
      · obtain ⟨tb, hth⟩ := hintern
        rw [show internNote s (.run v env) = (s.threads v).internsNow from rfl, hth]
        exact hs.intern hth env
      · rw [show internNote s (.run v env) = (s.threads v).internsNow from rfl,
          Thread.internsNow_eq_nil hintern, List.append_nil]
        rcases advance_tables env v s.machine (s.threads v) with hth | ⟨tr, hth⟩
          | ⟨htables, htrs, htaken⟩
        · exact absurd hth hintern
        · exact hs.laterTiers hth (congrArg PluginConfig.tier hready.config_eq) hready.arch_eq env
        · exact hs.frame htables htrs (inHand_update htrs htaken)

end Runs

/-! ## §3. The symbols of the file. -/

/-- The symbols of the exit handler, as a reader finds them. -/
def storedSymbol (e : UInt16 × String) : SymbolRecord := ⟨e.1, 0, storedText 65535 e.2⟩

/-- The symbol that a call adds to the profile. -/
def symbolWritten : WriteCall → List SymbolRecord
  | .symbolEntry symId addr name => [⟨symId, addr, storedText 65535 name⟩]
  | _ => []

theorem symbolWritten_exitCalls (o : ExitOrders) (p : PluginState) (execSum : Nat → UInt64) :
    (exitCalls o p execSum).flatMap symbolWritten
      = (p.symbols.iter o.symbols).map storedSymbol := by
  have hsym : (exitSymbols o p).flatMap symbolWritten
      = (p.symbols.iter o.symbols).map storedSymbol := by
    unfold exitSymbols
    rw [List.flatMap_map]
    exact List.map_eq_flatMap.symm
  have hres : (exitResources o p).flatMap symbolWritten = [] := by
    have hdiscon : (p.disconEvents.iter o.disconEvents).flatMap (fun e =>
        symbolWritten (.discontinuity e.1.1 e.1.2.1 e.1.2.2 e.2)) = [] :=
      List.flatMap_eq_nil_iff.mpr fun _ _ => rfl
    rw [flatMap_exitResources symbolWritten (fun _ _ => rfl), hdiscon, List.append_nil]
    exact List.flatMap_eq_nil_iff.mpr fun _ _ => rfl
  have hif : ∀ (b : Prop) [Decidable b] (calls : List WriteCall), calls.flatMap symbolWritten = [] →
      (if b then calls else []).flatMap symbolWritten = [] := by
    intro b _ calls hcalls
    split
    · exact hcalls
    · rfl
  unfold exitCalls
  rw [List.flatMap_append, List.flatMap_append, List.flatMap_append, List.flatMap_append,
    List.flatMap_append, hsym, hif _ _ rfl, hif _ _ rfl, hif _ _ hres]
  exact List.append_nil _

/-- The table behind the symbols. -/
theorem symbols_perm {table : NameTable String 65535} {missed : Nat} {p : PluginState}
    (h : Interned table missed p) (ρ : IterOrder) :
    (p.symbols.iter ρ).Perm (table.names.zipIdx.map fun e => (UInt16.ofNat (e.2 + 1), e.1)) := by
  have hbound := table.bounded
  have hnat : ∀ e ∈ table.names.zipIdx, (UInt16.ofNat (e.2 + 1)).toNat = e.2 + 1 := by
    intro e he
    have hlt : e.2 < table.names.length := by
      have hidx := (List.mem_zipIdx' he).1
      exact hidx
    exact UInt16.toNat_ofNat_of_lt (by show _ < 2 ^ 16; omega)
  have hnodup : (table.names.zipIdx.map fun e => (UInt16.ofNat (e.2 + 1), e.1)).Nodup := by
    refine List.Nodup.of_map Prod.snd ?_
    rw [List.map_map]
    show (table.names.zipIdx.map Prod.fst).Nodup
    rw [List.zipIdx_map_fst]
    exact table.nodup
  rw [List.perm_ext_iff_of_nodup (List.Nodup.of_map _ (HashMap.iter_nodup ρ p.symbols)) hnodup]
  rintro ⟨id, name⟩
  rw [HashMap.mem_iter, h.names, List.mem_map]
  constructor
  · rintro ⟨hne, hnumber⟩
    have hpos : id.toNat ≠ 0 := fun hzero => hne (UInt16.toNat_inj.mp hzero)
    obtain ⟨i, hi⟩ := Nat.exists_eq_succ_of_ne_zero hpos
    have hget := NameTable.number_eq_succ_iff.mp (hnumber.trans hi)
    refine ⟨(name, i), List.mem_zipIdx_iff_getElem?.mpr hget, Prod.ext ?_ rfl⟩
    show UInt16.ofNat (i + 1) = id
    rw [← Nat.succ_eq_add_one, ← hi, UInt16.ofNat_toNat]
  · rintro ⟨e, he, heq⟩
    obtain ⟨rfl, rfl⟩ := Prod.mk.inj heq
    have htoNat := hnat e he
    refine ⟨?_, ?_⟩
    · intro hzero
      have hzero' : (UInt16.ofNat (e.2 + 1)).toNat = 0 := congrArg UInt16.toNat hzero
      omega
    · rw [htoNat]
      exact NameTable.number_eq_succ_iff.mpr (List.mem_zipIdx_iff_getElem?.mp he)

section File

variable {config : PluginConfig} {tier3 sysemu : Bool} {arch : String} {host : HostInfo}
  {evs : List Event} {s : System} {out : List Action}

/-- A step interns one name at most. -/
theorem length_internedNames_le (s : System) (evs : List Event) :
    (internedNames s evs).length ≤ evs.length := by
  have hnote : ∀ (s : System) (e : Event), (internNote s e).length ≤ 1 := by
    intro s e
    cases e with
    | run v env =>
        show (s.threads v).internsNow.length ≤ 1
        cases s.threads v with
        | internSymbol tb =>
            show (symbolOfTb tb).toList.length ≤ 1
            cases symbolOfTb tb <;> simp
        | _ => exact Nat.zero_le 1
    | _ => exact Nat.zero_le 1
  induction evs generalizing s with
  | nil => exact Nat.zero_le _
  | cons e evs ih =>
      cases hstep : step s e with
      | none =>
          unfold internedNames watch
          rw [hstep]
          exact Nat.zero_le _
      | some after =>
          have htail := ih after.1
          have hhead := hnote s e
          unfold internedNames at htail ⊢
          rw [watch_cons (show step s e = some (after.1, after.2) from hstep), List.length_append,
            List.length_cons]
          omega

/-- **THE SYMBOLS OF THE FILE ARE EXACT, IN EVERY INTERLEAVING**: in some order,
the first 65535 distinct names in the order in which the threads interned them,
numbered from 1 and cut off at the 65535 bytes that a record can hold.  At
rest, the interned names are the symbols of the translated blocks. -/
theorem symbols_exact
    (h : runFrom (System.init config tier3 sysemu arch host) evs = some (s, out))
    (hlen : evs.length < 2 ^ 64) {o : ExitOrders} {w : ProfileWriter}
    (hexit : pluginExit o s.machine.plugin (execSum s.machine) = some w) (ρb ρf : IterOrder) :
    (∃ p, parse ρb ρf w.writer = .ok p
      ∧ p.symbols.Perm
        (((internedNames (System.init config tier3 sysemu arch host) evs).eraseDups.take
          65535).zipIdx.map fun e => storedSymbol (UInt16.ofNat (e.2 + 1), e.1)))
      ∧ ((∀ v < s.machine.numVcpus, s.threads v = .idle) → ∀ name,
        name ∈ internedNames (System.init config tier3 sysemu arch host) evs
          ↔ ∃ tr ∈ s.machine.translations, symbolOfTb tr.tb = some name) := by
  have htables := codeTables_run h
  constructor
  · obtain ⟨cs, hcs, tier, sys, streaming, load, ts, te, entry, rfl⟩ :=
      exit_log (unobserved_run (observer 6) _ _ _ _ h) hexit
    refine ⟨_, parse_callsNext tier sys streaming load ts te entry ρb ρf _, ?_⟩
    have hmisses := Nat.lt_of_le_of_lt ((NameTable.misses_le_length 65535 _).trans
      (length_internedNames_le (System.init config tier3 sysemu arch host) evs)) hlen
    -- a symbol record adds one symbol, and no other record adds any
    have hsymbols : ∀ (cs : List WriteCall) (w : ProfileWriter) (p : Profile),
        (callsEffect w cs p).symbols = p.symbols ++ cs.flatMap symbolWritten := by
      intro cs w p
      refine field_callsEffect Profile.symbols symbolWritten cs ?_ w p
      intro c _ w p
      cases c <;> simp [effect, symbolWritten]
    show (callsEffect _ _ _).symbols.Perm _
    rw [hsymbols, List.flatMap_append, flatMap_streamCalls symbolWritten (fun _ _ => rfl)
      (fun _ => rfl) (fun _ _ _ => rfl) hcs, symbolWritten_exitCalls, ← NameTable.names_ofCalls]
    have hperm := (symbols_perm (htables.interned hmisses) o.symbols).map storedSymbol
    rw [List.map_map] at hperm
    exact hperm
  · intro hidle name
    rw [htables.named]
    -- at rest no thread has a TB in hand, so every interned name is in a translation
    have hrest : ∀ v, (s.threads v).takenUp = none := by
      intro v
      by_cases hlt : v < s.machine.numVcpus
      · rw [hidle v hlt]
        rfl
      · rw [(runFrom_inv h).threads v (Nat.le_of_not_lt hlt)]
        rfl
    constructor
    · rintro ⟨tb, ⟨tr, htr, rfl⟩ | ⟨v, hv⟩, hname⟩
      · exact ⟨tr, htr, hname⟩
      · rw [hrest v] at hv
        cases hv
    · rintro ⟨tr, htr, hname⟩
      exact ⟨tr.tb, Or.inl ⟨tr, htr, rfl⟩, hname⟩

end File

/-! ## §4. The direct calls of the file. -/

/-- The block's record covers the address. -/
def Covers (tr : Translation) (a : UInt64) : Prop :=
  tr.tbMeta.startAddr ≤ a ∧ a ≤ tr.tbMeta.endAddr

instance (tr : Translation) (a : UInt64) : Decidable (Covers tr a) :=
  inferInstanceAs (Decidable (_ ∧ _))

/-- No block starts within another one. -/
def Apart (s : System) : Prop :=
  ∀ tr tr', Made s tr → Made s tr' → tr.tb.key ≠ tr'.tb.key → ¬ Covers tr tr'.tb.vaddr

/-- The entry of a TB in the exit handler's index. -/
def indexEntry (m : Machine) (x : TbKey × TbMeta) : Triple :=
  (x.2.startAddr, x.2.endAddr, execSum m x.2.execCount)

section Weights

variable {config : PluginConfig} {tier3 sysemu : Bool} {arch : String} {host : HostInfo}
  {evs : List Event} {s : System} {out : List Action}

/-- At rest, the blocks are those of the emulator. -/
theorem apart_of_idle
    (h : runFrom (System.init config tier3 sysemu arch host) evs = some (s, out))
    (hidle : ∀ v < s.machine.numVcpus, (s.threads v).isIdle = true)
    (hapart : ∀ tr ∈ s.machine.translations, ∀ tr' ∈ s.machine.translations,
      tr.tb.key ≠ tr'.tb.key → ¬ Covers tr tr'.tb.vaddr) : Apart s := by
  have hin : ∀ tr, Made s tr → tr ∈ s.machine.translations := by
    rintro tr (hin | ⟨v, hv⟩)
    · exact hin
    · have hrest : s.threads v = .idle := by
        by_cases hlt : v < s.machine.numVcpus
        · exact Thread.eq_idle (hidle v hlt)
        · exact (runFrom_inv h).threads v (Nat.le_of_not_lt hlt)
      rw [hrest] at hv
      cases hv
  intro tr tr' htr htr'
  exact hapart tr (hin tr htr) tr' (hin tr' htr')

/-- **The weight of a callsite** is how often its block was executed. -/
theorem indexWeight_run
    (h : runFrom (System.init config tier3 sysemu arch host) evs = some (s, out))
    (hapart : Apart s) (o : ExitOrders) {tr : Translation} (htr : tr ∈ s.machine.translations)
    {cs : UInt64} (hcs : Covers tr cs) :
    indexWeight (tbIndex o s.machine.plugin (execSum s.machine)) cs
      = UInt64.ofNat ((executionsOf out).countP fun e => e.2.tb.key = tr.tb.key) := by
  have hinv := runFrom_inv h
  have hcode := hinv.known tr (Or.inl htr)
  obtain ⟨e, hlook, he⟩ := lookup_of_code hcode
  have hstart : e.startAddr = tr.tbMeta.startAddr := congrArg TbCode.startAddr he
  have hend : e.endAddr = tr.tbMeta.endAddr := congrArg TbCode.endAddr he
  obtain ⟨rest, hrest⟩ := exists_cons_perm (HashMap.mem_items.mpr hlook)
  have hnodup := (hrest.map Prod.fst).nodup_iff.mp (HashMap.items_nodup s.machine.plugin.tbMap)
  -- no other block starts between this one and the callsite
  have halone : ∀ u ∈ rest.map (indexEntry s.machine), e.startAddr ≤ u.1 → ¬ u.1 ≤ cs := by
    intro u hu hle hucs
    obtain ⟨⟨k, e'⟩, hin, rfl⟩ := List.mem_map.mp hu
    have hlook' : s.machine.plugin.tbMap.lookup k = some e' :=
      HashMap.mem_items.mp (hrest.mem_iff.mpr (List.mem_cons_of_mem _ hin))
    obtain ⟨tr', hmade, rfl, hcode'⟩ := translated_run h k _ (code_of_lookup hlook')
    have hkey : tr.tb.key ≠ tr'.tb.key := by
      intro heq
      exact (List.nodup_cons.mp hnodup).1 (heq ▸ List.mem_map.mpr ⟨_, hin, rfl⟩)
    have hvaddr : e'.startAddr = tr'.tb.vaddr :=
      (hinv.codes.keyed _ _ (code_of_lookup hlook')).1
    refine hapart tr tr' (Or.inl htr) hmade hkey ⟨?_, ?_⟩
    · rw [← hstart, ← hvaddr]
      exact hle
    · rw [← hvaddr]
      exact UInt64.le_trans hucs hcs.2
  have hin : e.startAddr ≤ cs := hstart ▸ hcs.1
  have hfound :=
    lastAtOrBefore_of_alone halone (hrest.map (indexEntry s.machine)) (tbIndex_perm o _ _)
    (tbIndex_sorted o _ _) hin
  have hweight := indexWeight_of_found hfound hin
  have hcover : Contains cs (indexEntry s.machine (tr.tb.key, e)) := by
    refine ⟨hin, ?_⟩
    show cs ≤ e.endAddr
    rw [hend]
    exact hcs.2
  rw [if_pos hcover, UInt64.toNat_inj] at hweight
  rw [hweight, ← execSum_key h hcode, ← he]
  rfl

/-- The direct calls of the file. -/
theorem directCalls_run
    (h : runFrom (System.init config tier3 sysemu arch host) evs = some (s, out))
    (htier : 2 ≤ config.tier)
    (hplaced : ∀ tr ∈ s.machine.translations, ∀ insn ∈ tr.tb.insns, Covers tr insn.vaddr)
    (hapart : Apart s) {o : ExitOrders} {written : List (Edge × UInt64)} {p : Profile}
    (hp : ExitProfile o s.machine.plugin (execSum s.machine) written p) :
    (p.directCalls.map fun c => (c.callsite, c.target)).Nodup
      ∧ ∀ cs tgt count, ⟨cs, tgt, count⟩ ∈ p.directCalls
        ↔ ∃ tr ∈ s.machine.translations, (cs, tgt) ∈ directPairs (Arch.fromName arch) tr.tb
          ∧ count = UInt64.ofNat ((executionsOf out).countP fun e => e.2.tb.key = tr.tb.key) := by
  have hconfig : s.machine.plugin.config.tier ≥ 2 := (ready_run h).tier_le htier
  have hcalls : p.directCalls = (s.machine.plugin.directCalls.iter o.directCalls).map fun e =>
      ⟨e.1.1, e.1.2, indexWeight (tbIndex o s.machine.plugin (execSum s.machine)) e.1.1⟩ := by
    rw [hp.directCalls, if_pos hconfig, exitDirectCalls_eq, List.map_map]
    rfl
  have hkeys : ∀ x, (∃ u, (x, u) ∈ s.machine.plugin.directCalls.iter o.directCalls)
      ↔ ∃ tr ∈ s.machine.translations, x ∈ directPairs (Arch.fromName arch) tr.tb := by
    intro x
    have hdirect := (codeTables_run h).direct x
    rw [and_iff_right htier, ← AList.lookup_isSome, Option.isSome_iff_exists] at hdirect
    rw [← hdirect]
    exact exists_congr fun u => HashMap.mem_iter
  constructor
  · rw [hcalls, List.map_map]
    exact HashMap.iter_nodup o.directCalls s.machine.plugin.directCalls
  · intro cs tgt count
    rw [hcalls, List.mem_map]
    have hweight : ∀ tr ∈ s.machine.translations,
        (cs, tgt) ∈ directPairs (Arch.fromName arch) tr.tb →
        indexWeight (tbIndex o s.machine.plugin (execSum s.machine)) cs
          = UInt64.ofNat ((executionsOf out).countP fun e => e.2.tb.key = tr.tb.key) := by
      intro tr htr hin
      obtain ⟨insn, hinsn, _, rfl⟩ := mem_directPairs.mp hin
      exact indexWeight_run h hapart o htr (hplaced tr htr insn hinsn)
    constructor
    · rintro ⟨e, he, heq⟩
      cases heq
      obtain ⟨tr, htr, hin⟩ := (hkeys e.1).mp ⟨e.2, he⟩
      exact ⟨tr, htr, hin, hweight tr htr hin⟩
    · rintro ⟨tr, htr, hin, rfl⟩
      obtain ⟨u, hu⟩ := (hkeys (cs, tgt)).mpr ⟨tr, htr, hin⟩
      refine ⟨((cs, tgt), u), hu, ?_⟩
      rw [← hweight tr htr hin]

/-- **DIRECT CALLS ARE EXACT, IN EVERY INTERLEAVING** in which no block starts
within another one and every instruction lies within the record of its block's
key: whatever was retranslated or flushed from the code cache, the file lists
each direct call of the translated blocks, once, with the number of times that
its block was executed. -/
theorem direct_calls_exact
    (h : runFrom (System.init config tier3 sysemu arch host) evs = some (s, out))
    (htier : 2 ≤ config.tier)
    (hplaced : ∀ tr ∈ s.machine.translations, ∀ insn ∈ tr.tb.insns, Covers tr insn.vaddr)
    (hapart : Apart s) {o : ExitOrders} {w : ProfileWriter}
    (hexit : pluginExit o s.machine.plugin (execSum s.machine) = some w) (ρb ρf : IterOrder) :
    ∃ p, parse ρb ρf w.writer = .ok p
      ∧ (p.directCalls.map fun c => (c.callsite, c.target)).Nodup
      ∧ ∀ cs tgt count, ⟨cs, tgt, count⟩ ∈ p.directCalls
        ↔ ∃ tr ∈ s.machine.translations, (cs, tgt) ∈ directPairs (Arch.fromName arch) tr.tb
          ∧ count = UInt64.ofNat ((executionsOf out).countP fun e => e.2.tb.key = tr.tb.key) := by
  obtain ⟨p, hparse, hp⟩ := exitProfile_run h hexit ρb ρf
  exact ⟨p, hparse, directCalls_run h htier hplaced hapart hp⟩

end Weights

/-- A block that is one call, of the code `0x10` bytes behind it. -/
def callerBlock (vaddr : UInt64) (name : String) : QemuTb :=
  { vaddr := vaddr
    insns := [{ vaddr := vaddr, size := 4, data := [0xEF, 0, 0, 1], symbol := some name }]
    nonempty := by simp }

/-- Two threads translate a caller each, at the same time; one of them is
translated again after a flush.  Both translations are executed. -/
def callerEvents : List Event :=
  [.vcpuInit 0, .vcpuInit 1, .translate 0 (callerBlock 0x10 "main"),
      .translate 1 (callerBlock 0x20 "loop")] ++ alternating 6
    ++ [.exec 0 1 1 ⟨[], 0⟩] ++ sections 0 8
    ++ [.flush, .translate 1 (callerBlock 0x10 "main")] ++ sections 1 5
    ++ [.exec 1 2 1 ⟨[], 0⟩] ++ sections 1 8

/-- The run is possible and its threads come to rest. -/
theorem callerEvents_rests :
    (runFrom (installed 2 1 true) callerEvents).isSome = true
      ∧ ∀ v < 2, ((outcome (installed 2 1 true) callerEvents).1.threads v).isIdle = true := by
  decide

theorem callerEvents_exits :
    ∃ w, pluginExit listOrders (outcome (installed 2 1 true) callerEvents).1.machine.plugin
      (execSum (outcome (installed 2 1 true) callerEvents).1.machine) = some w := by
  refine Option.isSome_iff_exists.mp ?_
  unfold pluginExit
  rw [Option.isSome_map]
  decide

theorem symbols_exact_callers :
    ∃ w p, pluginExit listOrders (outcome (installed 2 1 true) callerEvents).1.machine.plugin
        (execSum (outcome (installed 2 1 true) callerEvents).1.machine) = some w
      ∧ parse [] [] w.writer = .ok p
      ∧ p.symbols.Perm [storedSymbol (1, "loop"), storedSymbol (2, "main")] := by
  obtain ⟨hruns, _⟩ := callerEvents_rests
  obtain ⟨w, hw⟩ := callerEvents_exits
  obtain ⟨⟨p, hp, hsymbols⟩, _⟩ :=
    symbols_exact (runFrom_outcome _ _ hruns) (by decide) hw [] []
  have hnames : internedNames (installed 2 1 true) callerEvents = ["loop", "main", "main"] := by
    decide
  rw [show internedNames (System.init _ _ _ _ _) callerEvents = ["loop", "main", "main"] from
    hnames] at hsymbols
  exact ⟨w, p, hw, hp, hsymbols⟩

theorem direct_calls_exact_callers :
    ∃ w p, pluginExit listOrders (outcome (installed 2 1 true) callerEvents).1.machine.plugin
        (execSum (outcome (installed 2 1 true) callerEvents).1.machine) = some w
      ∧ parse [] [] w.writer = .ok p ∧ ⟨0x10, 0x20, 2⟩ ∈ p.directCalls := by
  obtain ⟨hruns, hidle⟩ := callerEvents_rests
  obtain ⟨w, hw⟩ := callerEvents_exits
  have hrun := runFrom_outcome _ _ hruns
  have hapart : Apart (outcome (installed 2 1 true) callerEvents).1 :=
    apart_of_idle hrun hidle (by decide)
  obtain ⟨p, hp, _, hcalls⟩ := direct_calls_exact hrun (by decide) (by decide) hapart hw [] []
  exact ⟨w, p, hw, hp, (hcalls 0x10 0x20 2).mpr (by decide)⟩

end QemuProfiler.Threads

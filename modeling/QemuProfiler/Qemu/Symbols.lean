/-
  QemuProfiler.Qemu.Symbols
  ─────────────────────────
  **THE SYMBOL OF A BLOCK**, in every run of the emulator.

  Only translations intern symbols, so after any run the plugin's table is that
  of the symbols of all translations, in their order (`symbolInv_run`).  The
  symbol id in a block's record leads back to the symbol the emulator gave with
  a translation of that block (`symId_resolves`).
-/
import QemuProfiler.Plugin.Interning
import QemuProfiler.Qemu.Invariant

namespace QemuProfiler.Qemu

open QemuProfiler.Lib QemuProfiler.Plugin

/-! ## §1. What keeps the symbols. -/

/-- The symbol id in the record under a key. -/
def symIdAt (s : PluginState) (k : TbKey) : Option UInt16 := (s.tbMap.lookup k).map TbMeta.symId

/-- The symbol tables and the symbol ids of the records are the same. -/
structure SymbolsKept (s s' : PluginState) : Prop where
  symbols : s'.symbols = s.symbols
  symbolIds : s'.symbolIds = s.symbolIds
  nextSymId : s'.nextSymId = s.nextSymId
  records : symIdAt s' = symIdAt s

theorem SymbolsKept.trans {s s' s'' : PluginState} (h : SymbolsKept s s')
    (h' : SymbolsKept s' s'') : SymbolsKept s s'' :=
  ⟨h'.symbols.trans h.symbols, h'.symbolIds.trans h.symbolIds, h'.nextSymId.trans h.nextSymId,
    h'.records.trans h.records⟩

theorem SymbolsKept.interned {table : NameTable String 65535} {missed : Nat}
    {s s' : PluginState} (h : SymbolsKept s s') (hs : Interned table missed s) :
    Interned table missed s' := by
  refine ⟨?_, ?_, ?_, hs.filled⟩
  · rw [h.symbolIds]
    exact hs.ids
  · rw [h.symbols]
    exact hs.names
  · rw [h.nextSymId]
    exact hs.next

/-- An entry may change in all fields but its symbol id. -/
theorem symIdAt_modify (s : PluginState) (key : TbKey) (f : TbMeta → TbMeta)
    (hf : ∀ e, (f e).symId = e.symId) :
    symIdAt { s with tbMap := s.tbMap.modify key f } = symIdAt s := by
  funext k
  unfold symIdAt
  dsimp only
  rw [HashMap.lookup_modify]
  by_cases hk : k = key
  · rw [if_pos hk, hk, Option.map_map]
    congr 1
    funext e
    exact hf e
  · rw [if_neg hk]

theorem symbolsKept_initWriterIfNeeded (host : HostInfo) (s : PluginState) :
    SymbolsKept s (initWriterIfNeeded host s) := by
  rw [initWriterIfNeeded_eq]
  by_cases hinit : s.writerInitialized = true
  · rw [if_pos hinit]
    exact ⟨rfl, rfl, rfl, rfl⟩
  · rw [if_neg hinit]
    unfold openWriter
    split <;> exact ⟨rfl, rfl, rfl, rfl⟩

theorem symbolsKept_laterTiers (s : PluginState) (tb : QemuTb) :
    SymbolsKept s (laterTiers s tb) := by
  have htier2 : SymbolsKept s (if s.config.tier ≥ 2 then Tier2.instrumentTb s tb else s) := by
    split
    · unfold Tier2.instrumentTb
      dsimp only
      refine ⟨rfl, rfl, rfl, ?_⟩
      split
      · exact symIdAt_modify s tb.key (fun m => { m with endsWithIndirect := true }) fun _ => rfl
      · rfl
    · exact ⟨rfl, rfl, rfl, rfl⟩
  unfold laterTiers
  generalize (if s.config.tier ≥ 2 then Tier2.instrumentTb s tb else s) = s₂ at htier2 ⊢
  dsimp only
  split
  · refine htier2.trans ⟨rfl, rfl, rfl, ?_⟩
    exact symIdAt_modify _ tb.key
      (fun m => { m with coprocFlags := Tier3.classifyTb _ tb }) fun _ => rfl
  · exact htier2

theorem symbolsKept_pluginAfter (env : Env) (v : Nat) (m : Machine) (tr : Translation) :
    SymbolsKept m.plugin (pluginAfter env v m tr) := by
  obtain ⟨accs, flushed, writer, maps, heq, -, -⟩ := pluginAfter_eq env v m tr
  have hseen : SymbolsKept m.plugin (afterSeen m v tr) := by
    unfold afterSeen
    split
    · exact ⟨rfl, rfl, rfl, symIdAt_modify _ tr.tb.key _ fun _ => rfl⟩
    · exact ⟨rfl, rfl, rfl, rfl⟩
  rw [heq]
  exact hseen.trans ⟨rfl, rfl, rfl, rfl⟩

/-! ## §2. Translations. -/

/-- The symbol the emulator gives with the first instruction. -/
def symbolOfTb (tb : QemuTb) : Option String := (tb.insns.head tb.nonempty).symbol

/-- The names interned for some translations, in their order. -/
def symbolNames (trs : List Translation) : List String := trs.filterMap fun tr => symbolOfTb tr.tb

/-- The id of a symbol after calls with `names`. -/
def symbolIdAfter (names : List String) : Option String → UInt16
  | some name => UInt16.ofNat ((NameTable.ofCalls 65535 names).number name)
  | none => 0

theorem symbolNames_concat (trs : List Translation) (tr : Translation) :
    symbolNames (trs ++ [tr]) = symbolNames trs ++ (symbolOfTb tr.tb).toList := by
  unfold symbolNames
  rw [List.filterMap_append]
  cases hsym : symbolOfTb tr.tb with
  | none => simp only [List.filterMap_cons, hsym, List.filterMap_nil, Option.toList_none]
  | some name => simp only [List.filterMap_cons, hsym, List.filterMap_nil, Option.toList_some]

/-- The id of a symbol that was interned does not change. -/
theorem symbolIdAfter_append {names : List String} {symbol : Option String}
    (h : ∀ name, symbol = some name → name ∈ names) (more : List String) :
    symbolIdAfter (names ++ more) symbol = symbolIdAfter names symbol := by
  cases symbol with
  | none => rfl
  | some name =>
      unfold symbolIdAfter
      dsimp only
      rw [NameTable.number_append (h name rfl)]

/-- Interning the symbol of a block. -/
theorem symbolOf_spec {names : List String} {s : PluginState} {tb : QemuTb}
    (h : Interned (NameTable.ofCalls 65535 names) (NameTable.misses 65535 names) s)
    (hmisses : NameTable.misses 65535 (names ++ (symbolOfTb tb).toList) < 2 ^ 64) :
    (Tier0.symbolOf s tb).1
        = symbolIdAfter (names ++ (symbolOfTb tb).toList) (symbolOfTb tb)
      ∧ Interned (NameTable.ofCalls 65535 (names ++ (symbolOfTb tb).toList))
          (NameTable.misses 65535 (names ++ (symbolOfTb tb).toList)) (Tier0.symbolOf s tb).2 := by
  unfold Tier0.symbolOf
  unfold symbolOfTb at hmisses ⊢
  cases hsym : (tb.insns.head tb.nonempty).symbol with
  | none =>
      rw [Option.toList_none, List.append_nil]
      exact ⟨rfl, h⟩
  | some name =>
      rw [hsym, Option.toList_some] at hmisses
      rw [Option.toList_some]
      unfold symbolIdAfter
      dsimp only
      rw [NameTable.ofCalls_concat, NameTable.misses_concat]
      exact h.step (NameTable.misses_lt_of_concat hmisses)

/-- The table entry of a key: the old one, or a fresh one. -/
theorem symIdAt_mapSection (symId : UInt16) (scoreboard : Nat) (s : PluginState) (tb : QemuTb)
    {k : TbKey} {id : UInt16}
    (h : symIdAt (Tier0.mapSection symId scoreboard s tb).1 k = some id) :
    symIdAt s k = some id ∨ (k = tb.key ∧ id = symId) := by
  unfold Tier0.mapSection at h
  cases hlook : s.tbMap.lookup tb.key with
  | some existing =>
      rw [hlook] at h
      exact Or.inl h
  | none =>
      rw [hlook] at h
      unfold symIdAt at h
      dsimp only at h
      by_cases hk : k = tb.key
      · rw [hk, AList.lookup_insert] at h
        exact Or.inr ⟨hk, (Option.some.inj h).symm⟩
      · rw [AList.lookup_insert_ne hk] at h
        exact Or.inl h

theorem interned_mapSection {table : NameTable String 65535} {missed : Nat} {s : PluginState}
    (h : Interned table missed s) (symId : UInt16) (scoreboard : Nat) (tb : QemuTb) :
    Interned table missed (Tier0.mapSection symId scoreboard s tb).1 := by
  unfold Tier0.mapSection
  cases s.tbMap.lookup tb.key with
  | some existing => exact h
  | none => exact ⟨h.ids, h.names, h.next, h.filled⟩

theorem mem_symbolNames {trs : List Translation} {tr : Translation} (htr : tr ∈ trs) :
    ∀ name, symbolOfTb tr.tb = some name → name ∈ symbolNames trs := by
  intro name hname
  exact List.mem_filterMap.mpr ⟨tr, htr, hname⟩

/-! ## §3. Runs. -/

/-- The plugin's table is that of the translations' symbols, and every record
has the id of the symbol of a translation. -/
structure SymbolInv (m : Machine) : Prop where
  interned : Interned (NameTable.ofCalls 65535 (symbolNames m.translations))
    (NameTable.misses 65535 (symbolNames m.translations)) m.plugin
  records : ∀ k id, symIdAt m.plugin k = some id → ∃ tr ∈ m.translations,
    tr.tb.key = k ∧ id = symbolIdAfter (symbolNames m.translations) (symbolOfTb tr.tb)

theorem SymbolInv.kept {m m' : Machine} (h : SymbolInv m)
    (hkept : SymbolsKept m.plugin m'.plugin) (htrans : m'.translations = m.translations) :
    SymbolInv m' := by
  refine ⟨?_, ?_⟩
  · rw [htrans]
    exact hkept.interned h.interned
  · rw [htrans, hkept.records]
    exact h.records

theorem SymbolInv.translate {m : Machine} (h : SymbolInv m) (tb : QemuTb)
    (hmisses : NameTable.misses 65535 (symbolNames (translate m tb).translations) < 2 ^ 64) :
    SymbolInv (translate m tb) := by
  have hinit := symbolsKept_initWriterIfNeeded m.host m.plugin
  have hnames : symbolNames (Qemu.translate m tb).translations
      = symbolNames m.translations ++ (symbolOfTb tb).toList := symbolNames_concat _ _
  rw [hnames] at hmisses
  obtain ⟨hid, hinterned⟩ := symbolOf_spec (hinit.interned h.interned) hmisses
  have hlater := symbolsKept_laterTiers
    (Tier0.instrumentTb m.nextScoreboard (initWriterIfNeeded m.host m.plugin) tb).1 tb
  have hplugin : (Qemu.translate m tb).plugin = laterTiers
      (Tier0.instrumentTb m.nextScoreboard (initWriterIfNeeded m.host m.plugin) tb).1 tb := rfl
  rw [Tier0.instrumentTb_eq] at hlater hplugin
  refine ⟨?_, ?_⟩
  · rw [hnames, hplugin]
    exact hlater.interned (interned_mapSection hinterned _ _ _)
  · intro k id hk
    rw [hplugin, hlater.records] at hk
    rw [hnames]
    rcases symIdAt_mapSection _ _ _ _ hk with hold | ⟨hkey, hfresh⟩
    · -- an old record
      have hsame : symIdAt (Tier0.symbolOf (initWriterIfNeeded m.host m.plugin) tb).2
          = symIdAt m.plugin := by
        rw [← hinit.records]
        unfold symIdAt
        rw [(symbolOf_same (initWriterIfNeeded m.host m.plugin) tb).2]
      rw [hsame] at hold
      obtain ⟨tr, htr, hkey, hrecord⟩ := h.records k id hold
      refine ⟨tr, List.mem_append_left _ htr, hkey, ?_⟩
      rw [symbolIdAfter_append (mem_symbolNames htr)]
      exact hrecord
    · -- the record of this translation
      exact ⟨_, List.mem_append_right _ (List.mem_singleton_self _), hkey.symm, hfresh.trans hid⟩

section Runs

variable {config : PluginConfig} {tier3 sysemu : Bool} {arch : String} {host : HostInfo}
  {evs : List Event} {m : Machine} {rs : List ExecRecord}

theorem symbolInv_init : SymbolInv (Machine.init config tier3 sysemu arch host) where
  interned := interned_new config tier3 sysemu arch
  records := by
    intro k id h
    have hnone : symIdAt (PluginState.new config tier3 sysemu arch) k = none := rfl
    rw [show symIdAt (Machine.init config tier3 sysemu arch host).plugin k = none from hnone] at h
    cases h

theorem misses_symbolNames_le (trs : List Translation) :
    NameTable.misses 65535 (symbolNames trs) ≤ trs.length :=
  Nat.le_trans (NameTable.misses_le_length _ _) (List.length_filterMap_le _ _)

/-- **The table of a run**, as long as the counter has not wrapped. -/
theorem symbolInv_run (h : runFrom (Machine.init config tier3 sysemu arch host) evs = some (m, rs))
    (hlen : m.translations.length < 2 ^ 64) : SymbolInv m := by
  refine runFrom_induction (fun m _ => m.translations.length < 2 ^ 64 → SymbolInv m)
    (fun _ => symbolInv_init) ?_ ?_ ?_ ?_ h hlen
  · intro m rs v plugin hp hgrow hlen
    obtain ⟨i, j, heq, -, -⟩ := ensureVcpuState_eq hgrow
    exact (hp hlen).kept ⟨by rw [heq], by rw [heq], by rw [heq], by rw [heq]; rfl⟩ rfl
  · intro m rs tb _ hp hlen
    have hmisses := Nat.lt_of_le_of_lt (misses_symbolNames_le _) hlen
    have hone : (translate m tb).translations.length = m.translations.length + 1 :=
      List.length_append
    exact (hp (by omega)).translate tb hmisses
  · intro m rs hp hlen
    exact (hp hlen).kept ⟨rfl, rfl, rfl, rfl⟩ rfl
  · intro m rs env v tr started _ hp _ _ _ hlen
    exact (hp hlen).kept (symbolsKept_pluginAfter env v m tr) rfl

/-- **THE SYMBOL OF A BLOCK.**  In every run with fewer than 2^64 translations,
the symbol id in a block's record is 0 or leads, in the plugin's table, to the
symbol that the emulator gave with a translation of that block. -/
theorem symId_resolves
    (h : runFrom (Machine.init config tier3 sysemu arch host) evs = some (m, rs))
    (hlen : m.translations.length < 2 ^ 64) {k : TbKey} {e : TbMeta}
    (he : m.plugin.tbMap.lookup k = some e) (hid : e.symId ≠ 0) :
    ∃ tr ∈ m.translations, tr.tb.key = k
      ∧ ∃ name, symbolOfTb tr.tb = some name ∧ m.plugin.symbols.lookup e.symId = some name := by
  obtain ⟨hinterned, hrecords⟩ := symbolInv_run h hlen
  have hrecord : symIdAt m.plugin k = some e.symId := by
    unfold symIdAt
    rw [he]
    rfl
  obtain ⟨tr, htr, hkey, hsym⟩ := hrecords k e.symId hrecord
  refine ⟨tr, htr, hkey, ?_⟩
  cases hname : symbolOfTb tr.tb with
  | none =>
      rw [hname] at hsym
      -- a block without symbol has the id 0
      exact absurd hsym hid
  | some name =>
      rw [hname] at hsym
      refine ⟨name, rfl, (hinterned.names e.symId name).mpr ⟨hid, ?_⟩⟩
      rw [hsym]
      exact (UInt16.toNat_ofNat_of_lt (hinterned.number_lt name)).symm

end Runs

end QemuProfiler.Qemu

/-
  QemuProfiler.Plugin.Interning
  ─────────────────────────────
  **SYMBOL INTERNING** over any sequence of calls of `intern_symbol`.

  After any calls the two maps of the plugin are the table of
  `Lib.Interning` with 65535 places (`Interned`, `internCalls_spec`): the ids
  are the numbers of the names.  The counter behind the ids counts the calls
  that miss, also when the table is full, and has 64 bits: with the 2^64-th
  miss it is back at 0, the id that stands for no symbol, and hands it out
  (`internSymbol_wraps`).  Up to there interning is right, and from there on
  it is wrong for good (`internSymbol_correct_iff`).
-/
import QemuProfiler.Lib.Interning
import QemuProfiler.Plugin.State

namespace QemuProfiler.Plugin

open QemuProfiler.Lib

/-! ## §1. Calls. -/

/-- The calls one after the other: what each was made with and returned. -/
def internCalls (state : PluginState) : List String → List (String × UInt16) × PluginState
  | [] => ([], state)
  | name :: names =>
      let called := state.internSymbol name
      let rest := internCalls called.2 names
      ((name, called.1) :: rest.1, rest.2)

theorem internCalls_cons (state : PluginState) (name : String) (names : List String) :
    internCalls state (name :: names)
      = ((name, (state.internSymbol name).1)
            :: (internCalls (state.internSymbol name).2 names).1,
          (internCalls (state.internSymbol name).2 names).2) := rfl

theorem internCalls_append (state : PluginState) (names more : List String) :
    internCalls state (names ++ more)
      = ((internCalls state names).1 ++ (internCalls (internCalls state names).2 more).1,
          (internCalls (internCalls state names).2 more).2) := by
  induction names generalizing state with
  | nil => rfl
  | cons name names ih => rw [List.cons_append, internCalls_cons, internCalls_cons, ih]; rfl

theorem internCalls_concat (state : PluginState) (names : List String) (name : String) :
    internCalls state (names ++ [name])
      = ((internCalls state names).1
          ++ [(name, ((internCalls state names).2.internSymbol name).1)],
          ((internCalls state names).2.internSymbol name).2) :=
  internCalls_append state names [name]

/-! ## §2. One call. -/

/-- The maps hold the table, and the counter has counted the misses. -/
structure Interned (table : NameTable String 65535) (missed : Nat) (state : PluginState) :
    Prop where
  ids : ∀ name id, state.symbolIds.lookup name = some id ↔ id ≠ 0 ∧ table.number name = id.toNat
  names : ∀ id name, state.symbols.lookup id = some name ↔ id ≠ 0 ∧ table.number name = id.toNat
  next : state.nextSymId = UInt64.ofNat (1 + missed)
  filled : table.names.length = min 65535 missed

theorem interned_new (config : PluginConfig) (tier3 sysemu : Bool) (arch : String) :
    Interned (NameTable.empty String 65535) 0 (PluginState.new config tier3 sysemu arch) := by
  have hnumber : ∀ name, (NameTable.empty String 65535).number name = 0 := by
    intro name
    exact NameTable.number_eq_zero.mpr List.not_mem_nil
  have hnone : ∀ (name : String) (id : UInt16),
      ¬ (id ≠ 0 ∧ (NameTable.empty String 65535).number name = id.toNat) := by
    intro name id h
    exact h.1 (UInt16.toNat_inj.mp (h.2.symm.trans (hnumber name)))
  refine ⟨?_, ?_, rfl, rfl⟩
  · intro name id
    have hlook : (PluginState.new config tier3 sysemu arch).symbolIds.lookup name = none :=
      AList.lookup_empty name
    rw [hlook]
    exact iff_of_false (fun h => nomatch h) (hnone name id)
  · intro id name
    have hlook : (PluginState.new config tier3 sysemu arch).symbols.lookup id = none :=
      AList.lookup_empty id
    rw [hlook]
    exact iff_of_false (fun h => nomatch h) (hnone name id)

theorem internSymbol_of_some {state : PluginState} {name : String} {id : UInt16}
    (h : state.symbolIds.lookup name = some id) : state.internSymbol name = (id, state) := by
  unfold PluginState.internSymbol
  rw [h]

/-- A call that misses: the counter moves on, and gives its old value as an
id while that has 16 bits. -/
theorem internSymbol_of_none {state : PluginState} {name : String}
    (h : state.symbolIds.lookup name = none) :
    state.internSymbol name
      = if state.nextSymId.toNat > 65535 then
          (0, { state with nextSymId := state.nextSymId + 1 })
        else
          (state.nextSymId.toUInt16,
            { state with
              nextSymId := state.nextSymId + 1
              symbolIds := state.symbolIds.insert name state.nextSymId.toUInt16
              symbols := state.symbols.insert state.nextSymId.toUInt16 name }) := by
  unfold PluginState.internSymbol
  rw [h]

section Step

variable {table : NameTable String 65535} {missed : Nat} {state : PluginState} {name : String}

theorem Interned.number_lt (_h : Interned table missed state) (a : String) :
    table.number a < 2 ^ 16 := by
  have hle := table.number_le a
  have hbound := table.bounded
  omega

/-- What the table holds is in the map, under its number. -/
theorem Interned.lookup_of_mem (h : Interned table missed state) (hin : name ∈ table.names) :
    state.symbolIds.lookup name = some (UInt16.ofNat (table.number name)) := by
  have hnat : (UInt16.ofNat (table.number name)).toNat = table.number name :=
    UInt16.toNat_ofNat_of_lt (h.number_lt name)
  rw [h.ids]
  refine ⟨?_, hnat.symm⟩
  intro hzero
  rw [hzero] at hnat
  exact NameTable.number_eq_zero.mp hnat.symm hin

theorem Interned.lookup_of_not_mem (h : Interned table missed state) (hnew : name ∉ table.names) :
    state.symbolIds.lookup name = none := by
  cases hlook : state.symbolIds.lookup name with
  | none => rfl
  | some id =>
      obtain ⟨hne, hnumber⟩ := (h.ids name id).mp hlook
      rw [NameTable.number_eq_zero.mpr hnew] at hnumber
      exact absurd (UInt16.toNat_inj.mp hnumber.symm) hne

/-- A new name, entered under the next number. -/
theorem Interned.insert (h : Interned table missed state) (hnew : name ∉ table.names)
    (hroom : table.names.length < 65535) {id : UInt16} (hid : id.toNat = table.names.length + 1)
    (hnext : state.nextSymId + 1 = UInt64.ofNat (1 + (missed + 1))) :
    Interned (table.note name) (missed + 1)
      { state with
        nextSymId := state.nextSymId + 1
        symbolIds := state.symbolIds.insert name id
        symbols := state.symbols.insert id name } := by
  have hself : (table.note name).number name = id.toNat := by
    rw [hid]
    exact NameTable.number_note_self hnew hroom
  have hne : id ≠ 0 := by
    intro hzero
    rw [hzero] at hid
    exact absurd hid.symm (Nat.succ_ne_zero _)
  refine ⟨?_, ?_, hnext, ?_⟩
  · intro a i
    by_cases ha : a = name
    · rw [ha, AList.lookup_insert, hself, UInt16.toNat_inj, Option.some.injEq]
      exact ⟨fun hi => ⟨hi ▸ hne, hi⟩, And.right⟩
    · rw [AList.lookup_insert_ne ha, NameTable.number_note_of_ne table ha]
      exact h.ids a i
  · intro i a
    by_cases hi : i = id
    · rw [hi, AList.lookup_insert, Option.some.injEq]
      constructor
      · intro ha
        rw [← ha]
        exact ⟨hne, hself⟩
      · intro ha
        have hpos : (table.note name).number name ≠ 0 := by omega
        exact (NameTable.number_inj hpos).mp (hself.trans ha.2.symm)
    · rw [AList.lookup_insert_ne hi, h.names]
      by_cases ha : a = name
      · -- neither the old nor the new number of `name` is `i`
        rw [ha, hself, NameTable.number_eq_zero.mpr hnew]
        refine iff_of_false (fun hc => ?_) (fun hc => ?_)
        · exact hc.1 (UInt16.toNat_inj.mp hc.2.symm)
        · exact hi (UInt16.toNat_inj.mp hc.2.symm)
      · rw [NameTable.number_note_of_ne table ha]
  · have hfilled := h.filled
    rw [NameTable.names_note hnew hroom, List.length_append, List.length_singleton]
    omega

/-- **One call is one name noted.** -/
theorem Interned.step (h : Interned table missed state)
    (hroom : name ∉ table.names → missed + 1 < 2 ^ 64) :
    (state.internSymbol name).1 = UInt16.ofNat ((table.note name).number name)
      ∧ Interned (table.note name) (missed + if name ∈ table.names then 0 else 1)
          (state.internSymbol name).2 := by
  by_cases hin : name ∈ table.names
  · rw [internSymbol_of_some (h.lookup_of_mem hin), NameTable.note_of_mem hin, if_pos hin]
    exact ⟨rfl, h⟩
  · have hlt := hroom hin
    have hfilled := h.filled
    have hraw : state.nextSymId.toNat = 1 + missed := by
      rw [h.next]
      exact UInt64.toNat_ofNat_of_lt' (by show _ < 2 ^ 64; omega)
    have hnext : state.nextSymId + 1 = UInt64.ofNat (1 + (missed + 1)) := by
      rw [h.next, ← Nat.add_assoc, UInt64.ofNat_add (1 + missed) 1]
      rfl
    rw [internSymbol_of_none (h.lookup_of_not_mem hin), if_neg hin, hraw]
    by_cases hfull : 1 + missed > 65535
    · rw [if_pos hfull, NameTable.note_of_full (by omega), NameTable.number_eq_zero.mpr hin]
      exact ⟨rfl, ⟨h.ids, h.names, hnext, by omega⟩⟩
    · rw [if_neg hfull]
      have hid : state.nextSymId.toUInt16.toNat = table.names.length + 1 := by
        rw [UInt64.toNat_toUInt16, hraw]
        omega
      refine ⟨?_, h.insert hin (by omega) hid hnext⟩
      rw [NameTable.number_note_self hin (by omega), ← hid, UInt16.ofNat_toNat]

end Step

/-! ## §3. Any number of calls. -/

section Runs

variable {config : PluginConfig} {tier3 sysemu : Bool} {arch : String} {names : List String}

/-- **WHAT THE CALLS DO**, while the counter has not wrapped: every call
returns the number that its name has in the end. -/
theorem internCalls_spec (config : PluginConfig) (tier3 sysemu : Bool) (arch : String)
    (hmisses : NameTable.misses 65535 names < 2 ^ 64) :
    (internCalls (PluginState.new config tier3 sysemu arch) names).1
        = names.map (fun a => (a, UInt16.ofNat ((NameTable.ofCalls 65535 names).number a)))
      ∧ Interned (NameTable.ofCalls 65535 names) (NameTable.misses 65535 names)
          (internCalls (PluginState.new config tier3 sysemu arch) names).2 := by
  induction names using List.reverseRecOn with
  | nil => exact ⟨rfl, interned_new config tier3 sysemu arch⟩
  | append_singleton names name ih =>
      have hbefore : NameTable.misses 65535 names < 2 ^ 64 := by
        rw [NameTable.misses_concat] at hmisses
        exact Nat.lt_of_le_of_lt (Nat.le_add_right _ _) hmisses
      obtain ⟨hlog, hinterned⟩ := ih hbefore
      obtain ⟨hid, hnext⟩ := hinterned.step (NameTable.misses_lt_of_concat hmisses)
      have hold : names.map (fun a => (a, UInt16.ofNat ((NameTable.ofCalls 65535 names).number a)))
          = names.map fun a =>
              (a, UInt16.ofNat ((NameTable.ofCalls 65535 (names ++ [name])).number a)) := by
        apply List.map_congr_left
        intro a ha
        rw [NameTable.number_append ha]
      rw [internCalls_concat, NameTable.misses_concat]
      refine ⟨?_, NameTable.ofCalls_concat names name ▸ hnext⟩
      rw [List.map_append, hlog, hold, List.map_singleton, hid, NameTable.ofCalls_concat]

/-- A call misses in the code when it misses in the list of names. -/
theorem lookup_eq_none_iff (config : PluginConfig) (tier3 sysemu : Bool) (arch : String)
    (hmisses : NameTable.misses 65535 names < 2 ^ 64) (name : String) :
    (internCalls (PluginState.new config tier3 sysemu arch) names).2.symbolIds.lookup name = none
      ↔ name ∉ names.eraseDups.take 65535 := by
  have hinterned := (internCalls_spec config tier3 sysemu arch hmisses).2
  rw [← NameTable.names_ofCalls]
  constructor
  · intro hnone hin
    rw [hinterned.lookup_of_mem hin] at hnone
    cases hnone
  · exact hinterned.lookup_of_not_mem

/-! ## §4. What interning promises. -/

/-- What `intern_symbol` promises of the calls with `names`: `run` is what
they returned and left behind. -/
structure InterningCorrect (names : List String)
    (run : List (String × UInt16) × PluginState) : Prop where
  /-- `symbols` and `symbol_ids` are inverse to each other. -/
  inverse : ∀ name id, run.2.symbolIds.lookup name = some id ↔ run.2.symbols.lookup id = some name
  /-- The ids are 1, …, `k`. -/
  segment : ∃ k ≤ 65535, ∀ id : UInt16,
    (run.2.symbols.lookup id).isSome ↔ 1 ≤ id.toNat ∧ id.toNat ≤ k
  /-- Ids tell names apart. -/
  faithful : ∀ c ∈ run.1, ∀ d ∈ run.1, c.2 ≠ 0 → d.2 ≠ 0 → (c.2 = d.2 ↔ c.1 = d.1)
  /-- A later call for a name with an id returns that id. -/
  stable : run.1.Pairwise fun c d => c.1 = d.1 → c.2 ≠ 0 → d.2 = c.2
  /-- 0 is for the names that come first after 65535 others. -/
  full : ∀ c ∈ run.1, c.2 = 0 ↔ 65535 ≤ (names.takeWhile (· ≠ c.1)).eraseDups.length

theorem Interned.inverse {table : NameTable String 65535} {missed : Nat} {state : PluginState}
    (h : Interned table missed state) (name : String) (id : UInt16) :
    state.symbolIds.lookup name = some id ↔ state.symbols.lookup id = some name := by
  rw [h.ids, h.names]

/-- The ids are those of the table. -/
theorem Interned.segment {table : NameTable String 65535} {missed : Nat} {state : PluginState}
    (h : Interned table missed state) (id : UInt16) :
    (state.symbols.lookup id).isSome ↔ 1 ≤ id.toNat ∧ id.toNat ≤ table.names.length := by
  have hpos : id ≠ 0 ↔ 1 ≤ id.toNat := by
    rw [Ne, ← UInt16.toNat_inj]
    exact Nat.pos_iff_ne_zero.symm
  rw [Option.isSome_iff_exists]
  constructor
  · intro ⟨name, hname⟩
    obtain ⟨hne, hnumber⟩ := (h.names id name).mp hname
    exact ⟨hpos.mp hne, hnumber ▸ table.number_le name⟩
  · intro ⟨hge, hle⟩
    obtain ⟨name, hnumber⟩ := NameTable.exists_number hge hle
    exact ⟨name, (h.names id name).mpr ⟨hpos.mpr hge, hnumber⟩⟩

theorem interningCorrect_of_misses (config : PluginConfig) (tier3 sysemu : Bool) (arch : String)
    (hmisses : NameTable.misses 65535 names < 2 ^ 64) :
    InterningCorrect names
      (internCalls (PluginState.new config tier3 sysemu arch) names) := by
  obtain ⟨hlog, hinterned⟩ := internCalls_spec config tier3 sysemu arch hmisses
  have hentry : ∀ c ∈ (internCalls (PluginState.new config tier3 sysemu arch) names).1,
      c.1 ∈ names ∧ c.2.toNat = (NameTable.ofCalls 65535 names).number c.1 := by
    intro c hc
    rw [hlog] at hc
    obtain ⟨a, ha, rfl⟩ := List.mem_map.mp hc
    exact ⟨ha, UInt16.toNat_ofNat_of_lt (hinterned.number_lt a)⟩
  have hzero : ∀ c ∈ (internCalls (PluginState.new config tier3 sysemu arch) names).1,
      c.2 = 0 ↔ (NameTable.ofCalls 65535 names).number c.1 = 0 := by
    intro c hc
    rw [← (hentry c hc).2, ← UInt16.toNat_inj]
    rfl
  refine ⟨hinterned.inverse, ⟨_, NameTable.bounded _, hinterned.segment⟩, ?_, ?_, ?_⟩
  · intro c hc d hd hcne _
    rw [← UInt16.toNat_inj, (hentry c hc).2, (hentry d hd).2]
    exact NameTable.number_inj fun h0 => hcne ((hzero c hc).mpr h0)
  · rw [List.pairwise_iff_forall_sublist]
    intro c d hcd heq _
    have hc := hcd.subset (List.mem_cons_self ..)
    have hd := hcd.subset (List.mem_cons_of_mem c (List.mem_singleton_self d))
    rw [← UInt16.toNat_inj, (hentry c hc).2, (hentry d hd).2, heq]
  · intro c hc
    rw [hzero c hc]
    exact NameTable.number_eq_zero_iff (hentry c hc).1

/-! ## §5. The counter wraps. -/

/-- A name in the map stays there with its id. -/
theorem lookup_internCalls {state : PluginState} {name : String} {id : UInt16}
    (h : state.symbolIds.lookup name = some id) (more : List String) :
    (internCalls state more).2.symbolIds.lookup name = some id := by
  induction more generalizing state with
  | nil => exact h
  | cons a more ih =>
      rw [internCalls_cons]
      apply ih
      cases hlook : state.symbolIds.lookup a with
      | some i =>
          rw [internSymbol_of_some hlook]
          exact h
      | none =>
          have hne : name ≠ a := by
            intro heq
            rw [heq, hlook] at h
            cases h
          rw [internSymbol_of_none hlook]
          split
          · exact h
          · show AList.lookup name (state.symbolIds.insert a _) = some id
            rw [AList.lookup_insert_ne hne]
            exact h

/-- **With the 2^64-th miss the counter is back at 0**, and 0 becomes the id of
that name. -/
theorem internSymbol_wraps {table : NameTable String 65535} {state : PluginState} {name : String}
    (h : Interned table (2 ^ 64 - 1) state) (hnew : name ∉ table.names) :
    (state.internSymbol name).2.symbolIds.lookup name = some 0 := by
  have hraw : state.nextSymId = 0 := h.next
  rw [internSymbol_of_none (h.lookup_of_not_mem hnew), hraw, if_neg (by decide)]
  exact AList.lookup_insert state.symbolIds

theorem exists_zero_id (config : PluginConfig) (tier3 sysemu : Bool) (arch : String)
    (hmisses : 2 ^ 64 ≤ NameTable.misses 65535 names) :
    ∃ name, (internCalls (PluginState.new config tier3 sysemu arch) names).2.symbolIds.lookup name
      = some 0 := by
  obtain ⟨past, name, rest, hnames, hpast, hnew⟩ :=
    NameTable.exists_miss (Nat.lt_of_lt_of_le (by decide : 2 ^ 64 - 1 < 2 ^ 64) hmisses)
  have hlt : NameTable.misses 65535 past < 2 ^ 64 := by omega
  have hinterned := (internCalls_spec config tier3 sysemu arch hlt).2
  rw [hpast] at hinterned
  refine ⟨name, ?_⟩
  rw [hnames, List.append_cons, internCalls_append]
  apply lookup_internCalls
  rw [internCalls_concat]
  exact internSymbol_wraps hinterned hnew

/-- Id 0 is not one of the ids 1, …, `k`. -/
theorem InterningCorrect.ne_zero {run : List (String × UInt16) × PluginState}
    (h : InterningCorrect names run) (name : String) :
    run.2.symbolIds.lookup name ≠ some 0 := by
  intro hzero
  obtain ⟨k, _, hsegment⟩ := h.segment
  have hsome : (run.2.symbols.lookup 0).isSome := by
    rw [(h.inverse name 0).mp hzero]
    rfl
  exact absurd ((hsegment 0).mp hsome).1 (by decide)

/-- **SYMBOL INTERNING IS CORRECT** exactly while fewer than 2^64 calls have
been for a name that is not in the table. -/
theorem internSymbol_correct_iff (config : PluginConfig) (tier3 sysemu : Bool) (arch : String)
    (names : List String) :
    InterningCorrect names (internCalls (PluginState.new config tier3 sysemu arch) names)
      ↔ NameTable.misses 65535 names < 2 ^ 64 := by
  constructor
  · intro h
    by_contra hmisses
    obtain ⟨name, hzero⟩ := exists_zero_id config tier3 sysemu arch (Nat.le_of_not_lt hmisses)
    exact h.ne_zero name hzero
  · exact interningCorrect_of_misses config tier3 sysemu arch

/-- Different names for different numbers. -/
def symbolName (i : Nat) : String := String.ofList (List.replicate i 's')

/-- Names for the whole table, and then `calls` calls for one more. -/
def crowd (calls : Nat) : List String :=
  (List.range 65535).map symbolName ++ List.replicate calls (symbolName 65535)

theorem symbolName_injective : Function.Injective symbolName := by
  intro i j h
  have hlen := congrArg List.length (String.ofList_inj.mp h)
  rw [List.length_replicate, List.length_replicate] at hlen
  exact hlen

theorem misses_crowd (calls : Nat) : NameTable.misses 65535 (crowd calls) = 65535 + calls := by
  have hnodup : ((List.range 65535).map symbolName).Nodup :=
    List.nodup_range.map symbolName_injective
  have hmisses : NameTable.misses 65535 ((List.range 65535).map symbolName) = 65535 := by
    rw [NameTable.misses_of_nodup hnodup, List.length_map, List.length_range]
  have hnew : symbolName 65535 ∉ ((List.range 65535).map symbolName) := by
    intro hin
    obtain ⟨i, hi, heq⟩ := List.mem_map.mp hin
    exact absurd (List.mem_range.mp hi) (by rw [symbolName_injective heq]; exact Nat.lt_irrefl _)
  have hout : symbolName 65535
      ∉ (NameTable.ofCalls 65535 ((List.range 65535).map symbolName)).names := by
    rw [NameTable.names_ofCalls]
    exact fun hin => hnew (List.mem_eraseDups.mp (List.mem_of_mem_take hin))
  have hfull := NameTable.length_names_eq_min_misses 65535 ((List.range 65535).map symbolName)
  rw [hmisses, Nat.min_self] at hfull
  unfold crowd
  rw [(NameTable.misses_append_replicate hfull hout calls).2, hmisses]

/-- **The id 0 given out**: after 65535 names, one more name that is asked for
again and again. -/
theorem internSymbol_fails :
    ¬ InterningCorrect (crowd (2 ^ 64 - 65535))
      (internCalls (PluginState.new PluginConfig.default false false "x86_64")
        (crowd (2 ^ 64 - 65535))) := by
  intro h
  have hmisses : 2 ^ 64 ≤ NameTable.misses 65535 (crowd (2 ^ 64 - 65535)) := by
    rw [misses_crowd]
    omega
  obtain ⟨name, hzero⟩ := exists_zero_id PluginConfig.default false false "x86_64" hmisses
  exact h.ne_zero name hzero

end Runs

end QemuProfiler.Plugin

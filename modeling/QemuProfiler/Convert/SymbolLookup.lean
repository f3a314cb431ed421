/-
  QemuProfiler.Convert.SymbolLookup
  ─────────────────────────────────
  **WHICH SYMBOL CONTAINS AN ADDRESS.**

  `symbol_at` looks at ONE symbol, the last that starts at or before the
  address.  What it returns is right (`symbolAt_sound`); whether it finds
  something depends on how the ranges nest.

    • `symbolAt_correct_iff` — the look-up is right at every address exactly
      when a symbol that starts inside another one reaches the other's end,
      or the next start,
    • `symbolAt_misses_outer` — behind a function inside a larger range.
-/
import QemuProfiler.Convert.SymbolIndex

namespace QemuProfiler.Convert

open QemuProfiler.Lib

/-! ## §1. Ranges. -/

/-- The end of a symbol's range, as a number. -/
def Symbol.stop (s : Symbol) : Nat := s.addr.toNat + s.size.toNat

def Symbol.Contains (s : Symbol) (a : UInt64) : Prop :=
  s.addr.toNat ≤ a.toNat ∧ a.toNat < s.stop

/-- Ranges that do not wrap. -/
def RangesFit (symbols : List Symbol) : Prop := ∀ s ∈ symbols, s.stop < 2 ^ 64

/-- The comparison of the look-up, for a range that does not wrap. -/
theorem lt_stop_iff {s : Symbol} (hfit : s.stop < 2 ^ 64) (a : UInt64) :
    a < s.addr + s.size ↔ a.toNat < s.stop := by
  unfold Symbol.stop at hfit ⊢
  rw [UInt64.lt_iff_toNat_lt, UInt64.toNat_add, Nat.mod_eq_of_lt hfit]

/-- The look-up is right at `a`: it finds a symbol exactly when one contains
`a`, and then the one of them with the greatest start. -/
structure LookupCorrect (index : ElfIndex) (a : UInt64) : Prop where
  found : (index.symbolAt a).isSome ↔ ∃ s ∈ index.symbols, s.Contains a
  greatest : ∀ s, index.symbolAt a = some s →
    s ∈ index.symbols ∧ s.Contains a ∧ ∀ t ∈ index.symbols, t.Contains a → t.addr ≤ s.addr

/-- A symbol `t` that starts inside the range of `s` reaches the end of that
range, unless another symbol starts before `t` ends. -/
def NestedReach (symbols : List Symbol) : Prop :=
  ∀ s ∈ symbols, ∀ t ∈ symbols, s.addr < t.addr → t.addr.toNat < s.stop →
    s.stop ≤ t.stop ∨ ∃ u ∈ symbols, t.addr < u.addr ∧ u.addr.toNat ≤ t.stop

/-! ## §2. The look-up. -/

theorem sortedBy_symbols (index : ElfIndex) : SortedBy Symbol.addr index.symbols :=
  index.sorted.imp fun hlt => UInt64.le_of_lt hlt

theorem ordered_symbols (index : ElfIndex) : OrderedMap.Ordered Symbol.addr index.symbols :=
  index.sorted

/-- The symbol the look-up goes to, once any symbol starts at or before `a`. -/
theorem exists_lastAtOrBefore {index : ElfIndex} {a : UInt64} {s : Symbol}
    (hs : s ∈ index.symbols) (hle : s.addr ≤ a) :
    ∃ t, lastAtOrBefore Symbol.addr index.symbols a = some t ∧ t ∈ index.symbols ∧ t.addr ≤ a
      ∧ ∀ u ∈ index.symbols, u.addr ≤ a → u.addr ≤ t.addr := by
  cases hlast : lastAtOrBefore Symbol.addr index.symbols a with
  | none => exact absurd hle ((lastAtOrBefore_eq_none (sortedBy_symbols index)).mp hlast s hs)
  | some t => exact ⟨t, rfl, lastAtOrBefore_eq_some (sortedBy_symbols index) hlast⟩

/-- What is returned contains the address, and starts last. -/
theorem symbolAt_sound {index : ElfIndex} (hfit : RangesFit index.symbols) {a : UInt64}
    {s : Symbol} (h : index.symbolAt a = some s) :
    s ∈ index.symbols ∧ s.Contains a ∧ ∀ t ∈ index.symbols, t.Contains a → t.addr ≤ s.addr := by
  unfold ElfIndex.symbolAt at h
  obtain ⟨hlast, hstop⟩ := Option.filter_eq_some_iff.mp h
  obtain ⟨hmem, hle, hmax⟩ := lastAtOrBefore_eq_some (sortedBy_symbols index) hlast
  have hlt : a < s.addr + s.size := by simpa using hstop
  refine ⟨hmem, ⟨UInt64.le_iff_toNat_le.mp hle, (lt_stop_iff (hfit s hmem) a).mp hlt⟩, ?_⟩
  intro t ht hcont
  exact hmax t ht (UInt64.le_iff_toNat_le.mpr hcont.1)

/-- The look-up finds something exactly when the last symbol at or before the
address contains it. -/
theorem symbolAt_isSome_iff {index : ElfIndex} (hfit : RangesFit index.symbols) (a : UInt64) :
    (index.symbolAt a).isSome
      ↔ ∃ s ∈ index.symbols, s.Contains a
          ∧ ∀ t ∈ index.symbols, t.addr ≤ a → t.addr ≤ s.addr := by
  constructor
  · intro hsome
    obtain ⟨s, hs⟩ := Option.isSome_iff_exists.mp hsome
    obtain ⟨hmem, hcont, _⟩ := symbolAt_sound hfit hs
    unfold ElfIndex.symbolAt at hs
    obtain ⟨hlast, _⟩ := Option.filter_eq_some_iff.mp hs
    exact ⟨s, hmem, hcont, (lastAtOrBefore_eq_some (sortedBy_symbols index) hlast).2.2⟩
  · intro hex
    obtain ⟨s, hmem, hcont, hmax⟩ := hex
    have hle : s.addr ≤ a := UInt64.le_iff_toNat_le.mpr hcont.1
    -- the last symbol is the one that contains the address
    obtain ⟨t, hlast, ht, hta, htmax⟩ := exists_lastAtOrBefore hmem hle
    have haddr : t.addr = s.addr := UInt64.le_antisymm (hmax t ht hta) (htmax s hmem hle)
    rw [(ordered_symbols index).eq_of_key ht hmem haddr] at hlast
    unfold ElfIndex.symbolAt
    rw [hlast, Option.filter_some,
        if_pos (by simpa using (lt_stop_iff (hfit s hmem) a).mpr hcont.2)]
    rfl

/-! ## §3. When it is complete. -/

/-- Were the rest of an outer range unreached, its first address would be missed. -/
theorem nestedReach_of_lookupCorrect {index : ElfIndex} (hfit : RangesFit index.symbols)
    (h : ∀ a, LookupCorrect index a) : NestedReach index.symbols := by
  intro s hs t ht hst hinside
  by_cases hreach : s.stop ≤ t.stop
  · exact .inl hreach
  · -- the first address behind `t` is still in `s`
    right
    have hlt : t.stop < 2 ^ 64 := hfit t ht
    have hend : (UInt64.ofNat t.stop).toNat = t.stop := by
      rw [UInt64.toNat_ofNat']
      exact Nat.mod_eq_of_lt hlt
    have hstNat := UInt64.lt_iff_toNat_lt.mp hst
    have hstart : t.addr.toNat ≤ t.stop := Nat.le_add_right _ _
    have hcont : s.Contains (UInt64.ofNat t.stop) := by
      unfold Symbol.Contains
      rw [hend]
      omega
    have hsome := (h (UInt64.ofNat t.stop)).found.mpr ⟨s, hs, hcont⟩
    obtain ⟨u, hu, hucont, humax⟩ := (symbolAt_isSome_iff hfit _).mp hsome
    unfold Symbol.Contains at hucont
    rw [hend] at hucont
    have hle : t.addr ≤ u.addr := by
      refine humax t ht (UInt64.le_iff_toNat_le.mpr ?_)
      rw [hend]
      exact hstart
    refine ⟨u, hu, ?_, hucont.1⟩
    rw [UInt64.lt_iff_toNat_lt]
    have hleNat := UInt64.le_iff_toNat_le.mp hle
    have hne : u.addr.toNat ≠ t.addr.toNat := by
      intro heq
      have hut : u = t := (ordered_symbols index).eq_of_key hu ht (UInt64.toNat_inj.mp heq)
      rw [hut] at hucont
      omega
    omega

/-- The last symbol at or before an address holds it whenever some symbol does. -/
theorem lookupCorrect_of_nestedReach {index : ElfIndex} (hfit : RangesFit index.symbols)
    (h : NestedReach index.symbols) (a : UInt64) : LookupCorrect index a := by
  refine ⟨⟨?_, ?_⟩, fun s hs => symbolAt_sound hfit hs⟩
  · intro hsome
    obtain ⟨s, hs⟩ := Option.isSome_iff_exists.mp hsome
    obtain ⟨hmem, hcont, _⟩ := symbolAt_sound hfit hs
    exact ⟨s, hmem, hcont⟩
  · intro hex
    obtain ⟨s, hs, hcont⟩ := hex
    have hle : s.addr ≤ a := UInt64.le_iff_toNat_le.mpr hcont.1
    obtain ⟨t, _, ht, hta, htmax⟩ := exists_lastAtOrBefore hs hle
    have htaNat := UInt64.le_iff_toNat_le.mp hta
    have hstNat := UInt64.le_iff_toNat_le.mp (htmax s hs hle)
    refine (symbolAt_isSome_iff hfit a).mpr ⟨t, ht, ⟨htaNat, ?_⟩, htmax⟩
    have hcontStop := hcont.2
    by_cases hsame : s.addr.toNat = t.addr.toNat
    · rw [(ordered_symbols index).eq_of_key ht hs (UInt64.toNat_inj.mp hsame.symm)]
      exact hcontStop
    · -- `t` starts inside `s`, and nothing starts between `t` and `a`
      have hst : s.addr < t.addr := UInt64.lt_iff_toNat_lt.mpr (by omega)
      rcases h s hs t ht hst (by omega) with hreach | ⟨u, hu, htu, hustop⟩
      · omega
      · by_contra hout
        have hua : u.addr ≤ a := UInt64.le_iff_toNat_le.mpr (by omega)
        exact absurd (htmax u hu hua) (UInt64.not_le.mpr htu)

/-- The look-up at every address against the nesting of the ranges. -/
theorem lookupCorrect_iff {index : ElfIndex} (hfit : RangesFit index.symbols) :
    (∀ a, LookupCorrect index a) ↔ NestedReach index.symbols :=
  ⟨nestedReach_of_lookupCorrect hfit, lookupCorrect_of_nestedReach hfit⟩

/-- **THE LOOK-UP IS COMPLETE** exactly when no symbol that starts inside
another one's range leaves a part of that range between its own end and the
next start. -/
theorem symbolAt_correct_iff (elf : Elf)
    (hfit : RangesFit (ElfIndex.fromFile elf).symbols) :
    (∀ a, LookupCorrect (ElfIndex.fromFile elf) a)
      ↔ NestedReach (ElfIndex.fromFile elf).symbols :=
  lookupCorrect_iff hfit

/-- Two functions, the second inside the range of the first. -/
def nested : Elf :=
  { syms := [⟨1, 0x12, 0x1000, 0x100⟩, ⟨2, 0x12, 0x1010, 0x10⟩], dynsyms := []
    strtab := fun off => ["", "outer", "inner"][off]?, dynstrtab := fun _ => none
    programHeaders := [] }

/-- The inner function ends where a third one starts, and that one reaches the
end of the outer range. -/
def covered : Elf :=
  { nested with
    syms := [⟨1, 0x12, 0x1000, 0x40⟩, ⟨2, 0x12, 0x1010, 0x10⟩, ⟨3, 0x12, 0x1020, 0x20⟩]
    strtab := fun off => ["", "outer", "inner", "tail"][off]? }

theorem symbolAt_correct_covered :
    RangesFit (ElfIndex.fromFile covered).symbols
      ∧ (∀ a, LookupCorrect (ElfIndex.fromFile covered) a)
      ∧ (ElfIndex.fromFile covered).symbolAt 0x1018 = some ⟨"inner", 0x1010, 0x10⟩ := by
  have hsymbols : (ElfIndex.fromFile covered).symbols
      = [⟨"outer", 0x1000, 0x40⟩, ⟨"inner", 0x1010, 0x10⟩, ⟨"tail", 0x1020, 0x20⟩] := by decide
  have hfit : RangesFit (ElfIndex.fromFile covered).symbols := by
    unfold RangesFit
    rw [hsymbols]
    decide
  refine ⟨hfit, (symbolAt_correct_iff covered hfit).mpr ?_, by decide⟩
  unfold NestedReach
  rw [hsymbols]
  decide

/-- **The outer function is missed** behind the inner one. -/
theorem symbolAt_misses_outer :
    (ElfIndex.fromFile nested).symbols
        = [⟨"outer", 0x1000, 0x100⟩, ⟨"inner", 0x1010, 0x10⟩]
      ∧ RangesFit (ElfIndex.fromFile nested).symbols
      ∧ (ElfIndex.fromFile nested).symbolAt 0x1050 = none
      ∧ ¬ LookupCorrect (ElfIndex.fromFile nested) 0x1050 := by
  have hsymbols : (ElfIndex.fromFile nested).symbols
      = [⟨"outer", 0x1000, 0x100⟩, ⟨"inner", 0x1010, 0x10⟩] := by decide
  have hnone : (ElfIndex.fromFile nested).symbolAt 0x1050 = none := by decide
  refine ⟨hsymbols, ?_, hnone, ?_⟩
  · unfold RangesFit
    rw [hsymbols]
    decide
  · intro h
    have hcont : (⟨"outer", 0x1000, 0x100⟩ : Symbol).Contains 0x1050 := by
      unfold Symbol.Contains
      decide
    have hsome := h.found.mpr ⟨_, by rw [hsymbols]; exact List.mem_cons_self, hcont⟩
    rw [hnone] at hsome
    cases hsome

end QemuProfiler.Convert

/-
  QemuProfiler.Convert.SymbolIndex
  ────────────────────────────────
  **WHAT THE SYMBOL INDEX HOLDS**, for every list of symbols.

    • `fromFile_indexes` — one entry for each address of a symbol that the
      loop considers, named by the best candidate, with a size that is the
      symbol's own or the gap to the next entry,
    • `fromFile_names_iff` — the names are the symbols' OWN names exactly when
      the symbols of `.dynsym`, which are looked up in the string table of
      `.symtab`, come out right there,
    • `dynsym_named_from_strtab` — they do not: an exported function gets the
      name of another one, or no entry in a stripped library.
-/
import QemuProfiler.Convert.ElfFile

namespace QemuProfiler.Convert

open QemuProfiler.Lib

/-! ## §1. The best candidate. -/

/-- The candidate that wins: it beats all before it, and none after it beats
it. -/
def FirstBest (l : List Symbol) (w : Symbol) : Prop :=
  ∃ front back, l = front ++ w :: back
    ∧ (∀ c ∈ front, w.Beats c) ∧ ∀ c ∈ back, ¬ c.Beats w

theorem FirstBest.mem {l : List Symbol} {w : Symbol} (h : FirstBest l w) : w ∈ l := by
  obtain ⟨front, back, hl, _⟩ := h
  rw [hl]
  simp

theorem Symbol.Beats.asymm {s t : Symbol} (h : s.Beats t) : ¬ t.Beats s := by
  rw [← Symbol.rank_lt_iff] at h ⊢
  exact lt_asymm h

theorem FirstBest.not_beats {l : List Symbol} {w c : Symbol} (h : FirstBest l w) (hc : c ∈ l) :
    ¬ c.Beats w := by
  obtain ⟨front, back, hl, hfront, hback⟩ := h
  rw [hl, List.mem_append, List.mem_cons] at hc
  rcases hc with hc | hc | hc
  · exact (hfront c hc).asymm
  · rw [hc]
    intro hself
    exact hself.asymm hself
  · exact hback c hc

theorem firstBest_of_argmax {l : List Symbol} {w : Symbol} (h : l.argmax Symbol.rank = some w) :
    FirstBest l w := by
  obtain ⟨front, back, hl, hfront, hback⟩ := OrderedMap.argmax_split h
  refine ⟨front, back, hl, ?_, ?_⟩
  · intro c hc
    exact (Symbol.rank_lt_iff w c).mp (hfront c hc)
  · intro c hc hbeats
    exact absurd ((Symbol.rank_lt_iff c w).mpr hbeats) (not_lt.mpr (hback c hc))

/-- At most one candidate wins. -/
theorem FirstBest.unique {l : List Symbol} {w w' : Symbol} (h : FirstBest l w)
    (h' : FirstBest l w') : w = w' := by
  obtain ⟨front, back, hl, hfront, hback⟩ := h
  obtain ⟨front', back', hl', hfront', hback'⟩ := h'
  rw [hl] at hl'
  rcases List.append_eq_append_iff.mp hl' with ⟨mid, hmid, hrest⟩ | ⟨mid, hmid, hrest⟩
  · cases mid with
    | nil => exact (List.cons.inj hrest).1
    | cons c mid =>
        -- `w` stands before `w'`: each would have to beat the other, or not
        obtain ⟨hwc, hback₂⟩ := List.cons.inj hrest
        have hin : w ∈ front' := by
          rw [hmid, hwc]
          simp
        exact absurd (hfront' w hin) (hback w' (by rw [hback₂]; simp))
  · cases mid with
    | nil => exact (List.cons.inj hrest).1.symm
    | cons c mid =>
        obtain ⟨hwc, hback₂⟩ := List.cons.inj hrest
        have hin : w' ∈ front := by
          rw [hmid, hwc]
          simp
        exact absurd (hfront w' hin) (hback' w (by rw [hback₂]; simp))

/-- Two that do not beat each other have names of one length. -/
theorem nameLen_eq_of_not_beats {s t : Symbol} (hst : ¬ s.Beats t) (hts : ¬ t.Beats s) :
    s.name.utf8ByteSize = t.name.utf8ByteSize := by
  rw [← Symbol.rank_lt_iff] at hst hts
  have heq : s.rank = t.rank := le_antisymm (not_lt.mp hst) (not_lt.mp hts)
  unfold Symbol.rank at heq
  exact (Prod.mk.inj (toLex.injective heq)).2

/-- Same addresses, same neighbours. -/
theorem Sized.of_addrs {l l' : List Symbol} {w s : Symbol} (h : Sized l w s)
    (haddrs : l'.map Symbol.addr = l.map Symbol.addr) : Sized l' w s := by
  have hmem : ∀ t ∈ l', ∃ t' ∈ l, t'.addr = t.addr := by
    intro t ht
    exact List.mem_map.mp (haddrs ▸ List.mem_map_of_mem ht)
  have hmem' : ∀ t ∈ l, ∃ t' ∈ l', t'.addr = t.addr := by
    intro t ht
    exact List.mem_map.mp (haddrs ▸ List.mem_map_of_mem ht)
  refine ⟨h.addr, h.name, h.pos, h.explicit, ?_, h.cap, ?_⟩
  · intro hzero t ht hlt
    obtain ⟨t', ht', heq⟩ := hmem t ht
    rw [← heq] at hlt ⊢
    exact h.gap hzero t' ht' hlt
  · intro hzero hall
    refine h.last hzero ?_
    intro t ht
    obtain ⟨t', ht', heq⟩ := hmem' t ht
    rw [← heq]
    exact hall t' ht'

/-! ## §2. The entries. -/

theorem map_addr_fromFile (elf : Elf) :
    (ElfIndex.fromFile elf).symbols.map Symbol.addr = (symbolMap elf).map Symbol.addr := by
  show (inferSizes (symbolMap elf)).map Symbol.addr = _
  rw [inferSizes_eq (symbolMap_ordered elf), map_addr_withNext]

/-- Every entry is the best candidate of its address, sized. -/
theorem entry_fromFile {elf : Elf} {s : Symbol} (hs : s ∈ (ElfIndex.fromFile elf).symbols) :
    ∃ w, FirstBest (candidates elf s.addr) w ∧ Sized (ElfIndex.fromFile elf).symbols w s := by
  have hord := symbolMap_ordered elf
  have hin : s ∈ withNext (symbolMap elf) := inferSizes_eq hord ▸ hs
  obtain ⟨w, hw, hsized⟩ := sized_withNext _ hord s hin
  refine ⟨w, firstBest_of_argmax ?_, hsized.of_addrs (map_addr_fromFile elf)⟩
  rw [← get_symbolMap]
  exact (OrderedMap.get_eq_some_iff hord).mpr ⟨hw, hsized.addr.symm⟩

/-- Every candidate's address has an entry. -/
theorem exists_entry {elf : Elf} {addr : UInt64} (h : candidates elf addr ≠ []) :
    ∃ s ∈ (ElfIndex.fromFile elf).symbols, s.addr = addr := by
  cases hget : OrderedMap.get Symbol.addr (symbolMap elf) addr with
  | none =>
      rw [get_symbolMap, List.argmax_eq_none] at hget
      exact absurd hget h
  | some w =>
      obtain ⟨hw, haddr⟩ := (OrderedMap.get_eq_some_iff (symbolMap_ordered elf)).mp hget
      have hmem : w.addr ∈ (ElfIndex.fromFile elf).symbols.map Symbol.addr := by
        rw [map_addr_fromFile]
        exact List.mem_map_of_mem hw
      obtain ⟨s, hs, hsaddr⟩ := List.mem_map.mp hmem
      exact ⟨s, hs, hsaddr.trans haddr⟩

theorem entry_unique {elf : Elf} {s s' : Symbol} (hs : s ∈ (ElfIndex.fromFile elf).symbols)
    (hs' : s' ∈ (ElfIndex.fromFile elf).symbols) (h : s.addr = s'.addr) : s = s' := by
  have hord : OrderedMap.Ordered Symbol.addr (ElfIndex.fromFile elf).symbols :=
    (ElfIndex.fromFile elf).sorted
  exact hord.eq_of_key hs hs' h

theorem mem_candidates {elf : Elf} {addr : UInt64} {c : Symbol} :
    c ∈ candidates elf addr ↔ c ∈ retained elf ∧ c.addr = addr := by
  unfold candidates
  rw [List.mem_filter]
  simp

/-- Two candidates of which neither beats the other. -/
def Tied (c c' : Symbol) : Prop := ¬ c.Beats c' ∧ ¬ c'.Beats c

/-- **THE SYMBOL INDEX.**  One entry for each address of a symbol that the
loop considers, named by the first best candidate and sized by the second
pass; and in another order of the symbols the entries have names of the same
length, or the same names where no two candidates tie. -/
theorem fromFile_indexes (elf : Elf) :
    (∀ c ∈ retained elf, ∃! s, s ∈ (ElfIndex.fromFile elf).symbols ∧ s.addr = c.addr)
      ∧ (∀ s ∈ (ElfIndex.fromFile elf).symbols, ∃ w,
          FirstBest (candidates elf s.addr) w ∧ Sized (ElfIndex.fromFile elf).symbols w s)
      ∧ ∀ elf' : Elf, (retained elf').Perm (retained elf) →
          ∀ s ∈ (ElfIndex.fromFile elf).symbols, ∃ s' ∈ (ElfIndex.fromFile elf').symbols,
            s'.addr = s.addr ∧ s'.name.utf8ByteSize = s.name.utf8ByteSize
              ∧ ((∀ c ∈ candidates elf s.addr, ∀ c' ∈ candidates elf s.addr,
                  Tied c c' → c.name = c'.name) → s'.name = s.name) := by
  refine ⟨?_, fun s hs => entry_fromFile hs, ?_⟩
  · intro c hc
    have hcand : c ∈ candidates elf c.addr := mem_candidates.mpr ⟨hc, rfl⟩
    obtain ⟨s, hs, haddr⟩ := exists_entry (List.ne_nil_of_mem hcand)
    refine ⟨s, ⟨hs, haddr⟩, ?_⟩
    intro s' hs'
    exact entry_unique hs'.1 hs (hs'.2.trans haddr.symm)
  · intro elf' hperm s hs
    obtain ⟨w, hbest, hsized⟩ := entry_fromFile hs
    have hcands : (candidates elf' s.addr).Perm (candidates elf s.addr) := hperm.filter _
    have hne : candidates elf' s.addr ≠ [] :=
      List.ne_nil_of_mem (hcands.mem_iff.mpr hbest.mem)
    obtain ⟨s', hs', haddr⟩ := exists_entry hne
    obtain ⟨w', hbest', hsized'⟩ := entry_fromFile hs'
    rw [haddr] at hbest'
    -- neither winner beats the other: both are candidates on either side
    have hw' := hcands.mem_iff.mp hbest'.mem
    have htied : Tied w' w :=
      ⟨hbest.not_beats hw', hbest'.not_beats (hcands.mem_iff.mpr hbest.mem)⟩
    refine ⟨s', hs', haddr, ?_, ?_⟩
    · rw [hsized'.name, hsized.name]
      exact nameLen_eq_of_not_beats htied.1 htied.2
    · intro hties
      rw [hsized'.name, hsized.name]
      exact hties w' hw' w hbest.mem htied

/-! ## §3. Names and string tables. -/

/-- `name` is the name of a function symbol at `addr`, in the string table
that belongs to the symbol's table. -/
def OwnName (elf : Elf) (addr : UInt64) (name : String) : Prop :=
  (∃ sym ∈ elf.syms, sym.stType = sttFunc ∧ sym.stValue = addr
      ∧ elf.strtab sym.stName = some name)
    ∨ ∃ sym ∈ elf.dynsyms, sym.stType = sttFunc ∧ sym.stValue = addr
      ∧ elf.dynstrtab sym.stName = some name

/-- Every entry has a symbol's own name, and every named function with an
address has an entry. -/
structure OwnNames (elf : Elf) (symbols : List Symbol) : Prop where
  sound : ∀ s ∈ symbols, OwnName elf s.addr s.name
  complete : ∀ addr name, addr ≠ 0 → name ≠ "" → OwnName elf addr name →
    ∃ s ∈ symbols, s.addr = addr

/-- The `.dynsym` functions come out right in the string table of `.symtab`:
one with a name of its own is at an address where some name is read, and one
that wins its address with the name read there has read an own name. -/
structure DynsymsResolve (elf : Elf) : Prop where
  named : ∀ sym ∈ elf.dynsyms, sym.stType = sttFunc → sym.stValue ≠ 0 →
    ∀ name, name ≠ "" → elf.dynstrtab sym.stName = some name →
      candidates elf sym.stValue ≠ []
  right : ∀ sym ∈ elf.dynsyms, ∀ c, readSym elf.strtab sym = some c →
    FirstBest (candidates elf c.addr) c → OwnName elf c.addr c.name

theorem readSym_eq_some {strtab : Strtab} {sym : Sym} {c : Symbol}
    (h : readSym strtab sym = some c) :
    sym.stType = sttFunc ∧ sym.stValue = c.addr ∧ strtab sym.stName = some c.name := by
  unfold readSym at h
  split at h
  · rename_i hkeep
    have hc := (Option.some.inj h).symm
    subst hc
    refine ⟨hkeep.1, rfl, ?_⟩
    cases hname : strtab sym.stName with
    | none => exact absurd (by rw [hname]; rfl) hkeep.2.2
    | some name => rfl
  · cases h

theorem readSym_of_name {strtab : Strtab} {sym : Sym} {name : String}
    (hfunc : sym.stType = sttFunc) (hvalue : sym.stValue ≠ 0) (hne : name ≠ "")
    (hname : strtab sym.stName = some name) :
    readSym strtab sym = some { name := name, addr := sym.stValue, size := sym.stSize } := by
  unfold readSym
  rw [hname, Option.getD_some, if_pos ⟨hfunc, hvalue, by simpa using hne⟩]

theorem mem_retained {elf : Elf} {c : Symbol} :
    c ∈ retained elf ↔ (∃ sym ∈ elf.syms, readSym elf.strtab sym = some c)
      ∨ ∃ sym ∈ elf.dynsyms, readSym elf.strtab sym = some c := by
  unfold retained
  rw [List.filterMap_append, List.mem_append, List.mem_filterMap, List.mem_filterMap]

/-- **NAMES AND STRING TABLES.**  The index holds own names, and one for every
named function, exactly when the `.dynsym` functions come out right in the
string table of `.symtab`. -/
theorem fromFile_names_iff (elf : Elf) :
    OwnNames elf (ElfIndex.fromFile elf).symbols ↔ DynsymsResolve elf := by
  constructor
  · intro h
    refine ⟨?_, ?_⟩
    · intro sym hsym hfunc hvalue name hne hname
      obtain ⟨s, hs, haddr⟩ := h.complete sym.stValue name hvalue hne
        (.inr ⟨sym, hsym, hfunc, rfl, hname⟩)
      obtain ⟨w, hbest, _⟩ := entry_fromFile hs
      rw [haddr] at hbest
      exact List.ne_nil_of_mem hbest.mem
    -- the symbol that won an address is the entry there
    · intro sym hsym c hread hbest
      obtain ⟨s, hs, haddr⟩ := exists_entry (List.ne_nil_of_mem hbest.mem)
      obtain ⟨w, hbest', hsized⟩ := entry_fromFile hs
      rw [haddr] at hbest'
      have hown := h.sound s hs
      rw [haddr, hsized.name, hbest'.unique hbest] at hown
      exact hown
  · intro h
    refine ⟨?_, ?_⟩
    · intro s hs
      obtain ⟨w, hbest, hsized⟩ := entry_fromFile hs
      rw [hsized.name]
      obtain ⟨hw, haddr⟩ := mem_candidates.mp hbest.mem
      -- a symbol of `.symtab` is named by its own table
      rcases mem_retained.mp hw with ⟨sym, hsym, hread⟩ | ⟨sym, hsym, hread⟩
      · obtain ⟨hfunc, hvalue, hname⟩ := readSym_eq_some hread
        exact .inl ⟨sym, hsym, hfunc, hvalue.trans haddr, hname⟩
      · have hown := h.right sym hsym w hread (haddr ▸ hbest)
        rw [haddr] at hown
        exact hown
    · intro addr name haddr hne hown
      apply exists_entry
      rcases hown with ⟨sym, hsym, hfunc, hvalue, hname⟩ | ⟨sym, hsym, hfunc, hvalue, hname⟩
      · subst hvalue
        have hread := readSym_of_name hfunc haddr hne hname
        exact List.ne_nil_of_mem
          (mem_candidates.mpr ⟨mem_retained.mpr (.inl ⟨sym, hsym, hread⟩), rfl⟩)
      · subst hvalue
        exact h.named sym hsym hfunc haddr name hne hname

/-- A global function symbol of 16 bytes, named at offset 1. -/
def funcAt (stValue : UInt64) : Sym := ⟨1, 0x12, stValue, 16⟩

/-- A string table with one name, at offset 1. -/
def oneName (name : String) : Strtab := fun off => if off = 1 then some name else none

/-- `main` in `.symtab`, and `api` exported in `.dynsym`. -/
def exporting : Elf :=
  { syms := [funcAt 0x1000], dynsyms := [funcAt 0x2000], strtab := oneName "main"
    dynstrtab := oneName "api", programHeaders := [] }

/-- The same library, stripped: no `.symtab`, no string table for it. -/
def stripped : Elf := { exporting with syms := [], strtab := fun _ => none }

/-- **Names from the wrong table**: `api` is indexed as a second `main`, and
not at all once the library is stripped. -/
theorem dynsym_named_from_strtab :
    (ElfIndex.fromFile exporting).symbols = [⟨"main", 0x1000, 16⟩, ⟨"main", 0x2000, 16⟩]
      ∧ ¬ OwnNames exporting (ElfIndex.fromFile exporting).symbols
      ∧ (ElfIndex.fromFile stripped).symbols = []
      ∧ ¬ OwnNames stripped (ElfIndex.fromFile stripped).symbols := by
  have hexporting : (ElfIndex.fromFile exporting).symbols
      = [⟨"main", 0x1000, 16⟩, ⟨"main", 0x2000, 16⟩] := by decide
  have hstripped : (ElfIndex.fromFile stripped).symbols = [] := by decide
  refine ⟨hexporting, ?_, hstripped, ?_⟩
  · intro h
    -- the only function at 0x2000 is called `api`
    rcases h.sound ⟨"main", 0x2000, 16⟩ (by rw [hexporting]; simp) with
      ⟨sym, hsym, _, hvalue, _⟩ | ⟨sym, hsym, _, _, hname⟩
    · rw [List.mem_singleton.mp hsym] at hvalue
      exact absurd hvalue (by decide)
    · rw [List.mem_singleton.mp hsym] at hname
      exact absurd hname (by decide)
  · intro h
    obtain ⟨s, hs, _⟩ := h.complete 0x2000 "api" (by decide) (by decide)
      (.inr ⟨funcAt 0x2000, by simp [stripped, exporting], by decide, rfl, rfl⟩)
    rw [hstripped] at hs
    exact absurd hs (by simp)

end QemuProfiler.Convert

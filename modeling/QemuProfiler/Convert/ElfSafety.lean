/-
  QemuProfiler.Convert.ElfSafety
  ──────────────────────────────
  **THE ARITHMETIC OF THE INDEX** against the fields of a file.

  Sums of two fields of a file are not checked.  Three of them can overflow:
  the end of a symbol in a look-up, the 4KB after the last symbol, and the end
  of the build-ID section, whose wrapped value passes the test that guards the
  slices.

    • `elfIndex_safe_iff` — indexing and every look-up are safe exactly when
      these sums fit,
    • `release_of_safe` — then a release build does the same,
    • `noteDesc_subslice` — a build ID is a part of the file in any case,
    • `elfIndex_unsafe` — one file for each of the three sums.
-/
import QemuProfiler.Convert.ElfArithmetic
import QemuProfiler.Convert.SymbolLookup

namespace QemuProfiler.Convert

open QemuProfiler.Lib

/-! ## §1. What safe means, and when it holds. -/

/-- A debug build stops at any overflow, and any build at a slice out of
bounds: the file is safe when nothing stops. -/
structure SafeIndexing (image : ElfImage) : Prop where
  indexed : ∃ loaded, Checked.fromFile .debug image = .ok loaded
  lookedUp : ∀ loaded, Checked.fromFile .debug image = .ok loaded →
    ∀ addr, ∃ found, Checked.symbolAt .debug loaded.toElfIndex addr = .ok found
  /-- A build ID, in any build, is a part of the file that is as long as its
  note says. -/
  buildId : ∀ build loaded id, Checked.fromFile build image = .ok loaded →
    loaded.buildId = some id →
    id <:+: image.data ∧ ∃ sh descsz, image.buildIdSection = some sh
      ∧ image.noteWord (sh.shOffset.toNat + 4) = some descsz ∧ id.length = descsz.toNat

/-- The sums fit: the end of every symbol that wins its address, 4KB after the
last one when its size is unknown, and the end of the build-ID section. -/
structure SumsFit (image : ElfImage) : Prop where
  ranges : ∀ addr w, FirstBest (candidates image.elf addr) w →
    w.addr.toNat + w.size.toNat < 2 ^ 64
  last : ∀ addr w, FirstBest (candidates image.elf addr) w → w.size = 0 →
    (∀ c ∈ retained image.elf, c.addr ≤ w.addr) → w.addr.toNat + 0x1000 < 2 ^ 64
  note : ∀ sh, image.buildIdSection = some sh →
    sh.shOffset.toNat + sh.shSize.toNat < 2 ^ 64

/-! ## §2. The map. -/

theorem mem_symbolMap_iff {elf : Elf} {w : Symbol} :
    w ∈ symbolMap elf ↔ FirstBest (candidates elf w.addr) w := by
  constructor
  · intro hw
    apply firstBest_of_argmax
    rw [← get_symbolMap]
    exact (OrderedMap.get_eq_some_iff (symbolMap_ordered elf)).mpr ⟨hw, rfl⟩
  · intro hbest
    cases hget : OrderedMap.get Symbol.addr (symbolMap elf) w.addr with
    | none =>
        rw [get_symbolMap, List.argmax_eq_none] at hget
        rw [hget] at hbest
        exact absurd hbest.mem List.not_mem_nil
    | some w' =>
        have hw' := ((OrderedMap.get_eq_some_iff (symbolMap_ordered elf)).mp hget).1
        rw [get_symbolMap] at hget
        rw [hbest.unique (firstBest_of_argmax hget)]
        exact hw'

theorem firstBest_iff {elf : Elf} {addr : UInt64} {w : Symbol} :
    FirstBest (candidates elf addr) w ↔ w ∈ symbolMap elf ∧ w.addr = addr := by
  rw [mem_symbolMap_iff]
  constructor
  · intro hbest
    have haddr := (mem_candidates.mp hbest.mem).2
    exact ⟨by rw [haddr]; exact hbest, haddr⟩
  · intro ⟨hbest, haddr⟩
    rw [← haddr]
    exact hbest

/-- The last of the map is the last of what is read. -/
theorem forall_symbolMap_le_iff {elf : Elf} {a : UInt64} :
    (∀ t ∈ symbolMap elf, t.addr ≤ a) ↔ ∀ c ∈ retained elf, c.addr ≤ a := by
  constructor
  · intro h c hc
    have hne : candidates elf c.addr ≠ [] := List.ne_nil_of_mem (mem_candidates.mpr ⟨hc, rfl⟩)
    obtain ⟨s, hs, haddr⟩ := exists_entry hne
    have hin : s.addr ∈ (symbolMap elf).map Symbol.addr := by
      rw [← map_addr_fromFile]
      exact List.mem_map_of_mem hs
    obtain ⟨t, ht, htaddr⟩ := List.mem_map.mp hin
    rw [← haddr, ← htaddr]
    exact h t ht
  · intro h t ht
    exact h t (mem_candidates.mp (mem_symbolMap_iff.mp ht).mem).1

theorem lastFits_symbolMap_iff (elf : Elf) :
    Checked.LastFits (symbolMap elf)
      ↔ ∀ addr w, FirstBest (candidates elf addr) w → w.size = 0 →
          (∀ c ∈ retained elf, c.addr ≤ w.addr) → w.addr.toNat + 0x1000 < 2 ^ 64 := by
  constructor
  · intro h addr w hbest hzero hmax
    exact h w (firstBest_iff.mp hbest).1 hzero (forall_symbolMap_le_iff.mpr hmax)
  · intro h w hw hzero hmax
    exact h w.addr w (mem_symbolMap_iff.mp hw) hzero (forall_symbolMap_le_iff.mp hmax)

/-! ## §3. Look-ups. -/

/-- **A look-up overflows** only at a symbol that ends behind the last address,
and there it does. -/
theorem symbolAt_ok_iff (index : ElfIndex) :
    (∀ addr, ∃ found, Checked.symbolAt .debug index addr = .ok found)
      ↔ RangesFit index.symbols := by
  constructor
  · -- the start of the symbol is looked up
    intro h s hs
    by_contra hover
    obtain ⟨t, hlast, ht, hle, hmax⟩ := exists_lastAtOrBefore hs (UInt64.le_refl s.addr)
    have hts : t = s := (ordered_symbols index).eq_of_key ht hs
      (UInt64.le_antisymm hle (hmax s hs (UInt64.le_refl s.addr)))
    obtain ⟨found, hfound⟩ := h s.addr
    unfold Checked.symbolAt at hfound
    rw [hlast, hts] at hfound
    dsimp only at hfound
    rw [Build.add_overflow (Nat.le_of_not_lt hover)] at hfound
    cases hfound
  · intro hfit addr
    refine ⟨index.symbolAt addr, Checked.symbolAt_eq ?_⟩
    intro sym hlast
    exact Build.add_of_fits .debug (hfit sym (lastAtOrBefore_eq_some (sortedBy_symbols index) hlast).1)

/-- What the second pass infers ends before the next symbol, or with the 4KB
after the last one. -/
theorem stop_lt_of_sized {l : List Symbol} {w s : Symbol} (hsized : Sized l w s) (hw : w ∈ l)
    (hlast : Checked.LastFits l) (hzero : w.size = 0) : s.stop < 2 ^ 64 := by
  by_cases hmax : ∀ t ∈ l, t.addr ≤ w.addr
  · have hfits := hlast w hw hzero hmax
    have hsize := hsized.last hzero hmax
    unfold Symbol.stop
    rw [hsized.addr]
    omega
  · obtain ⟨t, hnot⟩ := not_forall.mp hmax
    obtain ⟨ht, hlt⟩ := Classical.not_imp.mp hnot
    exact Nat.lt_of_le_of_lt (hsized.gap hzero t ht (UInt64.not_le.mp hlt)) t.addr.toNat_lt

theorem rangesFit_iff {elf : Elf} (hlast : Checked.LastFits (symbolMap elf)) :
    RangesFit (ElfIndex.fromFile elf).symbols
      ↔ ∀ addr w, FirstBest (candidates elf addr) w → w.addr.toNat + w.size.toNat < 2 ^ 64 := by
  constructor
  · intro h addr w hbest
    obtain ⟨hw, haddr⟩ := firstBest_iff.mp hbest
    by_cases hzero : w.size = 0
    · rw [hzero]
      exact w.addr.toNat_lt
    · obtain ⟨s, hs, hsaddr⟩ := exists_entry (List.ne_nil_of_mem hbest.mem)
      obtain ⟨w', hbest', hsized⟩ := entry_fromFile hs
      rw [hsaddr] at hbest'
      rw [hbest'.unique hbest] at hsized
      have hstop := h s hs
      unfold Symbol.stop at hstop
      rw [hsized.addr, hsized.explicit hzero] at hstop
      exact hstop
  · intro h s hs
    obtain ⟨w, hbest, hsized⟩ := entry_fromFile hs
    by_cases hzero : w.size = 0
    · exact stop_lt_of_sized (hsized.of_addrs (map_addr_fromFile elf).symm)
        (firstBest_iff.mp hbest).1 hlast hzero
    · unfold Symbol.stop
      rw [hsized.addr, hsized.explicit hzero]
      exact h s.addr w hbest

/-! ## §4. The build ID. -/

/-- What a run that returns a build ID has done. -/
theorem noteDesc_cases {build : Build} {image : ElfImage} {sh : SectionHeader} {id : List UInt8}
    (h : Checked.noteDesc build image sh = .ok (some id)) :
    ∃ nameBytes wordBytes descStart, ∃ descsz : UInt32,
      sliceAt image.data sh.shOffset (sh.shOffset + 4) = .ok nameBytes
        ∧ sliceAt image.data (sh.shOffset + 4) (sh.shOffset + 8) = .ok wordBytes
        ∧ image.readNoteU32 wordBytes = some descsz
        ∧ sliceAt image.data descStart (descStart + descsz.toUInt64) = .ok id := by
  unfold Checked.noteDesc at h
  -- one bind or test of the source after the other; the sums are kept where
  -- they bound a slice, the guards are not needed
  obtain ⟨stop, -, h⟩ := bind_eq_ok h
  by_cases hcheck : stop.toNat ≤ image.data.length ∧ sh.shSize > 16
  · rw [if_pos hcheck] at h
    obtain ⟨nameStop, hnameStop, h⟩ := bind_eq_ok h
    obtain ⟨nameBytes, hname, h⟩ := bind_eq_ok h
    cases hnamesz : image.readNoteU32 nameBytes with
    | none =>
        rw [hnamesz] at h
        cases h
    | some namesz =>
        rw [hnamesz] at h
        obtain ⟨wordStart, hwordStart, h⟩ := bind_eq_ok h
        obtain ⟨wordStop, hwordStop, h⟩ := bind_eq_ok h
        obtain ⟨wordBytes, hword, h⟩ := bind_eq_ok h
        cases hdescsz : image.readNoteU32 wordBytes with
        | none =>
            rw [hdescsz] at h
            cases h
        | some descsz =>
            rw [hdescsz] at h
            obtain ⟨nameStart, -, h⟩ := bind_eq_ok h
            obtain ⟨padded, -, h⟩ := bind_eq_ok h
            obtain ⟨descStart, -, h⟩ := bind_eq_ok h
            obtain ⟨guard, -, h⟩ := bind_eq_ok h
            by_cases hguard : guard.toNat ≤ image.data.length
            · rw [if_pos hguard] at h
              obtain ⟨descStop, hdescStop, h⟩ := bind_eq_ok h
              obtain ⟨desc, hdesc, h⟩ := bind_eq_ok h
              cases h
              rw [Build.add_eq_ok hnameStop] at hname
              rw [Build.add_eq_ok hwordStart, Build.add_eq_ok hwordStop] at hword
              rw [Build.add_eq_ok hdescStop] at hdesc
              exact ⟨nameBytes, wordBytes, descStart, descsz, hname, hword, hdescsz, hdesc⟩
            · rw [if_neg hguard] at h
              cases h
  · rw [if_neg hcheck] at h
    cases h

/-- **A build ID is a part of the file**, as long as its note says, in a debug
build and in a release build: a sum that wrapped would end its slice before
the start. -/
theorem noteDesc_subslice {build : Build} {image : ElfImage} {sh : SectionHeader} {id : List UInt8}
    (h : Checked.noteDesc build image sh = .ok (some id)) :
    id <:+: image.data ∧ ∃ descsz, image.noteWord (sh.shOffset.toNat + 4) = some descsz
      ∧ id.length = descsz.toNat := by
  obtain ⟨nameBytes, wordBytes, descStart, descsz, hname, hword, hdescsz, hdesc⟩ := noteDesc_cases h
  obtain ⟨hstart, -, -⟩ := slice_add_eq_ok hname
  rw [show sh.shOffset + 8 = sh.shOffset + 4 + 4 by rw [UInt64.add_assoc]; rfl] at hword
  obtain ⟨-, -, hwordBytes⟩ := slice_add_eq_ok hword
  obtain ⟨-, hin, hid⟩ := slice_add_eq_ok hdesc
  rw [UInt32.toNat_toUInt64] at hin hid
  refine ⟨hid ▸ bytesAt_infix image.data _ _, descsz, ?_, hid ▸ length_bytesAt hin⟩
  rw [hwordBytes, hstart] at hdescsz
  exact hdescsz

theorem buildIdOf_ok_iff (image : ElfImage) :
    (∃ id, Checked.buildIdOf .debug image = .ok id)
      ↔ ∀ sh, image.buildIdSection = some sh →
          sh.shOffset.toNat + sh.shSize.toNat < 2 ^ 64 := by
  unfold Checked.buildIdOf
  cases hsection : image.buildIdSection with
  | none =>
      refine iff_of_true ⟨none, rfl⟩ ?_
      intro sh hsh
      cases hsh
  | some sh =>
      dsimp only
      constructor
      · intro ⟨id, hid⟩ sh' hsh'
        cases hsh'
        by_contra hover
        rw [Checked.noteDesc_overflow (Nat.le_of_not_lt hover)] at hid
        cases hid
      · intro hfits
        exact ⟨_, Checked.noteDesc_of_fits .debug image sh (hfits sh rfl)⟩

/-! ## §5. Safe files. -/

theorem buildIdOf_of_fromFile {build : Build} {image : ElfImage} {loaded : LoadedElf}
    (h : Checked.fromFile build image = .ok loaded) :
    Checked.buildIdOf build image = .ok loaded.buildId := by
  unfold Checked.fromFile at h
  split at h
  · cases h
  · obtain ⟨id, hid, h⟩ := bind_eq_ok h
    cases h
    exact hid

/-- What a debug build loads. -/
theorem fromFile_debug_iff {image : ElfImage} {loaded : LoadedElf} :
    Checked.fromFile .debug image = .ok loaded
      ↔ Checked.LastFits (symbolMap image.elf)
        ∧ loaded.toElfIndex = ElfIndex.fromFile image.elf
        ∧ Checked.buildIdOf .debug image = .ok loaded.buildId := by
  constructor
  · intro h
    have hid := buildIdOf_of_fromFile h
    have hlast : Checked.LastFits (symbolMap image.elf) := by
      by_contra hnot
      rw [Checked.fromFile_overflow hnot] at h
      cases h
    rw [Checked.fromFile_of_fits fun _ => hlast, hid] at h
    exact ⟨hlast, congrArg LoadedElf.toElfIndex (Except.ok.inj h).symm, hid⟩
  · intro ⟨hlast, hindex, hid⟩
    rw [Checked.fromFile_of_fits fun _ => hlast, hid, ← hindex]
    rfl

/-- **THE ARITHMETIC OF THE INDEX IS SAFE** exactly when the three sums fit. -/
theorem elfIndex_safe_iff (image : ElfImage) : SafeIndexing image ↔ SumsFit image := by
  constructor
  · -- each sum is computed by a run that did not stop
    intro h
    obtain ⟨loaded, hloaded⟩ := h.indexed
    obtain ⟨hlast, hindex, hid⟩ := fromFile_debug_iff.mp hloaded
    have hlookups := h.lookedUp loaded hloaded
    rw [hindex] at hlookups
    have hranges := (symbolAt_ok_iff _).mp hlookups
    exact ⟨(rangesFit_iff hlast).mp hranges, (lastFits_symbolMap_iff _).mp hlast,
      (buildIdOf_ok_iff image).mp ⟨_, hid⟩⟩
  · intro h
    have hlast := (lastFits_symbolMap_iff image.elf).mpr h.last
    obtain ⟨id, hid⟩ := (buildIdOf_ok_iff image).mpr h.note
    refine ⟨⟨⟨ElfIndex.fromFile image.elf, id⟩, fromFile_debug_iff.mpr ⟨hlast, rfl, hid⟩⟩, ?_, ?_⟩
    · intro loaded hloaded
      rw [(fromFile_debug_iff.mp hloaded).2.1]
      exact (symbolAt_ok_iff _).mpr ((rangesFit_iff hlast).mpr h.ranges)
    · intro build loaded found hloaded hfound
      have hrun := buildIdOf_of_fromFile hloaded
      rw [hfound] at hrun
      unfold Checked.buildIdOf at hrun
      cases hsection : image.buildIdSection with
      | none =>
          rw [hsection] at hrun
          cases hrun
      | some sh =>
          rw [hsection] at hrun
          obtain ⟨hpart, descsz, hword, hlen⟩ := noteDesc_subslice hrun
          exact ⟨hpart, sh, descsz, rfl, hword, hlen⟩

/-- A release build loads a safe file as a debug build does. -/
theorem release_of_safe {image : ElfImage} (h : SumsFit image) :
    Checked.fromFile .release image = Checked.fromFile .debug image := by
  have hlast := (lastFits_symbolMap_iff image.elf).mpr h.last
  rw [Checked.fromFile_of_fits fun _ => hlast, Checked.fromFile_of_fits fun _ => hlast]
  unfold Checked.buildIdOf
  cases hsection : image.buildIdSection with
  | none => rfl
  | some sh =>
      dsimp only
      rw [Checked.noteDesc_of_fits .release image sh (h.note sh hsection),
          Checked.noteDesc_of_fits .debug image sh (h.note sh hsection)]

/-! ## §6. A file for each sum. -/

/-- A section header: name and type, offset and size, the section it links to
and the size of its entries. -/
def sectionHeaderBytes (shName shType : UInt32) (shOffset shSize : UInt64) (shLink : UInt32)
    (shEntsize : UInt64) : List UInt8 :=
  u32Le shName ++ u32Le shType ++ u64Le 0 ++ u64Le 0 ++ u64Le shOffset ++ u64Le shSize
    ++ u32Le shLink ++ u32Le 0 ++ u64Le 1 ++ u64Le shEntsize

/-- A file with the function `f` and a build-ID section: the ELF header, one
table of strings, the symbols from offset 88 and the section headers from
offset 136 on. -/
def smallFile (stValue stSize shOffset shSize : UInt64) : List UInt8 :=
  [0x7f, 0x45, 0x4c, 0x46, 2, 1, 1, 0] ++ u64Le 0 ++ u16Le 3 ++ u16Le 62 ++ u32Le 1
    ++ u64Le 0 ++ u64Le 0 ++ u64Le 136 ++ u32Le 0
    ++ u16Le 64 ++ u16Le 56 ++ u16Le 0 ++ u16Le 64 ++ u16Le 4 ++ u16Le 1
    ++ ([0, 0x66, 0] ++ (".note.gnu.build-id".toList.map fun c => UInt8.ofNat c.toNat) ++ [0, 0, 0])
    ++ List.replicate 24 0
    ++ (u32Le 1 ++ [0x12, 0] ++ u16Le 1 ++ u64Le stValue ++ u64Le stSize)
    ++ List.replicate 64 0
    ++ sectionHeaderBytes 0 3 64 24 0 0
    ++ sectionHeaderBytes 0 2 88 48 1 24
    ++ sectionHeaderBytes 3 7 shOffset shSize 0 0

theorem length_smallFile (stValue stSize shOffset shSize : UInt64) :
    (smallFile stValue stSize shOffset shSize).length = 392 := by
  unfold smallFile sectionHeaderBytes u16Le u32Le u64Le
  simp only [List.length_append, List.length_replicate, length_leBytes, List.length_map]
  rfl

/-- What goblin reads of it. -/
def smallImage (stValue stSize shOffset shSize : UInt64) : ElfImage where
  elf := { syms := [⟨0, 0, 0, 0⟩, ⟨1, 0x12, stValue, stSize⟩], dynsyms := []
           strtab := oneName "f", dynstrtab := fun _ => none, programHeaders := [] }
  eiData := 1
  sectionHeaders := [⟨0, 0, 0⟩, ⟨0, 64, 24⟩, ⟨0, 88, 48⟩, ⟨3, shOffset, shSize⟩]
  shdrStrtab := fun off => ["", "f", "", ".note.gnu.build-id"][off]?
  data := smallFile stValue stSize shOffset shSize
  data_lt := by rw [length_smallFile]; decide
  syms_lt := by show 2 < 2 ^ 63; decide

theorem not_safe_of_fault {image : ElfImage} {fault : Fault}
    (h : Checked.fromFile .debug image = .error fault) : ¬ SafeIndexing image := by
  intro hsafe
  obtain ⟨loaded, hloaded⟩ := hsafe.indexed
  rw [h] at hloaded
  cases hloaded

/-- A function of unknown size, less than 4KB before the last address. -/
def unsizedAtTop : ElfImage := smallImage 0xfffffffffffff800 0 0 0

/-- A function that ends with the last address. -/
def sizedAtTop : ElfImage := smallImage 0xfffffffffffffff0 16 0 0

/-- A build-ID section of 24 bytes from 8 bytes before the last address on. -/
def wrappedNote : ElfImage := smallImage 0x1000 16 0xfffffffffffffff8 24

theorem fromFile_release_wrappedNote :
    Checked.fromFile .release wrappedNote = .error .outOfBounds := by
  have hlen : wrappedNote.data.length = 392 := length_smallFile _ _ _ _
  have hnote : Checked.buildIdOf .release wrappedNote = .error .outOfBounds := by
    show Checked.noteDesc .release wrappedNote ⟨3, 0xfffffffffffffff8, 24⟩ = _
    unfold Checked.noteDesc
    dsimp only
    -- the end has wrapped to 16 and passes the test, but the first word is behind the file
    rw [Build.add_release, ok_bind, hlen, if_pos (by decide), Build.add_release, ok_bind,
        slice_of_length_lt (by rw [hlen]; decide)]
    rfl
  have hfits : Build.release = .debug → Checked.LastFits (symbolMap wrappedNote.elf) :=
    fun h => nomatch h
  rw [Checked.fromFile_of_fits hfits, hnote]
  rfl

/-- **Each of the three sums overflows**: 4KB after a function of unknown size,
the end of a function in a look-up, and the end of the section, where a
release build passes the test and then cuts a slice out of bounds. -/
theorem elfIndex_unsafe :
    (Checked.fromFile .debug unsizedAtTop = .error .overflow ∧ ¬ SafeIndexing unsizedAtTop)
      ∧ (∃ loaded, Checked.fromFile .debug sizedAtTop = .ok loaded
          ∧ Checked.symbolAt .debug loaded.toElfIndex 0xfffffffffffffff0 = .error .overflow
          ∧ ¬ SafeIndexing sizedAtTop)
      ∧ Checked.fromFile .debug wrappedNote = .error .overflow
      ∧ Checked.fromFile .release wrappedNote = .error .outOfBounds
      ∧ ¬ SafeIndexing wrappedNote := by
  have hunsized : Checked.fromFile .debug unsizedAtTop = .error .overflow := rfl
  have hnote : Checked.fromFile .debug wrappedNote = .error .overflow := rfl
  have hlast : Checked.LastFits (symbolMap sizedAtTop.elf) := by
    unfold Checked.LastFits
    decide
  obtain ⟨id, hid⟩ := (buildIdOf_ok_iff sizedAtTop).mpr fun sh hsh => by
    cases (show sizedAtTop.buildIdSection = some ⟨3, 0, 0⟩ from rfl).symm.trans hsh
    decide
  have hloaded : Checked.fromFile .debug sizedAtTop
      = .ok ⟨ElfIndex.fromFile sizedAtTop.elf, id⟩ := fromFile_debug_iff.mpr ⟨hlast, rfl, hid⟩
  have hstops : Checked.symbolAt .debug (ElfIndex.fromFile sizedAtTop.elf) 0xfffffffffffffff0
      = .error .overflow := rfl
  refine ⟨⟨hunsized, not_safe_of_fault hunsized⟩, ⟨_, hloaded, hstops, ?_⟩, hnote,
    fromFile_release_wrappedNote, not_safe_of_fault hnote⟩
  intro hsafe
  obtain ⟨found, hfound⟩ := hsafe.lookedUp _ hloaded 0xfffffffffffffff0
  exact absurd (hstops.symm.trans hfound) (by simp)

end QemuProfiler.Convert

/-
  QemuProfiler.Convert.ElfArithmetic
  ──────────────────────────────────
  `ElfIndex::from_file` and `symbol_at` (`convert/src/elf_index.rs`) with every
  sum, difference and slice as the machine executes it: in a debug build or in
  a release build (`Lib.Checked`).

  Conventions of the model:
    • a file comes with what goblin reads of it; its 64-bit fields are passed
      through as they are, and `usize` has 64 bits,
    • a `Vec` holds fewer than 2^63 bytes, and so does every table of a file.

  Without overflow the run is the one of `Convert.ElfFile`
  (`Checked.inferSizes_eq`, `Checked.symbolAt_release`), and the build ID is
  read as with numbers of any size (`Checked.noteDesc_of_fits`).
-/
import QemuProfiler.Convert.ElfFile
import QemuProfiler.Lib.Checked

namespace QemuProfiler.Convert

open QemuProfiler.Lib

/-! ## §1. A file. -/

structure SectionHeader where
  shName : Nat
  shOffset : UInt64
  shSize : UInt64
  deriving DecidableEq, Repr

/-- The bytes of a file, and what goblin reads of them. -/
structure ElfImage where
  elf : Elf
  /-- `e_ident[EI_DATA]`. -/
  eiData : UInt8
  sectionHeaders : List SectionHeader
  shdrStrtab : Strtab
  data : List UInt8
  data_lt : data.length < 2 ^ 63
  /-- The symbol tables are parts of the file. -/
  syms_lt : (elf.syms ++ elf.dynsyms).length < 2 ^ 63

/-- The index with the build ID, if present. -/
structure LoadedElf extends ElfIndex where
  buildId : Option (List UInt8)

namespace Checked

/-! ## §2. Inferring sizes. -/

/-- The next symbol's address, or 4KB further after the last one. -/
def nextAddrOf (build : Build) (addrs : List UInt64) (i : Nat) (addr : UInt64) :
    Except Fault UInt64 := do
  let next ← build.add (UInt64.ofNat i) 1
  match addrs[next.toNat]? with
  | some nextAddr => return nextAddr
  | none => build.add addr 0x1000 -- fallback: assume 4KB

/-- A size of 0 becomes the gap to the next symbol, capped at 64KB. -/
def inferSize (build : Build) (addrs : List UInt64) (i : Nat) (addr : UInt64) (sym : Symbol) :
    Except Fault Symbol := do
  if sym.size = 0 then
    let nextAddr ← nextAddrOf build addrs i addr
    let gap ← build.sub nextAddr addr
    return { sym with size := min gap 0x10000 }
  else return sym

/-- `symbols.get_mut(&addr)`, and the symbol changed in place. -/
def patch (addr : UInt64) (f : Symbol → Except Fault Symbol) (symbols : List Symbol) :
    Except Fault (List Symbol) :=
  symbols.mapM fun sym => if sym.addr = addr then f sym else .ok sym

/-- The addresses are collected first, then the sizes are patched. -/
def inferSizes (build : Build) (symbols : List Symbol) : Except Fault (List Symbol) :=
  let addrs := symbols.map Symbol.addr
  addrs.zipIdx.foldlM
    (fun symbols entry => patch entry.1 (inferSize build addrs entry.2 entry.1) symbols) symbols

/-- 4KB after the last symbol of the map, if its size is to be inferred, is an
address. -/
def LastFits (l : List Symbol) : Prop :=
  ∀ w ∈ l, w.size = 0 → (∀ t ∈ l, t.addr ≤ w.addr) → w.addr.toNat + 0x1000 < 2 ^ 64

/-- The index behind the last one is a number of 64 bits. -/
theorem nextAddrOf_eq (build : Build) (addrs : List UInt64) {i : Nat} (hi : i < 2 ^ 63)
    (addr : UInt64) :
    nextAddrOf build addrs i addr = (addrs[i + 1]?).elim (build.add addr 0x1000) .ok := by
  have hnat : (UInt64.ofNat i).toNat = i := UInt64.toNat_ofNat_of_lt' (by show _ < 2 ^ 64; omega)
  have hfits : (UInt64.ofNat i).toNat + (1 : UInt64).toNat < 2 ^ 64 := by
    rw [hnat]
    show i + 1 < 2 ^ 64
    omega
  have hnext : (UInt64.ofNat i + 1).toNat = i + 1 := by
    rw [toNat_add_of_fits hfits, hnat]
    rfl
  unfold nextAddrOf
  rw [Build.add_of_fits build hfits, ok_bind, hnext]
  cases addrs[i + 1]? with
  | none => rfl
  | some nextAddr => rfl

theorem inferSize_of_next {build : Build} {addrs : List UInt64} {i : Nat} {nextAddr : UInt64}
    {sym : Symbol}
    (h : sym.size = 0 → nextAddrOf build addrs i sym.addr = .ok nextAddr
      ∧ build.sub nextAddr sym.addr = .ok (nextAddr - sym.addr)) :
    inferSize build addrs i sym.addr sym = .ok (Convert.inferSize nextAddr sym) := by
  unfold inferSize Convert.inferSize
  by_cases hzero : sym.size = 0
  · rw [if_pos hzero, if_pos hzero, (h hzero).1, ok_bind, (h hzero).2]
    rfl
  · rw [if_neg hzero, if_neg hzero]
    rfl

theorem toNat_page : (0x1000 : UInt64).toNat = 0x1000 := rfl

/-- The two operations behind the last symbol. -/
theorem fallback_ok (build : Build) {addr : UInt64}
    (h : build = .debug → addr.toNat + 0x1000 < 2 ^ 64) :
    build.add addr 0x1000 = .ok (addr + 0x1000)
      ∧ build.sub (addr + 0x1000) addr = .ok (addr + 0x1000 - addr) := by
  cases build with
  | debug =>
      have hfits : addr.toNat + (0x1000 : UInt64).toNat < 2 ^ 64 := by
        rw [toNat_page]
        exact h rfl
      refine ⟨Build.add_of_fits .debug hfits, Build.sub_of_le .debug ?_⟩
      rw [UInt64.le_iff_toNat_le, toNat_add_of_fits hfits]
      exact Nat.le_add_right _ _
  | release => exact ⟨Build.add_release addr 0x1000, Build.sub_release (addr + 0x1000) addr⟩

theorem lastFits_singleton {w : Symbol} :
    LastFits [w] ↔ (w.size = 0 → w.addr.toNat + 0x1000 < 2 ^ 64) := by
  constructor
  · intro h hzero
    refine h w (List.mem_singleton_self w) hzero ?_
    intro t ht
    rw [List.mem_singleton.mp ht]
    exact UInt64.le_refl _
  · intro h t ht hzero _
    rw [List.mem_singleton.mp ht] at hzero ⊢
    exact h hzero

/-- The step at the last symbol. -/
theorem inferSize_last {build : Build} {addrs : List UInt64} {i : Nat} {sym : Symbol}
    (hnext : nextAddrOf build addrs i sym.addr = build.add sym.addr 0x1000) :
    ((build = .debug → LastFits [sym]) →
        inferSize build addrs i sym.addr sym
          = .ok (Convert.inferSize (sym.addr + 0x1000) sym))
      ∧ (build = .debug → ¬ LastFits [sym] →
        inferSize build addrs i sym.addr sym = .error .overflow) := by
  rw [lastFits_singleton]
  constructor
  · intro hfits
    apply inferSize_of_next
    intro hzero
    obtain ⟨hadd, hsub⟩ := fallback_ok build fun hdebug => hfits hdebug hzero
    exact ⟨hnext.trans hadd, hsub⟩
  · intro hdebug hnot
    subst hdebug
    have hzero : sym.size = 0 := by
      by_contra hne
      exact hnot fun h => absurd h hne
    have hover : 2 ^ 64 ≤ sym.addr.toNat + (0x1000 : UInt64).toNat := by
      rw [toNat_page]
      exact Nat.le_of_not_lt fun hlt => hnot fun _ => hlt
    unfold inferSize
    rw [if_pos hzero, hnext, Build.add_overflow hover]
    rfl

/-- Only the last symbol matters. -/
theorem lastFits_cons {sym next : Symbol} {rest : List Symbol}
    (hord : OrderedMap.Ordered Symbol.addr (sym :: next :: rest)) :
    LastFits (sym :: next :: rest) ↔ LastFits (next :: rest) := by
  have hsym := (List.pairwise_cons.mp hord).1
  constructor
  · intro h w hw hzero hmax
    refine h w (List.mem_cons_of_mem sym hw) hzero ?_
    intro t ht
    rcases List.mem_cons.mp ht with hts | htr
    · rw [hts]
      exact UInt64.le_of_lt (hsym w hw)
    · exact hmax t htr
  · intro h w hw hzero hmax
    rcases List.mem_cons.mp hw with hws | hwr
    · -- `next` stands behind `sym`
      have hle := hmax next (by simp)
      rw [hws] at hle
      exact absurd (hsym next List.mem_cons_self) (UInt64.not_lt.mpr hle)
    · exact h w hwr hzero fun t ht => hmax t (List.mem_cons_of_mem sym ht)

theorem patch_middle {done rest : List Symbol} {sym : Symbol} (f : Symbol → Except Fault Symbol)
    (hdone : ∀ d ∈ done, d.addr ≠ sym.addr) (hrest : ∀ t ∈ rest, t.addr ≠ sym.addr) :
    patch sym.addr f (done ++ sym :: rest) = (f sym >>= fun s => .ok (done ++ s :: rest)) := by
  unfold patch
  rw [List.mapM_append, List.mapM_cons, if_pos rfl,
      mapM_eq_ok_self fun d hd => if_neg (hdone d hd),
      mapM_eq_ok_self fun t ht => if_neg (hrest t ht)]
  cases f sym with
  | error fault => rfl
  | ok s => rfl

/-- The pass over the symbols `l`, behind the finished ones. -/
def passFrom (build : Build) (front : List UInt64) (done l : List Symbol) :
    Except Fault (List Symbol) :=
  ((l.map Symbol.addr).zipIdx front.length).foldlM
    (fun symbols entry => patch entry.1
      (inferSize build (front ++ l.map Symbol.addr) entry.2 entry.1) symbols) (done ++ l)

/-- One step of the pass. -/
theorem passFrom_cons (build : Build) (front : List UInt64) {done rest : List Symbol} {sym : Symbol}
    (hdone : ∀ d ∈ done, d.addr ≠ sym.addr) (hrest : ∀ t ∈ rest, sym.addr < t.addr) :
    passFrom build front done (sym :: rest)
      = (inferSize build (front ++ sym.addr :: rest.map Symbol.addr) front.length sym.addr sym
          >>= fun s => passFrom build (front ++ [sym.addr]) (done ++ [s]) rest) := by
  unfold passFrom
  rw [List.map_cons, List.zipIdx_cons, List.foldlM_cons]
  dsimp only
  rw [patch_middle _ hdone fun t ht => (Std.ne_of_lt (hrest t ht)).symm, List.length_append,
      List.append_assoc]
  cases inferSize build (front ++ sym.addr :: rest.map Symbol.addr) front.length sym.addr sym with
  | error fault => rfl
  | ok s =>
      rw [ok_bind, ok_bind, ok_bind, List.append_assoc]
      rfl

/-- Up to the last symbol nothing overflows; there `LastFits` decides. -/
theorem passFrom_eq (build : Build) {l : List Symbol} (front : List UInt64) (done : List Symbol)
    (hord : OrderedMap.Ordered Symbol.addr l) (hdone : ∀ d ∈ done, ∀ t ∈ l, d.addr ≠ t.addr)
    (hlen : front.length + l.length < 2 ^ 63) :
    ((build = .debug → LastFits l) → passFrom build front done l = .ok (done ++ withNext l))
      ∧ (build = .debug → ¬ LastFits l → passFrom build front done l = .error .overflow) := by
  induction l generalizing front done with
  | nil =>
      refine ⟨fun _ => rfl, fun _ hnot => ?_⟩
      exact absurd (fun w hw => absurd hw List.not_mem_nil) hnot
  | cons sym rest ih =>
      have hsym := List.pairwise_cons.mp hord
      have hnext := nextAddrOf_eq build (front ++ sym.addr :: rest.map Symbol.addr)
        (i := front.length) (by omega) sym.addr
      rw [getElem?_behind] at hnext
      rw [passFrom_cons build front (fun d hd => hdone d hd sym List.mem_cons_self) hsym.1]
      cases rest with
      | nil =>
          -- no next symbol: the fallback, whose sum may overflow
          rw [List.map_nil] at hnext ⊢
          rw [List.getElem?_nil, Option.elim_none] at hnext
          obtain ⟨hok, hstop⟩ := inferSize_last hnext
          constructor
          · intro hfits
            rw [hok hfits]
            exact congrArg Except.ok (List.append_nil _)
          · intro hdebug hnot
            rw [hstop hdebug hnot]
            rfl
      | cons next rest =>
          -- the gap to the next symbol of the map is no underflow
          have hlt : sym.addr < next.addr := hsym.1 next List.mem_cons_self
          rw [inferSize_of_next fun _ => ⟨hnext, Build.sub_of_le build (UInt64.le_of_lt hlt)⟩,
              ok_bind, lastFits_cons hord]
          have hih := ih (front ++ [sym.addr]) (done ++ [Convert.inferSize next.addr sym]) hsym.2
            (finished_append _ hdone hsym.1)
            (by rw [List.length_append, List.length_singleton]; rw [List.length_cons] at hlen; omega)
          rw [List.append_assoc] at hih
          exact hih

/-- **The pass over the sizes**: a debug build stops at the last symbol, or
the pass runs as in a release build. -/
theorem inferSizes_eq (build : Build) {symbols : List Symbol}
    (hord : OrderedMap.Ordered Symbol.addr symbols) (hlen : symbols.length < 2 ^ 63) :
    ((build = .debug → LastFits symbols) →
        inferSizes build symbols = .ok (Convert.inferSizes symbols))
      ∧ (build = .debug → ¬ LastFits symbols → inferSizes build symbols = .error .overflow) := by
  rw [Convert.inferSizes_eq hord]
  exact passFrom_eq build [] [] hord (fun d hd => absurd hd List.not_mem_nil)
    (by rw [List.length_nil, Nat.zero_add]; exact hlen)

/-! ## §3. The build ID. -/

end Checked

def elfData2Msb : UInt8 := 2

namespace ElfImage

/-- `is_le`. -/
def isLe (image : ElfImage) : Bool := image.eiData ≠ elfData2Msb

/-- A word of a note, in the byte order of the file; `none` when there are not
four bytes. -/
def readNoteU32 (image : ElfImage) (bytes : List UInt8) : Option UInt32 :=
  if bytes.length = 4 then
    some (if image.isLe then u32OfLe bytes else u32OfLe bytes.reverse)
  else none

/-- The first section called `.note.gnu.build-id`. -/
def buildIdSection (image : ElfImage) : Option SectionHeader :=
  image.sectionHeaders.find? fun sh =>
    (image.shdrStrtab sh.shName).getD "" = ".note.gnu.build-id"

/-- The word of a note at an offset of the file. -/
def noteWord (image : ElfImage) (off : Nat) : Option UInt32 :=
  image.readNoteU32 (bytesAt image.data off 4)

/-- What a note section describes, with numbers of any size. -/
def noteDescAt (image : ElfImage) (offset size : Nat) : Option (List UInt8) :=
  if offset + size ≤ image.data.length ∧ 16 < size then
    (image.noteWord offset).bind fun namesz =>
    (image.noteWord (offset + 4)).bind fun descsz =>
      let start := offset + 12 + (namesz.toNat + 3) / 4 * 4
      if start + descsz.toNat ≤ image.data.length then
        some (bytesAt image.data start descsz.toNat)
      else none
  else none

theorem exists_noteWord (image : ElfImage) {off : Nat} (h : off + 4 ≤ image.data.length) :
    ∃ word, image.noteWord off = some word := by
  unfold noteWord readNoteU32
  rw [if_pos (length_bytesAt h)]
  exact ⟨_, rfl⟩

end ElfImage

namespace Checked

open ElfImage

/-- The description of the note in a section: namesz(4), descsz(4), type(4),
the name padded to words, and then the build ID. -/
def noteDesc (build : Build) (image : ElfImage) (sh : SectionHeader) :
    Except Fault (Option (List UInt8)) := do
  let offset := sh.shOffset
  let size := sh.shSize
  let stop ← build.add offset size -- not checked; wrapped, it can pass the test
  if stop.toNat ≤ image.data.length ∧ size > 16 then
    let namesz ← sliceAt image.data offset (← build.add offset 4)
    match image.readNoteU32 namesz with
    | none => return none
    | some namesz =>
        let descsz ← sliceAt image.data (← build.add offset 4) (← build.add offset 8)
        match image.readNoteU32 descsz with
        | none => return none
        | some descsz =>
            let descOffset ← build.add (← build.add offset 12)
              ((← build.add namesz.toUInt64 3) &&& ~~~ 3)
            let descStop ← build.add descOffset descsz.toUInt64
            if descStop.toNat ≤ image.data.length then
              let desc ← sliceAt image.data descOffset (← build.add descOffset descsz.toUInt64)
              return some desc
            else return none
  else return none

/-- The build ID of a file. -/
def buildIdOf (build : Build) (image : ElfImage) : Except Fault (Option (List UInt8)) :=
  match image.buildIdSection with
  | none => .ok none
  | some sh => noteDesc build image sh

/-- Two words and their slices. -/
theorem add_slice_ok (build : Build) {data : List UInt8} (offset a b : UInt64) (n : Nat)
    (hab : b.toNat = a.toNat + n) (hin : offset.toNat + b.toNat ≤ data.length)
    (hdata : data.length < 2 ^ 63) :
    build.add offset a = .ok (offset + a) ∧ build.add offset b = .ok (offset + b)
      ∧ sliceAt data (offset + a) (offset + b)
        = .ok (bytesAt data (offset.toNat + a.toNat) n) := by
  have ha : offset.toNat + a.toNat < 2 ^ 64 := by omega
  have hb : offset.toNat + b.toNat < 2 ^ 64 := by omega
  refine ⟨Build.add_of_fits build ha, Build.add_of_fits build hb, ?_⟩
  rw [← toNat_add_of_fits ha]
  apply slice_of_le
  · rw [toNat_add_of_fits ha, toNat_add_of_fits hb, hab, Nat.add_assoc]
  · rw [toNat_add_of_fits hb]
    exact hin

/-- The sums that lead to the description: the name is padded to words. -/
theorem desc_offset_ok (build : Build) (offset : UInt64) (h : offset.toNat < 2 ^ 63)
    (namesz : UInt32) :
    build.add offset 12 = .ok (offset + 12)
      ∧ build.add namesz.toUInt64 3 = .ok (namesz.toUInt64 + 3)
      ∧ build.add (offset + 12) ((namesz.toUInt64 + 3) &&& ~~~ 3)
          = .ok (offset + 12 + ((namesz.toUInt64 + 3) &&& ~~~ 3))
      ∧ (offset + 12 + ((namesz.toUInt64 + 3) &&& ~~~ 3)).toNat
          = offset.toNat + 12 + (namesz.toNat + 3) / 4 * 4 := by
  have hlt := namesz.toNat_lt
  have h12 : offset.toNat + (12 : UInt64).toNat < 2 ^ 64 := by
    show offset.toNat + 12 < 2 ^ 64
    omega
  have h12Nat : (offset + 12).toNat = offset.toNat + 12 := toNat_add_of_fits h12
  have h3 : namesz.toUInt64.toNat + (3 : UInt64).toNat < 2 ^ 64 := by
    rw [UInt32.toNat_toUInt64]
    show namesz.toNat + 3 < 2 ^ 64
    omega
  have hpad : ((namesz.toUInt64 + 3) &&& ~~~ 3).toNat = (namesz.toNat + 3) / 4 * 4 := by
    have hmask := toNat_and_not_mask (namesz.toUInt64 + 3) (k := 2) (by decide)
    rw [toNat_add_of_fits h3, UInt32.toNat_toUInt64] at hmask
    exact hmask
  have hstart : (offset + 12).toNat + ((namesz.toUInt64 + 3) &&& ~~~ 3).toNat < 2 ^ 64 := by
    rw [h12Nat, hpad]
    omega
  refine ⟨Build.add_of_fits build h12, Build.add_of_fits build h3, Build.add_of_fits build hstart, ?_⟩
  rw [toNat_add_of_fits hstart, h12Nat, hpad]

/-- **The build ID is read as with numbers of any size**, in either build,
when the end of the section is an address of the machine. -/
theorem noteDesc_of_fits (build : Build) (image : ElfImage) (sh : SectionHeader)
    (h : sh.shOffset.toNat + sh.shSize.toNat < 2 ^ 64) :
    noteDesc build image sh = .ok (image.noteDescAt sh.shOffset.toNat sh.shSize.toNat) := by
  have hdata := image.data_lt
  unfold noteDesc noteDescAt
  dsimp only
  rw [Build.add_of_fits build h, ok_bind, toNat_add_of_fits h]
  by_cases hcheck : sh.shOffset.toNat + sh.shSize.toNat ≤ image.data.length ∧ 16 < sh.shSize.toNat
  · rw [if_pos hcheck, if_pos ⟨hcheck.1, UInt64.lt_iff_toNat_lt.mpr hcheck.2⟩]
    -- the two words
    obtain ⟨-, h4, hname⟩ := add_slice_ok build sh.shOffset 0 4 4 rfl
      (by show sh.shOffset.toNat + 4 ≤ _; omega) hdata
    obtain ⟨-, h8, hdesc⟩ := add_slice_ok build sh.shOffset 4 8 4 rfl
      (by show sh.shOffset.toNat + 8 ≤ _; omega) hdata
    rw [UInt64.add_zero] at hname
    obtain ⟨namesz, hnamesz⟩ :=
      exists_noteWord image (show sh.shOffset.toNat + 4 ≤ image.data.length by omega)
    obtain ⟨descsz, hdescsz⟩ :=
      exists_noteWord image (show sh.shOffset.toNat + 4 + 4 ≤ image.data.length by omega)
    have hword : image.readNoteU32 (bytesAt image.data (sh.shOffset.toNat + (0 : UInt64).toNat) 4)
        = some namesz := hnamesz
    have hword' : image.readNoteU32 (bytesAt image.data (sh.shOffset.toNat + (4 : UInt64).toNat) 4)
        = some descsz := hdescsz
    -- the description
    obtain ⟨h12, h3, hadd, hstart⟩ := desc_offset_ok build sh.shOffset (by omega) namesz
    have hdlt := descsz.toNat_lt
    have hnlt := namesz.toNat_lt
    have hstop : (sh.shOffset + 12 + ((namesz.toUInt64 + 3) &&& ~~~ 3)).toNat
        + descsz.toUInt64.toNat < 2 ^ 64 := by
      rw [hstart, UInt32.toNat_toUInt64]
      omega
    have hstopNat := toNat_add_of_fits hstop
    rw [UInt32.toNat_toUInt64] at hstopNat
    simp only [h4, ok_bind, hname, hword, h8, hdesc, hword', h12, h3, hadd,
      Build.add_of_fits build hstop, hnamesz, hdescsz, Option.bind_some, hstopNat, ← hstart]
    by_cases hin : (sh.shOffset + 12 + ((namesz.toUInt64 + 3) &&& ~~~ 3)).toNat + descsz.toNat
        ≤ image.data.length
    · rw [if_pos hin, if_pos hin, slice_of_le descsz.toNat hstopNat (hstopNat ▸ hin)]
      rfl
    · rw [if_neg hin, if_neg hin]
      rfl
  · rw [if_neg hcheck, if_neg ?_]
    · rfl
    · intro hc
      exact hcheck ⟨hc.1, UInt64.lt_iff_toNat_lt.mp hc.2⟩

/-- A debug build stops where the end of the section overflows. -/
theorem noteDesc_overflow {image : ElfImage} {sh : SectionHeader}
    (h : 2 ^ 64 ≤ sh.shOffset.toNat + sh.shSize.toNat) :
    noteDesc .debug image sh = .error .overflow := by
  unfold noteDesc
  dsimp only
  rw [Build.add_overflow h]
  rfl

/-! ## §4. The index and its look-ups. -/

theorem inferSizes_eq_ok {build : Build} {symbols sized : List Symbol}
    (hord : OrderedMap.Ordered Symbol.addr symbols) (hlen : symbols.length < 2 ^ 63)
    (h : inferSizes build symbols = .ok sized) : sized = Convert.inferSizes symbols := by
  obtain ⟨hok, hstop⟩ := inferSizes_eq build hord hlen
  by_cases hover : build = .debug ∧ ¬ LastFits symbols
  · rw [hstop hover.1 hover.2] at h
    cases h
  · rw [hok fun hdebug => by_contra fun hnot => hover ⟨hdebug, hnot⟩] at h
    exact (Except.ok.inj h).symm

/-- The map has no more symbols than the tables. -/
theorem length_symbolMap_lt (image : ElfImage) : (symbolMap image.elf).length < 2 ^ 63 := by
  have hnodup : (symbolMap image.elf).Nodup := (symbolMap_ordered image.elf).imp fun hlt heq => by
    rw [heq] at hlt
    exact UInt64.lt_irrefl _ hlt
  have hsub : symbolMap image.elf ⊆ retained image.elf := by
    intro w hw
    have hget := (OrderedMap.get_eq_some_iff (symbolMap_ordered image.elf)).mpr ⟨hw, rfl⟩
    rw [get_symbolMap] at hget
    exact List.mem_of_mem_filter (List.argmax_mem hget)
  calc (symbolMap image.elf).length ≤ (retained image.elf).length := (hnodup.subperm hsub).length_le
    _ ≤ (image.elf.syms ++ image.elf.dynsyms).length := List.length_filterMap_le _ _
    _ < 2 ^ 63 := image.syms_lt

theorem sorted_of_inferSizes {build : Build} {image : ElfImage} {symbols : List Symbol}
    (h : inferSizes build (symbolMap image.elf) = .ok symbols) :
    symbols.Pairwise fun a b => a.addr < b.addr := by
  rw [inferSizes_eq_ok (symbolMap_ordered image.elf) (length_symbolMap_lt image) h]
  exact ordered_inferSizes image.elf

/-- Parse an ELF binary and build the symbol index. -/
def fromFile (build : Build) (image : ElfImage) : Except Fault LoadedElf :=
  match h : inferSizes build (symbolMap image.elf) with
  | .error fault => .error fault
  | .ok symbols => do
      let buildId ← buildIdOf build image
      return { symbols := symbols, loadAddr := loadAddrOf image.elf
               sorted := sorted_of_inferSizes h, buildId := buildId }

/-- Look up the symbol containing the given address. -/
def symbolAt (build : Build) (index : ElfIndex) (addr : UInt64) : Except Fault (Option Symbol) :=
  match lastAtOrBefore Symbol.addr index.symbols addr with
  | none => .ok none
  | some sym => do
      let stop ← build.add sym.addr sym.size
      return if addr < stop then some sym else none

theorem fromFile_of_fits {build : Build} {image : ElfImage}
    (h : build = .debug → LastFits (symbolMap image.elf)) :
    fromFile build image
      = (buildIdOf build image).map fun id => ⟨ElfIndex.fromFile image.elf, id⟩ := by
  have hok := (inferSizes_eq build (symbolMap_ordered image.elf) (length_symbolMap_lt image)).1 h
  unfold fromFile
  split
  · rename_i hfault
    rw [hok] at hfault
    cases hfault
  · rename_i symbols hsymbols
    rw [hok] at hsymbols
    cases hsymbols
    cases buildIdOf build image with
    | error fault => rfl
    | ok id => rfl

theorem fromFile_overflow {image : ElfImage} (h : ¬ LastFits (symbolMap image.elf)) :
    fromFile .debug image = .error .overflow := by
  have hstop := (inferSizes_eq .debug (symbolMap_ordered image.elf)
    (length_symbolMap_lt image)).2 rfl h
  unfold fromFile
  split
  · rename_i hfault
    rw [hstop] at hfault
    cases hfault
    rfl
  · rename_i hsymbols
    rw [hstop] at hsymbols
    cases hsymbols

theorem symbolAt_eq {build : Build} {index : ElfIndex} {addr : UInt64}
    (h : ∀ sym, lastAtOrBefore Symbol.addr index.symbols addr = some sym →
      build.add sym.addr sym.size = .ok (sym.addr + sym.size)) :
    symbolAt build index addr = .ok (index.symbolAt addr) := by
  unfold symbolAt ElfIndex.symbolAt
  cases hlast : lastAtOrBefore Symbol.addr index.symbols addr with
  | none => rfl
  | some sym =>
      dsimp only
      rw [h sym hlast, ok_bind, Option.filter_some]
      by_cases hlt : addr < sym.addr + sym.size
      · rw [if_pos hlt, if_pos (decide_eq_true hlt)]
        rfl
      · rw [if_neg hlt, if_neg (by simpa using hlt)]
        rfl

/-- A release build looks up as `Convert.ElfIndex` says. -/
theorem symbolAt_release (index : ElfIndex) (addr : UInt64) :
    symbolAt .release index addr = .ok (index.symbolAt addr) :=
  symbolAt_eq fun sym _ => Build.add_release sym.addr sym.size

end Checked

end QemuProfiler.Convert

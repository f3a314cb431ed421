/-
  QemuProfiler.Convert.TextRoundTrip
  ──────────────────────────────────
  **TEXT PROFILES DECODE BACK.**

  One reader per documented grammar.  Each one accepts the emitter's text, and
  adding the base to the offsets it reads gives the addresses of the profile,
  in order, for every 64-bit address.  Shifting the image moves no offset.
-/
import QemuProfiler.Convert.Emitters

namespace QemuProfiler.Convert

open QemuProfiler.Lib

/-! ## §1. Readers of the grammars. -/

/-- `<from_hex>-<to_hex>:<count>`. -/
def readRange (t : Text) : Option OffsetEntry := do
  let (a, rest) ← splitPair '-' t
  let (b, c) ← splitPair ':' rest
  some (← readU64 16 a, ← readU64 16 b, ← readU64 10 c)

/-- `<src_hex>-><dst_hex>:<count>`. -/
def readBranch (t : Text) : Option OffsetEntry := do
  let (a, rest) ← splitPair '-' t
  match rest with
  | '>' :: rest =>
      let (b, c) ← splitPair ':' rest
      some (← readU64 16 a, ← readU64 16 b, ← readU64 10 c)
  | _ => none

/-- `<addr_hex>:<count>`. -/
def readAddress (t : Text) : Option (UInt64 × UInt64) := do
  let (a, c) ← splitPair ':' t
  some (← readU64 16 a, ← readU64 10 c)

/-- Ranges, then branches, then nothing. -/
def Autofdo.read (t : Text) : Option (List OffsetEntry × List OffsetEntry) := do
  let lines ← linesOf t
  let (ranges, lines) ← readSection readRange lines
  let (branches, lines) ← readSection readBranch lines
  if lines.isEmpty then some (ranges, branches) else none

/-- Ranges, then addresses, then branches, then nothing. -/
def GccAutofdo.read (t : Text) :
    Option (List OffsetEntry × List (UInt64 × UInt64) × List OffsetEntry) := do
  let lines ← linesOf t
  let (ranges, lines) ← readSection readRange lines
  let (addresses, lines) ← readSection readAddress lines
  let (branches, lines) ← readSection readBranch lines
  if lines.isEmpty then some (ranges, addresses, branches) else none

namespace Bolt

/-- A record of the pre-aggregated format. -/
inductive Record where
  /-- `B <from_offset_hex> <to_offset_hex> <count> <mispreds>` -/
  | branch (e : OffsetEntry) (mispreds : UInt64)
  /-- `F <from_offset_hex> <to_offset_hex> <count>` -/
  | fallThrough (e : OffsetEntry)
  deriving DecidableEq, Repr

def readRecord (t : Text) : Option Record :=
  match t.splitOn ' ' with
  | [['B'], a, b, c, m] => do
      some (.branch (← readU64 16 a, ← readU64 16 b, ← readU64 10 c) (← readU64 10 m))
  | [['F'], a, b, c] => do some (.fallThrough (← readU64 16 a, ← readU64 16 b, ← readU64 10 c))
  | _ => none

/-- The event type, then records. -/
def read (t : Text) : Option (List Record) := do
  match ← linesOf t with
  | head :: records => if head = "E cycles".toList then records.mapM readRecord else none
  | [] => none

end Bolt

/-! ## §2. Each line comes back. -/

/-- The end of a range or branch line. -/
theorem splitPair_offset_count (offset count : UInt64) :
    splitPair ':' (hexText offset ++ ':' :: decText count)
      = some (hexText offset, decText count) :=
  splitPair_append (not_mem_hexText _ (by decide)) (not_mem_decText _ (by decide))

theorem readRange_rangeLine (e : OffsetEntry) : readRange (rangeLine e) = some e := by
  have hsplit : splitPair '-' (rangeLine e)
      = some (hexText e.1, hexText e.2.1 ++ ':' :: decText e.2.2) := by
    apply splitPair_append (not_mem_hexText _ (by decide))
    simp [not_mem_hexText _ (show digitValue '-' = 16 by decide),
      not_mem_decText _ (show digitValue '-' = 16 by decide)]
  unfold readRange
  simp [hsplit, splitPair_offset_count]

theorem readBranch_branchLine (e : OffsetEntry) : readBranch (branchLine e) = some e := by
  have hsplit : splitPair '-' (branchLine e)
      = some (hexText e.1, '>' :: (hexText e.2.1 ++ ':' :: decText e.2.2)) := by
    apply splitPair_append (not_mem_hexText _ (by decide))
    simp [not_mem_hexText _ (show digitValue '-' = 16 by decide),
      not_mem_decText _ (show digitValue '-' = 16 by decide)]
  unfold readBranch
  simp [hsplit, splitPair_offset_count]

theorem Bolt.readRecord_branchRecord (e : OffsetEntry) :
    Bolt.readRecord (Bolt.branchRecord e) = some (.branch e 0) := by
  have hjoin : Bolt.branchRecord e
      = [' '].intercalate [['B'], hexText e.1, hexText e.2.1, decText e.2.2, ['0']] := by
    simp [Bolt.branchRecord, List.intercalate]
  have hwords : (Bolt.branchRecord e).splitOn ' '
      = [['B'], hexText e.1, hexText e.2.1, decText e.2.2, ['0']] := by
    rw [hjoin]
    apply List.splitOn_intercalate
    · simp [not_mem_hexText _ (show digitValue ' ' = 16 by decide),
        not_mem_decText _ (show digitValue ' ' = 16 by decide)]
    · simp
  have hzero : readU64 10 ['0'] = some 0 := by decide
  unfold Bolt.readRecord
  simp [hwords, hzero]

theorem Bolt.readRecord_fallThroughRecord (e : OffsetEntry) :
    Bolt.readRecord (Bolt.fallThroughRecord e) = some (.fallThrough e) := by
  have hjoin : Bolt.fallThroughRecord e
      = [' '].intercalate [['F'], hexText e.1, hexText e.2.1, decText e.2.2] := by
    simp [Bolt.fallThroughRecord, List.intercalate]
  have hwords : (Bolt.fallThroughRecord e).splitOn ' '
      = [['F'], hexText e.1, hexText e.2.1, decText e.2.2] := by
    rw [hjoin]
    apply List.splitOn_intercalate
    · simp [not_mem_hexText _ (show digitValue ' ' = 16 by decide),
        not_mem_decText _ (show digitValue ' ' = 16 by decide)]
    · simp
  unfold Bolt.readRecord
  simp [hwords]

/-! ## §3. Each text comes back. -/

theorem newline_not_mem_hexText (x : UInt64) : '\n' ∉ hexText x := not_mem_hexText x (by decide)

theorem newline_not_mem_decText (x : UInt64) : '\n' ∉ decText x := not_mem_decText x (by decide)

theorem newline_not_mem_sectionLines {ε : Type} {print : ε → Text} (h : ∀ e, '\n' ∉ print e)
    (entries : List ε) : ∀ l ∈ sectionLines print entries, '\n' ∉ l := by
  intro l hl
  rcases List.mem_cons.mp hl with hcount | hentry
  · rw [hcount]
    exact not_mem_toDigits (by omega) (by omega) _ (by decide)
  · obtain ⟨e, _, rfl⟩ := List.mem_map.mp hentry
    exact h e

theorem newline_not_mem_rangeLine (e : OffsetEntry) : '\n' ∉ rangeLine e := by
  simp [rangeLine, newline_not_mem_hexText, newline_not_mem_decText]

theorem newline_not_mem_branchLine (e : OffsetEntry) : '\n' ∉ branchLine e := by
  simp [branchLine, newline_not_mem_hexText, newline_not_mem_decText]

theorem Autofdo.read_emit (profile : Profile) (elf : ElfIndex) :
    Autofdo.read (Autofdo.emit profile elf)
      = some (rangesOf (baseOf profile elf) profile,
          offsetsOf (baseOf profile elf) profile.branchEdges) := by
  have hlines : linesOf (Autofdo.emit profile elf)
      = some (sectionLines rangeLine (rangesOf (baseOf profile elf) profile)
        ++ (sectionLines branchLine (offsetsOf (baseOf profile elf) profile.branchEdges) ++ [])) := by
    rw [List.append_nil]
    apply linesOf_unlines
    intro l hl
    rcases List.mem_append.mp hl with hin | hin
    · exact newline_not_mem_sectionLines newline_not_mem_rangeLine _ l hin
    · exact newline_not_mem_sectionLines newline_not_mem_branchLine _ l hin
  unfold Autofdo.read
  simp [hlines, readSection_append readRange_rangeLine, readSection_append readBranch_branchLine,
    -List.append_nil]

theorem GccAutofdo.read_emit (profile : Profile) (elf : ElfIndex) :
    GccAutofdo.read (GccAutofdo.emit profile elf)
      = some (rangesOf (baseOf profile elf) profile, [],
          offsetsOf (baseOf profile elf) profile.branchEdges) := by
  -- the line `0` is an address section without entries
  have hlines : linesOf (GccAutofdo.emit profile elf)
      = some (sectionLines rangeLine (rangesOf (baseOf profile elf) profile)
        ++ (sectionLines (fun e : UInt64 × UInt64 => hexText e.1 ++ ':' :: decText e.2) []
        ++ (sectionLines branchLine (offsetsOf (baseOf profile elf) profile.branchEdges) ++ []))) := by
    rw [List.append_nil]
    apply linesOf_unlines
    intro l hl
    rcases List.mem_append.mp hl with hin | hin
    · exact newline_not_mem_sectionLines newline_not_mem_rangeLine _ l hin
    · rcases List.mem_cons.mp hin with hzero | hin
      · rw [hzero]
        decide
      · exact newline_not_mem_sectionLines newline_not_mem_branchLine _ l hin
  have haddress : ∀ e : UInt64 × UInt64, readAddress (hexText e.1 ++ ':' :: decText e.2) = some e := by
    intro e
    unfold readAddress
    simp [splitPair_offset_count]
  unfold GccAutofdo.read
  simp [hlines, readSection_append readRange_rangeLine, readSection_append haddress,
    readSection_append readBranch_branchLine, -List.append_nil]

theorem Bolt.read_emit (profile : Profile) (elf : ElfIndex) :
    Bolt.read (Bolt.emit profile elf)
      = some ((offsetsOf (baseOf profile elf) profile.branchEdges).map (Bolt.Record.branch · 0)
        ++ (offsetsOf (baseOf profile elf) profile.fallThroughEdges).map .fallThrough) := by
  have hlines : linesOf (Bolt.emit profile elf)
      = some ("E cycles".toList
        :: ((offsetsOf (baseOf profile elf) profile.branchEdges).map Bolt.branchRecord
          ++ (offsetsOf (baseOf profile elf) profile.fallThroughEdges).map
            Bolt.fallThroughRecord)) := by
    apply linesOf_unlines
    intro l hl
    rcases List.mem_append.mp hl with hin | hin
    · rcases List.mem_cons.mp hin with hevent | hin
      · rw [hevent]
        simp
      · obtain ⟨e, _, rfl⟩ := List.mem_map.mp hin
        simp [Bolt.branchRecord, newline_not_mem_hexText, newline_not_mem_decText]
    · obtain ⟨e, _, rfl⟩ := List.mem_map.mp hin
      simp [Bolt.fallThroughRecord, newline_not_mem_hexText, newline_not_mem_decText]
  have hread : ∀ (print : OffsetEntry → Text) (record : OffsetEntry → Bolt.Record),
      (∀ e, Bolt.readRecord (print e) = some (record e)) →
      ∀ es : List OffsetEntry, (es.map print).mapM Bolt.readRecord = some (es.map record) := by
    intro print record h es
    induction es with
    | nil => rfl
    | cons e es ih => simp [h, ih]
  unfold Bolt.read
  rw [hlines, Option.bind_eq_bind, Option.bind_some]
  dsimp only
  rw [if_pos rfl, List.mapM_append, hread _ _ Bolt.readRecord_branchRecord,
      hread _ _ Bolt.readRecord_fallThroughRecord]
  rfl

/-! ## §4. Addresses. -/

/-- The entry at its runtime addresses. -/
def addBase (base : UInt64) (e : OffsetEntry) : UInt64 × UInt64 × UInt64 :=
  (e.1 + base, e.2.1 + base, e.2.2)

theorem map_addBase_rangesOf (base : UInt64) (profile : Profile) :
    (rangesOf base profile).map (addBase base)
      = (profile.tbExecs.filter fun tb => 0 < tb.execCount).map fun tb =>
          (tb.startAddr, tb.endAddr, tb.execCount) := by
  have hexec : (fun tb : TbExec => decide (tb.execCount ≠ 0))
      = fun tb : TbExec => decide (0 < tb.execCount) := by
    funext tb
    rw [decide_eq_decide, UInt64.pos_iff_ne_zero]
  unfold rangesOf addBase
  rw [hexec, List.map_map]
  apply List.map_congr_left
  intro tb _
  show (tb.startAddr - base + base, tb.endAddr - base + base, tb.execCount) = _
  rw [UInt64.sub_add_cancel, UInt64.sub_add_cancel]

theorem map_addBase_offsetsOf (base : UInt64) (edges : List EdgeRecord) :
    (offsetsOf base edges).map (addBase base)
      = edges.map fun edge => (edge.fromAddr, edge.toAddr, edge.count) := by
  unfold offsetsOf addBase
  rw [List.map_map]
  apply List.map_congr_left
  intro edge _
  show (edge.fromAddr - base + base, edge.toAddr - base + base, edge.count) = _
  rw [UInt64.sub_add_cancel, UInt64.sub_add_cancel]

/-- Every address of the profile, its load address included, moved by `δ`. -/
def shifted (δ : UInt64) (p : Profile) : Profile :=
  { p with
    header := { p.header with
      loadAddr := p.header.loadAddr + δ, textStart := p.header.textStart + δ
      textEnd := p.header.textEnd + δ, entryAddr := p.header.entryAddr + δ }
    symbols := p.symbols.map fun s => { s with addr := s.addr + δ }
    tbExecs := p.tbExecs.map fun tb =>
      { tb with startAddr := tb.startAddr + δ, endAddr := tb.endAddr + δ }
    branchEdges := p.branchEdges.map fun e =>
      { e with fromAddr := e.fromAddr + δ, toAddr := e.toAddr + δ }
    fallThroughEdges := p.fallThroughEdges.map fun e =>
      { e with fromAddr := e.fromAddr + δ, toAddr := e.toAddr + δ }
    directCalls := p.directCalls.map fun c =>
      { c with callsite := c.callsite + δ, target := c.target + δ }
    indirectCalls := p.indirectCalls.map fun c =>
      { c with callsite := c.callsite + δ, target := c.target + δ }
    tbResources := p.tbResources.map fun r => { r with tbAddr := r.tbAddr + δ }
    disconEvents := p.disconEvents.map fun d =>
      { d with fromPc := d.fromPc + δ, toPc := d.toPc + δ } }

theorem sub_shift (a base δ : UInt64) : a + δ - (base + δ) = a - base :=
  add_sub_add_right_eq_sub a base δ

/-- A shifted profile has the same offsets. -/
theorem shifted_offsets (δ : UInt64) (profile : Profile) (elf : ElfIndex)
    (hload : profile.header.loadAddr ≠ 0) (hnew : profile.header.loadAddr + δ ≠ 0) :
    rangesOf (baseOf (shifted δ profile) elf) (shifted δ profile)
        = rangesOf (baseOf profile elf) profile
      ∧ offsetsOf (baseOf (shifted δ profile) elf) (shifted δ profile).branchEdges
        = offsetsOf (baseOf profile elf) profile.branchEdges
      ∧ offsetsOf (baseOf (shifted δ profile) elf) (shifted δ profile).fallThroughEdges
        = offsetsOf (baseOf profile elf) profile.fallThroughEdges := by
  have hbase : baseOf profile elf = profile.header.loadAddr := if_pos hload
  have hbase' : baseOf (shifted δ profile) elf = profile.header.loadAddr + δ := if_pos hnew
  have hedges : ∀ edges : List EdgeRecord,
      offsetsOf (profile.header.loadAddr + δ) (edges.map fun e =>
          { e with fromAddr := e.fromAddr + δ, toAddr := e.toAddr + δ })
        = offsetsOf profile.header.loadAddr edges := by
    intro edges
    unfold offsetsOf
    rw [List.map_map]
    apply List.map_congr_left
    intro e _
    show (e.fromAddr + δ - (_ + δ), e.toAddr + δ - (_ + δ), e.count) = _
    rw [sub_shift, sub_shift]
  rw [hbase, hbase']
  refine ⟨?_, hedges profile.branchEdges, hedges profile.fallThroughEdges⟩
  unfold rangesOf
  show (List.map _ (List.filter _ (profile.tbExecs.map _))) = _
  rw [List.filter_map, List.map_map]
  apply List.map_congr_left
  intro tb _
  show (tb.startAddr + δ - (_ + δ), tb.endAddr + δ - (_ + δ), tb.execCount) = _
  rw [sub_shift, sub_shift]

/-! ## §5. The law. -/

/-- **TEXT PROFILES DECODE BACK.**  Each emitted text reads under its grammar;
with the base added the entries are the executed TBs, the branch edges and the
fall-through edges, in order.  The GCC text is the other one with an empty
address section inserted, and an image loaded elsewhere gives the same texts. -/
theorem textProfiles_decode (profile : Profile) (elf : ElfIndex) :
    ∃ ranges branches fallThroughs : List OffsetEntry,
      Autofdo.read (Autofdo.emit profile elf) = some (ranges, branches)
        ∧ GccAutofdo.read (GccAutofdo.emit profile elf) = some (ranges, [], branches)
        ∧ Bolt.read (Bolt.emit profile elf)
          = some (branches.map (Bolt.Record.branch · 0) ++ fallThroughs.map .fallThrough)
        ∧ ranges.map (addBase (baseOf profile elf))
          = (profile.tbExecs.filter fun tb => 0 < tb.execCount).map
              (fun tb => (tb.startAddr, tb.endAddr, tb.execCount))
        ∧ branches.map (addBase (baseOf profile elf))
          = profile.branchEdges.map (fun e => (e.fromAddr, e.toAddr, e.count))
        ∧ fallThroughs.map (addBase (baseOf profile elf))
          = profile.fallThroughEdges.map (fun e => (e.fromAddr, e.toAddr, e.count))
        ∧ (∃ rangeSection branchSection : Text,
            rangeSection = unlines (sectionLines rangeLine ranges)
            ∧ Autofdo.emit profile elf = rangeSection ++ branchSection
            ∧ GccAutofdo.emit profile elf = rangeSection ++ ('0' :: '\n' :: branchSection))
        ∧ ∀ δ, profile.header.loadAddr ≠ 0 → profile.header.loadAddr + δ ≠ 0 →
          Autofdo.emit (shifted δ profile) elf = Autofdo.emit profile elf
          ∧ GccAutofdo.emit (shifted δ profile) elf = GccAutofdo.emit profile elf
          ∧ Bolt.emit (shifted δ profile) elf = Bolt.emit profile elf := by
  refine ⟨_, _, _, Autofdo.read_emit profile elf, GccAutofdo.read_emit profile elf,
    Bolt.read_emit profile elf, map_addBase_rangesOf _ profile, map_addBase_offsetsOf _ _,
    map_addBase_offsetsOf _ _, ⟨_, unlines (sectionLines branchLine
      (offsetsOf (baseOf profile elf) profile.branchEdges)), rfl, ?_, ?_⟩, ?_⟩
  · exact unlines_append _ _
  · unfold GccAutofdo.emit
    dsimp only
    rw [unlines_append]
    simp [unlines]
  -- offsets from the base are the same wherever the image was loaded
  · intro δ hload hnew
    obtain ⟨hranges, hbranches, hfall⟩ := shifted_offsets δ profile elf hload hnew
    unfold Autofdo.emit GccAutofdo.emit Bolt.emit
    dsimp only
    rw [hranges, hbranches, hfall]
    exact ⟨rfl, rfl, rfl⟩

end QemuProfiler.Convert

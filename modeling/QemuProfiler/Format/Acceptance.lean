/-
  QemuProfiler.Format.Acceptance
  ──────────────────────────────
  **THE PARSER ACCEPTS EXACTLY ITS FORMAT**, on every byte string.

  `decodeRecord` says, field by field and without any bounds check, what a
  record contributes.  The decoders of the parser compute it on EVERY payload
  (`parseRecord_eq`), so no slice leaves its bounds, a batch yields as many
  entries as its count field and its length allow, and a payload that is too
  short for what it declares yields nothing.
-/
import QemuProfiler.Format.RoundTrip

namespace QemuProfiler.Format

open QemuProfiler.Lib QemuProfiler.Plugin
open QemuProfiler.Convert hiding fileMagic FileHeader

/-! ## §1. What a payload says. -/

/-- Length of the key of a metadata payload. -/
def metaKeyLen (payload : List UInt8) : Nat := (payload.getD 0 0).toNat

/-- Length of the value of a metadata payload. -/
def metaValLen (payload : List UInt8) : Nat :=
  (u16OfLe (bytesAt payload (1 + metaKeyLen payload) 2)).toNat

/-- Length of the name of a symbol payload. -/
def symbolNameLen (payload : List UInt8) : Nat := (u16OfLe (bytesAt payload 10 2)).toNat

/-- The number of bytes a payload of this kind needs, by its own length
fields. -/
def declaredLength (tag : UInt8) (payload : List UInt8) : Nat :=
  if tag = 0x01 then 3 + metaKeyLen payload + metaValLen payload
  else if tag = 0x02 then 12 + symbolNameLen payload
  else if tag = 0x40 then 20
  else if tag = 0x42 then 28
  else if tag = 0xFF then 40
  else 0

/-- The tags the dispatch handles. -/
def handledTags : List UInt8 :=
  [0x01, 0x02, 0x13, 0x21, 0x23, 0x32, 0x33, 0x40, 0x42, 0xFF]

/-- The payload ends before what it declares. -/
def TooShort (tag : UInt8) (payload : List UInt8) : Prop :=
  payload.length < declaredLength tag payload

instance (tag : UInt8) (payload : List UInt8) : Decidable (TooShort tag payload) :=
  inferInstanceAs (Decidable (_ < _))

/-- The number of entries in a batch of `size`-byte entries: the count field,
or as many as fit. -/
def entryCount (size : Nat) (payload : List UInt8) : Nat :=
  if payload.length < 4 then 0
  else min (u32OfLe (bytesAt payload 0 4)).toNat ((payload.length - 4) / size)

/-- The entries of a batch. -/
def entriesIn {ε : Type} (size : Nat) (entryFrom : List UInt8 → Nat → ε)
    (payload : List UInt8) : List ε :=
  (List.range (entryCount size payload)).map fun i => entryFrom payload (4 + size * i)

theorem length_entriesIn {ε : Type} (size : Nat) (entryFrom : List UInt8 → Nat → ε)
    (payload : List UInt8) : (entriesIn size entryFrom payload).length = entryCount size payload := by
  unfold entriesIn
  rw [List.length_map, List.length_range]

def tbExecFrom (payload : List UInt8) (off : Nat) : TbExec :=
  ⟨u64OfLe (bytesAt payload off 8), u64OfLe (bytesAt payload (off + 8) 8),
    u16OfLe (bytesAt payload (off + 16) 2), u64OfLe (bytesAt payload (off + 24) 8),
    u64OfLe (bytesAt payload (off + 32) 8)⟩

def tripleFrom {ε : Type} (mk : UInt64 → UInt64 → UInt64 → ε) (payload : List UInt8)
    (off : Nat) : ε :=
  mk (u64OfLe (bytesAt payload off 8)) (u64OfLe (bytesAt payload (off + 8) 8))
    (u64OfLe (bytesAt payload (off + 16) 8))

def symbolFrom (payload : List UInt8) : SymbolRecord :=
  ⟨u16OfLe (bytesAt payload 0 2), u64OfLe (bytesAt payload 2 8),
    fromUtf8Lossy (bytesAt payload 12 (symbolNameLen payload))⟩

def tbResourceFrom (payload : List UInt8) : TbResourceRecord :=
  ⟨u64OfLe (bytesAt payload 0 8), u32OfLe (bytesAt payload 8 4), u64OfLe (bytesAt payload 12 8)⟩

def disconFrom (payload : List UInt8) : DisconRecord :=
  ⟨u32OfLe (bytesAt payload 0 4), u64OfLe (bytesAt payload 4 8), u64OfLe (bytesAt payload 12 8),
    u64OfLe (bytesAt payload 20 8)⟩

def footerFrom (payload : List UInt8) : Footer :=
  ⟨u64OfLe (bytesAt payload 0 8), u64OfLe (bytesAt payload 8 8), u64OfLe (bytesAt payload 16 8),
    u64OfLe (bytesAt payload 24 8), u32OfLe (bytesAt payload 32 4) &&& 0x1 != 0⟩

/-- **What a record contributes**, field by field. -/
def decodeRecord (tag : UInt8) (payload : List UInt8) (p : Profile) : Profile :=
  { p with
    metadata :=
      if tag = 0x01 ∧ ¬ TooShort tag payload then
        p.metadata.insert (fromUtf8Lossy (bytesAt payload 1 (metaKeyLen payload)))
          (fromUtf8Lossy (bytesAt payload (3 + metaKeyLen payload) (metaValLen payload)))
      else p.metadata
    symbols := p.symbols
      ++ (if tag = 0x02 ∧ ¬ TooShort tag payload then [symbolFrom payload] else [])
    tbExecs := p.tbExecs ++ (if tag = 0x13 then entriesIn 40 tbExecFrom payload else [])
    branchEdges := p.branchEdges
      ++ (if tag = 0x21 then entriesIn 24 (tripleFrom EdgeRecord.mk) payload else [])
    fallThroughEdges := p.fallThroughEdges
      ++ (if tag = 0x23 then entriesIn 24 (tripleFrom EdgeRecord.mk) payload else [])
    directCalls := p.directCalls
      ++ (if tag = 0x32 then entriesIn 24 (tripleFrom CallRecord.mk) payload else [])
    indirectCalls := p.indirectCalls
      ++ (if tag = 0x33 then entriesIn 24 (tripleFrom CallRecord.mk) payload else [])
    tbResources := p.tbResources
      ++ (if tag = 0x40 ∧ ¬ TooShort tag payload then [tbResourceFrom payload] else [])
    disconEvents := p.disconEvents
      ++ (if tag = 0x42 ∧ ¬ TooShort tag payload then [disconFrom payload] else [])
    footer := if tag = 0xFF ∧ ¬ TooShort tag payload then some (footerFrom payload) else p.footer }

/-! ## §2. The decoders compute it. -/

/-- A payload that is too short contributes nothing. -/
theorem decodeRecord_tooShort {tag : UInt8} {payload : List UInt8} (h : TooShort tag payload)
    (p : Profile) : decodeRecord tag payload p = p := by
  -- the batch tags declare nothing, so they are never too short
  have hbatch : ∀ t : UInt8, declaredLength t payload = 0 → tag ≠ t := by
    intro t ht heq
    subst heq
    unfold TooShort at h
    omega
  have h13 := hbatch 0x13 rfl
  have h21 := hbatch 0x21 rfl
  have h23 := hbatch 0x23 rfl
  have h32 := hbatch 0x32 rfl
  have h33 := hbatch 0x33 rfl
  simp [decodeRecord, h, h13, h21, h23, h32, h33]

theorem parseStringMeta_eq (payload : List UInt8) (p : Profile) :
    parseStringMeta payload p = some (decodeRecord 0x01 payload p) := by
  by_cases hshort : TooShort 0x01 payload
  · rw [decodeRecord_tooShort hshort]
    have hlen : payload.length < 3 + metaKeyLen payload + metaValLen payload := hshort
    unfold parseStringMeta
    cases payload with
    | nil => rfl
    | cons b rest =>
        have hkey : metaKeyLen (b :: rest) = b.toNat := rfl
        rw [hkey] at hlen
        simp only [List.isEmpty_cons, Bool.false_eq_true, if_false, List.getElem?_cons_zero,
          Option.bind_eq_bind, Option.bind_some]
        by_cases hk : (b :: rest).length < 1 + b.toNat + 2
        · rw [if_pos hk]
        · rw [if_neg hk, slice_eq_some b.toNat rfl (by omega),
              slice_eq_some 2 (by omega) (by omega)]
          simp only [Option.bind_some]
          rw [if_pos]
          exact hlen
  · have hlen : 3 + metaKeyLen payload + metaValLen payload ≤ payload.length :=
      Nat.le_of_not_lt hshort
    unfold parseStringMeta
    cases payload with
    | nil => exact absurd hlen (by simp)
    | cons b rest =>
        have hkey : metaKeyLen (b :: rest) = b.toNat := rfl
        have hval : metaValLen (b :: rest)
            = (u16OfLe (bytesAt (b :: rest) (1 + b.toNat) 2)).toNat := rfl
        rw [hkey, hval] at hlen
        simp only [List.isEmpty_cons, Bool.false_eq_true, if_false, List.getElem?_cons_zero,
          Option.bind_eq_bind, Option.bind_some]
        rw [if_neg (by omega), slice_eq_some b.toNat rfl (by omega),
            slice_eq_some 2 (by omega) (by omega)]
        simp only [Option.bind_some]
        rw [if_neg (by omega), slice_eq_some _ rfl (by omega)]
        simp [decodeRecord, hshort, hkey, hval]

theorem parseSymbolEntry_eq (payload : List UInt8) (p : Profile) :
    parseSymbolEntry payload p = some (decodeRecord 0x02 payload p) := by
  by_cases hshort : TooShort 0x02 payload
  · rw [decodeRecord_tooShort hshort]
    have hlen : payload.length < 12 + symbolNameLen payload := hshort
    unfold parseSymbolEntry
    by_cases h12 : payload.length < 12
    · rw [if_pos h12]
    · rw [if_neg h12, slice_eq_some 2 rfl (by omega), slice_eq_some 8 rfl (by omega),
          slice_eq_some 2 rfl (by omega)]
      simp only [Option.bind_eq_bind, Option.bind_some]
      rw [if_pos]
      exact hlen
  · have hlen : 12 + (u16OfLe (bytesAt payload 10 2)).toNat ≤ payload.length :=
      Nat.le_of_not_lt hshort
    unfold parseSymbolEntry
    rw [if_neg (by omega), slice_eq_some 2 rfl (by omega), slice_eq_some 8 rfl (by omega),
        slice_eq_some 2 rfl (by omega)]
    simp only [Option.bind_eq_bind, Option.bind_some]
    rw [if_neg (Nat.not_lt.mpr hlen), slice_eq_some _ rfl hlen]
    simp [decodeRecord, hshort, symbolFrom, symbolNameLen]

theorem parseTbResource_eq (payload : List UInt8) (p : Profile) :
    parseTbResource payload p = some (decodeRecord 0x40 payload p) := by
  unfold parseTbResource
  by_cases hshort : TooShort 0x40 payload
  · rw [decodeRecord_tooShort hshort]
    exact if_pos hshort
  · have hlen : 20 ≤ payload.length := Nat.le_of_not_lt hshort
    rw [if_neg (by omega), slice_eq_some 8 rfl (by omega), slice_eq_some 4 rfl (by omega),
        slice_eq_some 8 rfl (by omega)]
    simp [decodeRecord, hshort, tbResourceFrom]

theorem parseDiscontinuity_eq (payload : List UInt8) (p : Profile) :
    parseDiscontinuity payload p = some (decodeRecord 0x42 payload p) := by
  unfold parseDiscontinuity
  by_cases hshort : TooShort 0x42 payload
  · rw [decodeRecord_tooShort hshort]
    exact if_pos hshort
  · have hlen : 28 ≤ payload.length := Nat.le_of_not_lt hshort
    rw [if_neg (by omega), slice_eq_some 4 rfl (by omega), slice_eq_some 8 rfl (by omega),
        slice_eq_some 8 rfl (by omega), slice_eq_some 8 rfl (by omega)]
    simp [decodeRecord, hshort, disconFrom]

theorem parseFooter_eq (payload : List UInt8) (p : Profile) :
    parseFooter payload p = some (decodeRecord 0xFF payload p) := by
  unfold parseFooter
  by_cases hshort : TooShort 0xFF payload
  · rw [decodeRecord_tooShort hshort]
    exact if_pos hshort
  · have hlen : 40 ≤ payload.length := Nat.le_of_not_lt hshort
    rw [if_neg (by omega), slice_eq_some 8 rfl (by omega), slice_eq_some 8 rfl (by omega),
        slice_eq_some 8 rfl (by omega), slice_eq_some 8 rfl (by omega),
        slice_eq_some 4 rfl (by omega)]
    simp [decodeRecord, hshort, footerFrom]

/-- **The entry loop**, when its entry reader cannot fail inside the payload:
it decodes the count it is given, or as many entries as fit. -/
theorem batchEntries_eq {ε : Type} {size : Nat} (hsize : 0 < size)
    {entryAt : List UInt8 → Nat → Option ε} {entryFrom : List UInt8 → Nat → ε}
    {payload : List UInt8}
    (hentry : ∀ off, off + size ≤ payload.length →
      entryAt payload off = some (entryFrom payload off)) :
    ∀ n off, off ≤ payload.length →
      batchEntries size entryAt payload n off
        = some ((List.range (min n ((payload.length - off) / size))).map
            fun i => entryFrom payload (off + size * i)) := by
  intro n
  induction n with
  | zero =>
      intro off _
      rw [Nat.zero_min]
      rfl
  | succ n ih =>
      intro off hoff
      unfold batchEntries
      by_cases hfit : payload.length < off + size
      · -- the entry is cut: the loop stops
        have hzero : (payload.length - off) / size = 0 := Nat.div_eq_of_lt (by omega)
        rw [if_pos hfit, hzero, Nat.min_zero]
        rfl
      · have hone : (payload.length - off) / size
            = (payload.length - (off + size)) / size + 1 := by
          rw [← Nat.add_div_right _ hsize]
          congr 1
          omega
        rw [if_neg hfit, hentry off (by omega), ih (off + size) (by omega), hone,
            Nat.add_min_add_right, List.range_succ_eq_map, List.map_cons, List.map_map]
        simp only [Option.bind_eq_bind, Option.bind_some, Nat.mul_zero, Nat.add_zero]
        congr 2
        apply List.map_congr_left
        intro i _
        show entryFrom payload (off + size + size * i) = entryFrom payload (off + size * (i + 1))
        rw [Nat.mul_succ, Nat.add_comm (size * i) size, Nat.add_assoc]

theorem parseBatch_eq {ε : Type} {size : Nat} (hsize : 0 < size)
    {entryAt : List UInt8 → Nat → Option ε} {entryFrom : List UInt8 → Nat → ε}
    (payload : List UInt8)
    (hentry : ∀ off, off + size ≤ payload.length →
      entryAt payload off = some (entryFrom payload off)) :
    parseBatch size entryAt payload = some (entriesIn size entryFrom payload) := by
  unfold parseBatch entriesIn entryCount
  by_cases h4 : payload.length < 4
  · rw [if_pos h4, if_pos h4]
    rfl
  · rw [if_neg h4, if_neg h4, slice_eq_some 4 rfl (by omega)]
    exact batchEntries_eq hsize hentry _ 4 (by omega)

theorem tbExecAt_eq (payload : List UInt8) (off : Nat) (h : off + 40 ≤ payload.length) :
    tbExecAt payload off = some (tbExecFrom payload off) := by
  unfold tbExecAt
  rw [slice_eq_some 8 rfl (by omega), slice_eq_some 8 (by omega) (by omega),
      slice_eq_some 2 (by omega) (by omega), slice_eq_some 8 (by omega) (by omega),
      slice_eq_some 8 (by omega) (by omega)]
  rfl

theorem tripleAt_eq {ε : Type} (mk : UInt64 → UInt64 → UInt64 → ε) (payload : List UInt8)
    (off : Nat) (h : off + 24 ≤ payload.length) :
    tripleAt mk payload off = some (tripleFrom mk payload off) := by
  unfold tripleAt
  rw [slice_eq_some 8 rfl (by omega), slice_eq_some 8 (by omega) (by omega),
      slice_eq_some 8 (by omega) (by omega)]
  rfl

/-- A tag the dispatch does not handle contributes nothing. -/
theorem decodeRecord_unhandled {tag : UInt8} (payload : List UInt8) (p : Profile)
    (h : tag ∉ handledTags) : decodeRecord tag payload p = p := by
  simp only [handledTags, List.mem_cons, List.not_mem_nil, or_false, not_or] at h
  simp [decodeRecord, h]

/-- **Every decoder is total**: on every payload of every tag the dispatch
evaluates slices within bounds only, and computes `decodeRecord`. -/
theorem parseRecord_eq (tag : UInt8) (payload : List UInt8) (p : Profile) :
    parseRecord tag payload p = some (decodeRecord tag payload p) := by
  have htb := parseBatch_eq (by omega) payload (tbExecAt_eq payload)
  have hedge := parseBatch_eq (by omega) payload (tripleAt_eq EdgeRecord.mk payload)
  have hcall := parseBatch_eq (by omega) payload (tripleAt_eq CallRecord.mk payload)
  by_cases hmem : tag ∈ handledTags
  · simp only [handledTags, List.mem_cons, List.not_mem_nil, or_false] at hmem
    -- the ten tags of the dispatch
    obtain h | h | h | h | h | h | h | h | h | h := hmem
    · subst h
      exact parseStringMeta_eq payload p
    · subst h
      exact parseSymbolEntry_eq payload p
    · subst h
      show parseTbExecBatch payload p = _
      unfold parseTbExecBatch
      rw [htb]
      simp [decodeRecord]
    · subst h
      show parseBranchEdgeBatch payload p = _
      unfold parseBranchEdgeBatch parseEdgeBatch
      rw [hedge]
      simp [decodeRecord]
    · subst h
      show parseFallThroughBatch payload p = _
      unfold parseFallThroughBatch parseEdgeBatch
      rw [hedge]
      simp [decodeRecord]
    · subst h
      show parseDirectCallBatch payload p = _
      unfold parseDirectCallBatch parseCallBatch
      rw [hcall]
      simp [decodeRecord]
    · subst h
      show parseIndirectCallBatch payload p = _
      unfold parseIndirectCallBatch parseCallBatch
      rw [hcall]
      simp [decodeRecord]
    · subst h
      exact parseTbResource_eq payload p
    · subst h
      exact parseDiscontinuity_eq payload p
    · subst h
      exact parseFooter_eq payload p
  · rw [decodeRecord_unhandled payload p hmem]
    simp only [handledTags, List.mem_cons, List.not_mem_nil, or_false, not_or] at hmem
    simp [parseRecord, hmem]

/-! ## §3. The record loop. -/

/-- What a sequence of records leaves of a profile. -/
def decodeRecords (rs : List (UInt8 × List UInt8)) (p : Profile) : Profile :=
  rs.foldl (fun p r => decodeRecord r.1 r.2 p) p

@[simp] theorem decodeRecords_nil (p : Profile) : decodeRecords [] p = p := rfl

@[simp] theorem decodeRecords_cons (r : UInt8 × List UInt8) (rs : List (UInt8 × List UInt8))
    (p : Profile) : decodeRecords (r :: rs) p = decodeRecords rs (decodeRecord r.1 r.2 p) := rfl

theorem decodeRecords_append (rs ss : List (UInt8 × List UInt8)) (p : Profile) :
    decodeRecords (rs ++ ss) p = decodeRecords ss (decodeRecords rs p) :=
  List.foldl_append

theorem applyRecords_eq (rs : List (UInt8 × List UInt8)) :
    ∀ p, applyRecords rs p = some (decodeRecords rs p) := by
  induction rs with
  | nil => intro p; rfl
  | cons r rs ih =>
      intro p
      rw [applyRecords_cons, parseRecord_eq, Option.bind_some, ih]
      rfl

/-- **List fields**: a field that every record extends by its contribution is
extended by the concatenation. -/
theorem field_decodeRecords {α : Type} (field : Profile → List α)
    (contrib : UInt8 × List UInt8 → List α)
    (hstep : ∀ r p, field (decodeRecord r.1 r.2 p) = field p ++ contrib r)
    (rs : List (UInt8 × List UInt8)) :
    ∀ p, field (decodeRecords rs p) = field p ++ rs.flatMap contrib := by
  induction rs with
  | nil => intro p; simp
  | cons r rs ih =>
      intro p
      rw [decodeRecords_cons, ih, hstep, List.flatMap_cons, List.append_assoc]

/-! ## §4. The header. -/

/-- **The format's header**: 64 bytes that start with the magic number, with
format version 1 and a pointer size of 4 or 8. -/
structure ValidHeader (file : List UInt8) : Prop where
  long : 64 ≤ file.length
  magic : file.take 8 = u64Le Convert.fileMagic
  version : u16OfLe (bytesAt file 8 2) = 1
  pointerSize : file.getD 11 0 = 4 ∨ file.getD 11 0 = 8

/-- The header fields at their offsets. -/
def headerFrom (file : List UInt8) : Convert.FileHeader :=
  ⟨u16OfLe (bytesAt file 8 2), file.getD 10 0, file.getD 11 0, u32OfLe (bytesAt file 12 4),
    u64OfLe (bytesAt file 16 8), u64OfLe (bytesAt file 24 8), u64OfLe (bytesAt file 32 8),
    u64OfLe (bytesAt file 40 8), bytesAt file 48 16⟩

/-- The complete records of a file. -/
def recordsOf (file : List UInt8) : List (UInt8 × List UInt8) := frames 3 (file.drop 64)

/-- A read at offset `off` takes the field there. -/
theorem readVal_drop {α : Type} (file : List UInt8) (off n : Nat)
    (decode : List UInt8 → α) (h : off + n ≤ file.length) :
    readVal n decode (file.drop off) = some (decode (bytesAt file off n), file.drop (off + n)) := by
  unfold readVal readExact bytesAt
  rw [if_pos (by rw [List.length_drop]; omega), List.drop_drop]
  rfl

theorem getD_bytesAt_one (file : List UInt8) (off : Nat) :
    (bytesAt file off 1).getD 0 0 = file.getD off 0 := by
  simp [bytesAt, List.getD_eq_getElem?_getD, List.getElem?_drop]

/-- The header reads of a file that is long enough. -/
theorem parseHeader_long {file : List UInt8} (h : 64 ≤ file.length) :
    parseHeader file = (do
      rejectIf (u64OfLe (bytesAt file 0 8) ≠ Convert.fileMagic)
        ("bad magic: expected 0x" ++ hex16 Convert.fileMagic ++ ", got 0x"
          ++ hex16 (u64OfLe (bytesAt file 0 8)))
      rejectIf (u16OfLe (bytesAt file 8 2) ≠ 1)
        ("unsupported format version: " ++ toString (u16OfLe (bytesAt file 8 2))
          ++ " (expected 1)")
      rejectIf (file.getD 11 0 ≠ 4 ∧ file.getD 11 0 ≠ 8)
        ("invalid pointer_size: " ++ toString (file.getD 11 0) ++ " (expected 4 or 8)")
      return (headerFrom file, file.drop 64)) := by
  have hlast : readExact 16 (file.drop 48) = some (bytesAt file 48 16, file.drop 64) := by
    unfold readExact bytesAt
    rw [if_pos (by rw [List.length_drop]; omega), List.drop_drop]
  have h0 : readVal 8 u64OfLe file = some (u64OfLe (bytesAt file 0 8), file.drop 8) :=
    readVal_drop file 0 8 u64OfLe (by omega)
  have hbyte : ∀ off, off + 1 ≤ file.length → readVal 1 (fun buf => buf.getD 0 0) (file.drop off)
      = some (file.getD off 0, file.drop (off + 1)) := by
    intro off hoff
    rw [readVal_drop file off 1 _ hoff, getD_bytesAt_one]
  unfold parseHeader
  simp only [readU64Le, readU32Le, readU16Le, readU8, okOr, ok_bind, h0,
    readVal_drop file 8 2 u16OfLe (by omega), hbyte 10 (by omega),
    hbyte 11 (by omega), readVal_drop file 12 4 u32OfLe (by omega),
    readVal_drop file 16 8 u64OfLe (by omega),
    readVal_drop file 24 8 u64OfLe (by omega),
    readVal_drop file 32 8 u64OfLe (by omega),
    readVal_drop file 40 8 u64OfLe (by omega), hlast, Nat.reduceAdd]
  rfl

/-- **The header check accepts exactly the valid headers.** -/
theorem parseHeader_valid {file : List UInt8} (h : ValidHeader file) :
    parseHeader file = .ok (headerFrom file, file.drop 64) := by
  have hmagic : u64OfLe (bytesAt file 0 8) = Convert.fileMagic := by
    show u64OfLe (file.take 8) = _
    rw [h.magic, u64OfLe_u64Le]
  have hptr : ¬ (file.getD 11 0 ≠ 4 ∧ file.getD 11 0 ≠ 8) := by
    intro hne
    exact h.pointerSize.elim hne.1 hne.2
  rw [parseHeader_long h.long, rejectIf_ok (by rw [hmagic]; exact fun hne => hne rfl), ok_bind,
      rejectIf_ok (by rw [h.version]; exact fun hne => hne rfl), ok_bind, rejectIf_ok hptr, ok_bind]
  rfl

/-- A failed check reports its message, whatever follows. -/
theorem failed_check {β : Type} {bad : Prop} [Decidable bad] (h : bad) (text : String)
    (k : Unit → Except ParseError β) :
    ∃ t, (rejectIf bad text >>= k) = .error (.message t) := by
  unfold rejectIf
  rw [if_pos h]
  exact ⟨text, rfl⟩

theorem parseHeader_invalid {file : List UInt8} (h : ¬ ValidHeader file) :
    ∃ text, parseHeader file = .error (.message text) := by
  by_cases hlong : 64 ≤ file.length
  · rw [parseHeader_long hlong]
    by_cases hmagic : u64OfLe (bytesAt file 0 8) ≠ Convert.fileMagic
    · exact failed_check hmagic _ _
    · apply short_check
      by_cases hversion : u16OfLe (bytesAt file 8 2) ≠ 1
      · exact failed_check hversion _ _
      · apply short_check
        apply failed_check
        -- the other three conditions hold, so the pointer size is the bad one
        have hlen : (bytesAt file 0 8).length = 8 := by
          simp only [bytesAt, List.length_take, List.length_drop]
          omega
        have hstart := (u64OfLe_eq_iff hlen Convert.fileMagic).mp (not_not.mp hmagic)
        rw [← not_or]
        intro hptr
        exact h ⟨hlong, hstart, not_not.mp hversion, hptr⟩
  · exact parseHeader_short file (by omega)

/-! ## §5. The parser. -/

theorem parse_valid (ρb ρf : IterOrder) {file : List UInt8} (h : ValidHeader file) :
    parse ρb ρf file
      = .ok (merged ρb ρf (decodeRecords (recordsOf file) (Profile.ofHeader (headerFrom file)))) := by
  unfold parse
  rw [parseHeader_valid h, ok_bind]
  dsimp only
  rw [recordLoop_eq _ _ _ (Nat.lt_succ_self _), applyRecords_eq]
  rfl

theorem parse_invalid (ρb ρf : IterOrder) {file : List UInt8} (h : ¬ ValidHeader file) :
    ∃ text, parse ρb ρf file = .error (.message text) := by
  obtain ⟨text, htext⟩ := parseHeader_invalid h
  refine ⟨text, ?_⟩
  unfold parse
  rw [htext]
  rfl

/-- The parser fails with a message, if it fails. -/
theorem parse_ne_error (ρb ρf : IterOrder) (file : List UInt8) {e : ParseError}
    (he : ∀ text, e ≠ .message text) : parse ρb ρf file ≠ .error e := by
  intro hparse
  by_cases h : ValidHeader file
  · rw [parse_valid ρb ρf h] at hparse
    exact absurd hparse (by simp)
  · obtain ⟨text, htext⟩ := parse_invalid ρb ρf h
    rw [htext] at hparse
    exact he text (Except.error.inj hparse).symm

/-- The header decides by itself: what follows it does not matter. -/
theorem validHeader_append {hdr : List UInt8} (h64 : hdr.length = 64) (h : ValidHeader hdr)
    (rest : List UInt8) :
    ValidHeader (hdr ++ rest) ∧ headerFrom (hdr ++ rest) = headerFrom hdr
      ∧ recordsOf (hdr ++ rest) = frames 3 rest := by
  have hat : ∀ off n, off + n ≤ 64 → bytesAt (hdr ++ rest) off n = bytesAt hdr off n := by
    intro off n hle
    unfold bytesAt
    rw [List.drop_append_of_le_length (by omega),
        List.take_append_of_le_length (by rw [List.length_drop]; omega)]
  have hget : ∀ off, off < 64 → (hdr ++ rest).getD off 0 = hdr.getD off 0 := by
    intro off hlt
    rw [← getD_bytesAt_one, hat off 1 hlt, getD_bytesAt_one]
  refine ⟨⟨?_, ?_, ?_, ?_⟩, ?_, ?_⟩
  · rw [List.length_append]
    omega
  · rw [List.take_append_of_le_length (by omega)]
    exact h.magic
  · rw [hat 8 2 (by omega)]
    exact h.version
  · rw [hget 11 (by omega)]
    exact h.pointerSize
  · unfold headerFrom
    rw [hat 8 2 (by omega), hget 10 (by omega), hget 11 (by omega), hat 12 4 (by omega),
        hat 16 8 (by omega), hat 24 8 (by omega), hat 32 8 (by omega), hat 40 8 (by omega),
        hat 48 16 (by omega)]
  · unfold recordsOf
    rw [List.drop_left' h64]

/-- Parsing a header, whole records and any bytes after them. -/
theorem parse_log (ρb ρf : IterOrder) {hdr : List UInt8} (h64 : hdr.length = 64)
    (h : ValidHeader hdr) (fs : List (Frame 3)) (tail : List UInt8) :
    parse ρb ρf (hdr ++ (encodeAll fs ++ tail))
      = .ok (merged ρb ρf (decodeRecords (fs.map Frame.view ++ frames 3 tail)
          (Profile.ofHeader (headerFrom hdr)))) := by
  obtain ⟨hvalid, hheader, hrecords⟩ := validHeader_append h64 h (encodeAll fs ++ tail)
  rw [parse_valid ρb ρf hvalid, hheader, hrecords, frames_encodeAll_append]

/-- **Removing a record that contributes nothing**, at any record boundary,
leaves everything else as it was. -/
theorem parse_insert (ρb ρf : IterOrder) {hdr : List UInt8} (h64 : hdr.length = 64)
    (h : ValidHeader hdr) {f : Frame 3} (hf : ∀ p, decodeRecord f.tag f.payload p = p)
    (fs : List (Frame 3)) (tail : List UInt8) :
    parse ρb ρf (hdr ++ (encodeAll fs ++ (f.encode ++ tail)))
      = parse ρb ρf (hdr ++ (encodeAll fs ++ tail)) := by
  have hframe : encodeAll fs ++ (f.encode ++ tail) = encodeAll (fs ++ [f]) ++ tail := by
    simp
  have hview : f.view = (f.tag, f.payload) := rfl
  rw [hframe, parse_log ρb ρf h64 h, parse_log ρb ρf h64 h, List.map_append,
      decodeRecords_append, decodeRecords_append, decodeRecords_append, List.map_cons,
      List.map_nil, decodeRecords_cons, decodeRecords_nil, hview, hf]

/-- A batch record of this tag adds `entryCount` entries to `field`. -/
def AddsEntries {ε : Type} (tag : UInt8) (size : Nat) (field : Profile → List ε) : Prop :=
  ∀ payload p, ∃ q entries, parseRecord tag payload p = some q
    ∧ field q = field p ++ entries ∧ entries.length = entryCount size payload

theorem addsEntries_of_eq {ε : Type} {tag : UInt8} {size : Nat} {field : Profile → List ε}
    (entryFrom : List UInt8 → Nat → ε)
    (h : ∀ payload p, field (decodeRecord tag payload p)
      = field p ++ entriesIn size entryFrom payload) : AddsEntries tag size field := by
  intro payload p
  exact ⟨decodeRecord tag payload p, entriesIn size entryFrom payload, parseRecord_eq _ _ _,
    h payload p, length_entriesIn _ _ _⟩

/-- **THE PARSER ACCEPTS EXACTLY ITS FORMAT.**  On every byte string its loop
comes to an end within one turn more than there are bytes, it keeps every slice
within bounds, and it succeeds exactly on a valid header; a batch yields the
entries its count and its length allow, and a payload that is too short is as
if it were not there. -/
theorem parse_accepts (ρb ρf : IterOrder) (file : List UInt8) :
    (∀ fuel p, (file.drop 64).length < fuel →
        recordLoop fuel (file.drop 64) p = .ok (decodeRecords (recordsOf file) p))
      ∧ parse ρb ρf file ≠ .error .outOfFuel
      ∧ parse ρb ρf file ≠ .error .panicked
      ∧ ((∃ p, parse ρb ρf file = .ok p) ↔ ValidHeader file)
      ∧ (ValidHeader file → parse ρb ρf file
          = .ok (merged ρb ρf (decodeRecords (recordsOf file) (Profile.ofHeader (headerFrom file)))))
      ∧ AddsEntries 0x13 40 Profile.tbExecs
      ∧ AddsEntries 0x21 24 Profile.branchEdges
      ∧ AddsEntries 0x23 24 Profile.fallThroughEdges
      ∧ AddsEntries 0x32 24 Profile.directCalls
      ∧ AddsEntries 0x33 24 Profile.indirectCalls
      ∧ (∀ (hdr : List UInt8) (fs : List (Frame 3)) (f : Frame 3) (tail : List UInt8),
          hdr.length = 64 → ValidHeader hdr → TooShort f.tag f.payload →
          file = hdr ++ (encodeAll fs ++ (f.encode ++ tail)) →
          parse ρb ρf file = parse ρb ρf (hdr ++ (encodeAll fs ++ tail))) := by
  refine ⟨?_, parse_ne_error ρb ρf file (by simp), parse_ne_error ρb ρf file (by simp),
    ⟨?_, ?_⟩, parse_valid ρb ρf, addsEntries_of_eq tbExecFrom ?_,
    addsEntries_of_eq (tripleFrom EdgeRecord.mk) ?_, addsEntries_of_eq (tripleFrom EdgeRecord.mk) ?_,
    addsEntries_of_eq (tripleFrom CallRecord.mk) ?_, addsEntries_of_eq (tripleFrom CallRecord.mk) ?_,
    ?_⟩
  · intro fuel p hfuel
    rw [recordLoop_eq fuel _ p hfuel, applyRecords_eq]
    rfl
  · intro hok
    obtain ⟨p, hp⟩ := hok
    by_contra h
    obtain ⟨text, htext⟩ := parse_invalid ρb ρf h
    rw [htext] at hp
    exact absurd hp (by simp)
  · intro h
    exact ⟨_, parse_valid ρb ρf h⟩
  · intro payload p
    simp [decodeRecord]
  · intro payload p
    simp [decodeRecord]
  · intro payload p
    simp [decodeRecord]
  · intro payload p
    simp [decodeRecord]
  · intro payload p
    simp [decodeRecord]
  · intro hdr fs f tail h64 hvalid hshort hfile
    rw [hfile]
    exact parse_insert ρb ρf h64 hvalid (decodeRecord_tooShort hshort) fs tail

end QemuProfiler.Format

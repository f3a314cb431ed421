/-
  QemuProfiler.Convert.Native
  ───────────────────────────
  The parser of the native profile format (`convert/src/native.rs`): a
  64-byte header, then TLV records until the input ends, then the merge of
  duplicate edges.

  Conventions of the model:
    • the file is its content; a read past the end is `none`, as in
      `reader.read_exact(..).ok()`,
    • an out-of-bounds index or slice is a PANIC, kept apart from the `Err`
      values: the record decoders return `none` there and `parse` reports
      `.panicked`,
    • the record loop has fuel, and running out of it is a result of its own,
    • two adjacent index reads `[payload[i], payload[i + 1]]` are one slice,
    • `u64` sums wrap (release build),
    • the iteration order of the two merged maps is an argument.
-/
import QemuProfiler.Lib.Bytes
import QemuProfiler.Lib.Tally
import QemuProfiler.Lib.Utf8Lossy

namespace QemuProfiler.Convert

open QemuProfiler.Lib

/-! ## §1. Parsed data. -/

/-- Magic number: "QEMU_PGO" in ASCII. -/
def fileMagic : UInt64 := 0x4F47505F554D4551

/-- Parsed file header. -/
structure FileHeader where
  formatVersion : UInt16
  tier : UInt8
  pointerSize : UInt8
  flags : UInt32
  loadAddr : UInt64
  textStart : UInt64
  textEnd : UInt64
  entryAddr : UInt64
  buildId : List UInt8
  deriving DecidableEq, Repr

/-- TB execution data. -/
structure TbExec where
  startAddr : UInt64
  endAddr : UInt64
  nInsns : UInt16
  execCount : UInt64
  firstSeenSeq : UInt64
  deriving DecidableEq, Repr

/-- Edge record (branch or fall-through). -/
structure EdgeRecord where
  fromAddr : UInt64
  toAddr : UInt64
  count : UInt64
  deriving DecidableEq, Repr

/-- Call record (direct or indirect). -/
structure CallRecord where
  callsite : UInt64
  target : UInt64
  count : UInt64
  deriving DecidableEq, Repr

/-- Symbol entry. -/
structure SymbolRecord where
  symId : UInt16
  addr : UInt64
  name : String
  deriving DecidableEq, Repr

/-- TB resource annotation. -/
structure TbResourceRecord where
  tbAddr : UInt64
  coprocFlags : UInt32
  vcpuMask : UInt64
  deriving DecidableEq, Repr

/-- Discontinuity event. -/
structure DisconRecord where
  disconType : UInt32
  fromPc : UInt64
  toPc : UInt64
  count : UInt64
  deriving DecidableEq, Repr

/-- Footer statistics. -/
structure Footer where
  totalTbCount : UInt64
  totalEdgeRecords : UInt64
  totalExecCount : UInt64
  wallTimeNs : UInt64
  cleanExit : Bool
  deriving DecidableEq, Repr

/-- Complete parsed profile. -/
structure Profile where
  header : FileHeader
  metadata : HashMap String String
  symbols : List SymbolRecord
  tbExecs : List TbExec
  branchEdges : List EdgeRecord
  fallThroughEdges : List EdgeRecord
  directCalls : List CallRecord
  indirectCalls : List CallRecord
  tbResources : List TbResourceRecord
  disconEvents : List DisconRecord
  footer : Option Footer

/-- The profile of a file with nothing after its header. -/
def Profile.ofHeader (header : FileHeader) : Profile :=
  { header := header, metadata := ∅, symbols := [], tbExecs := [], branchEdges := []
    fallThroughEdges := [], directCalls := [], indirectCalls := [], tbResources := []
    disconEvents := [], footer := none }

/-! ## §2. Record decoders. -/

def parseStringMeta (payload : List UInt8) (profile : Profile) : Option Profile :=
  if payload.isEmpty then some profile
  else do
    let keyLen := (← payload[0]?).toNat
    if payload.length < 1 + keyLen + 2 then some profile
    else do
      let key := fromUtf8Lossy (← slice payload 1 (1 + keyLen))
      let valLen := (u16OfLe (← slice payload (1 + keyLen) (3 + keyLen))).toNat
      let valStart := 3 + keyLen
      if payload.length < valStart + valLen then some profile
      else do
        let val := fromUtf8Lossy (← slice payload valStart (valStart + valLen))
        some { profile with metadata := profile.metadata.insert key val }

def parseSymbolEntry (payload : List UInt8) (profile : Profile) : Option Profile :=
  if payload.length < 12 then some profile
  else do
    let symId := u16OfLe (← slice payload 0 2)
    let addr := u64OfLe (← slice payload 2 10)
    let nameLen := (u16OfLe (← slice payload 10 12)).toNat
    if payload.length < 12 + nameLen then some profile
    else do
      let name := fromUtf8Lossy (← slice payload 12 (12 + nameLen))
      some { profile with symbols := profile.symbols ++ [⟨symId, addr, name⟩] }

/-- The entry loop of a batch: at most `n` entries of `size` bytes from
offset `off` on, stopping at the first one that does not fit. -/
def batchEntries {ε : Type} (size : Nat) (entryAt : List UInt8 → Nat → Option ε)
    (payload : List UInt8) : Nat → Nat → Option (List ε)
  | 0, _ => some []
  | n + 1, off =>
      if payload.length < off + size then some []
      else do
        let entry ← entryAt payload off
        let rest ← batchEntries size entryAt payload n (off + size)
        some (entry :: rest)

/-- The shape the batch decoders share. -/
def parseBatch {ε : Type} (size : Nat) (entryAt : List UInt8 → Nat → Option ε)
    (payload : List UInt8) : Option (List ε) :=
  if payload.length < 4 then some []
  else do
    let count := (u32OfLe (← slice payload 0 4)).toNat
    batchEntries size entryAt payload count 4

def tbExecAt (payload : List UInt8) (off : Nat) : Option TbExec := do
  let startAddr := u64OfLe (← slice payload off (off + 8))
  let endAddr := u64OfLe (← slice payload (off + 8) (off + 16))
  let nInsns := u16OfLe (← slice payload (off + 16) (off + 18))
  -- skip 6 bytes of padding
  let execCount := u64OfLe (← slice payload (off + 24) (off + 32))
  let firstSeenSeq := u64OfLe (← slice payload (off + 32) (off + 40))
  some ⟨startAddr, endAddr, nInsns, execCount, firstSeenSeq⟩

def parseTbExecBatch (payload : List UInt8) (profile : Profile) : Option Profile := do
  let entries ← parseBatch 40 tbExecAt payload
  some { profile with tbExecs := profile.tbExecs ++ entries }

/-- Three consecutive `u64` fields, as an edge or a call. -/
def tripleAt {ε : Type} (mk : UInt64 → UInt64 → UInt64 → ε) (payload : List UInt8) (off : Nat) :
    Option ε := do
  let a := u64OfLe (← slice payload off (off + 8))
  let b := u64OfLe (← slice payload (off + 8) (off + 16))
  let cnt := u64OfLe (← slice payload (off + 16) (off + 24))
  some (mk a b cnt)

def parseEdgeBatch (payload : List UInt8) : Option (List EdgeRecord) :=
  parseBatch 24 (tripleAt EdgeRecord.mk) payload

def parseBranchEdgeBatch (payload : List UInt8) (profile : Profile) : Option Profile := do
  let edges ← parseEdgeBatch payload
  some { profile with branchEdges := profile.branchEdges ++ edges }

def parseFallThroughBatch (payload : List UInt8) (profile : Profile) : Option Profile := do
  let edges ← parseEdgeBatch payload
  some { profile with fallThroughEdges := profile.fallThroughEdges ++ edges }

def parseCallBatch (payload : List UInt8) : Option (List CallRecord) :=
  parseBatch 24 (tripleAt CallRecord.mk) payload

def parseDirectCallBatch (payload : List UInt8) (profile : Profile) : Option Profile := do
  let calls ← parseCallBatch payload
  some { profile with directCalls := profile.directCalls ++ calls }

def parseIndirectCallBatch (payload : List UInt8) (profile : Profile) : Option Profile := do
  let calls ← parseCallBatch payload
  some { profile with indirectCalls := profile.indirectCalls ++ calls }

def parseTbResource (payload : List UInt8) (profile : Profile) : Option Profile :=
  if payload.length < 20 then some profile
  else do
    let tbAddr := u64OfLe (← slice payload 0 8)
    let coprocFlags := u32OfLe (← slice payload 8 12)
    let vcpuMask := u64OfLe (← slice payload 12 20)
    some { profile with tbResources := profile.tbResources ++ [⟨tbAddr, coprocFlags, vcpuMask⟩] }

def parseDiscontinuity (payload : List UInt8) (profile : Profile) : Option Profile :=
  if payload.length < 28 then some profile
  else do
    let disconType := u32OfLe (← slice payload 0 4)
    let fromPc := u64OfLe (← slice payload 4 12)
    let toPc := u64OfLe (← slice payload 12 20)
    let count := u64OfLe (← slice payload 20 28)
    some { profile with
      disconEvents := profile.disconEvents ++ [⟨disconType, fromPc, toPc, count⟩] }

def parseFooter (payload : List UInt8) (profile : Profile) : Option Profile :=
  if payload.length < 40 then some profile
  else do
    let totalTbCount := u64OfLe (← slice payload 0 8)
    let totalEdgeRecords := u64OfLe (← slice payload 8 16)
    let totalExecCount := u64OfLe (← slice payload 16 24)
    let wallTimeNs := u64OfLe (← slice payload 24 32)
    let flags := u32OfLe (← slice payload 32 36)
    some { profile with
      footer := some ⟨totalTbCount, totalEdgeRecords, totalExecCount, wallTimeNs,
        flags &&& 0x1 != 0⟩ }

/-- The tag dispatch of the record loop; unknown tags are skipped. -/
def parseRecord (tag : UInt8) (payload : List UInt8) (profile : Profile) : Option Profile :=
  if tag = 0x01 then parseStringMeta payload profile
  else if tag = 0x02 then parseSymbolEntry payload profile
  else if tag = 0x13 then parseTbExecBatch payload profile
  else if tag = 0x21 then parseBranchEdgeBatch payload profile
  else if tag = 0x23 then parseFallThroughBatch payload profile
  else if tag = 0x32 then parseDirectCallBatch payload profile
  else if tag = 0x33 then parseIndirectCallBatch payload profile
  else if tag = 0x40 then parseTbResource payload profile
  else if tag = 0x42 then parseDiscontinuity payload profile
  else if tag = 0xFF then parseFooter payload profile
  else some profile

/-! ## §3. Reading from the file. -/

/-- Read exactly `n` bytes: the bytes and the rest of the file. -/
def readExact (n : Nat) (reader : List UInt8) : Option (List UInt8 × List UInt8) :=
  if n ≤ reader.length then some (reader.take n, reader.drop n) else none

/-- Read one value of `n` bytes. -/
def readVal {α : Type} (n : Nat) (decode : List UInt8 → α) (reader : List UInt8) :
    Option (α × List UInt8) :=
  (readExact n reader).map fun (buf, rest) => (decode buf, rest)

def readU8 : List UInt8 → Option (UInt8 × List UInt8) := readVal 1 (fun buf => buf.getD 0 0)

def readU16Le : List UInt8 → Option (UInt16 × List UInt8) := readVal 2 u16OfLe

def readU32Le : List UInt8 → Option (UInt32 × List UInt8) := readVal 4 u32OfLe

def readU64Le : List UInt8 → Option (UInt64 × List UInt8) := readVal 8 u64OfLe

/-- How parsing can fail. -/
inductive ParseError where
  /-- `Err` with its text. -/
  | message (text : String)
  /-- An index or a slice left its bounds. -/
  | panicked
  /-- The record loop took more turns than it was given. -/
  | outOfFuel
  deriving DecidableEq, Repr

/-- A decoder that left its bounds stops the program. -/
def orPanic {α : Type} (o : Option α) : Except ParseError α :=
  match o with
  | some a => .ok a
  | none => .error .panicked

/-- Read TLV records until the input ends or a record is cut short.  Running
out of fuel is a result of its own; every record takes at least four bytes, so
one turn more than the input has bytes never runs out. -/
def recordLoop : Nat → List UInt8 → Profile → Except ParseError Profile
  | 0, _, _ => .error .outOfFuel
  | fuel + 1, reader, profile =>
      match readU8 reader with
      | none => .ok profile
      | some (tag, reader) =>
          match readExact 3 reader with
          | none => .ok profile -- truncated
          | some (lenBytes, reader) =>
              let payloadLen := (u32OfLe (lenBytes ++ [0])).toNat
              match readExact payloadLen reader with
              | none => .ok profile -- truncated record
              | some (payload, reader) => do
                  let profile ← orPanic (parseRecord tag payload profile)
                  recordLoop fuel reader profile

/-! ## §4. Merging edges. -/

/-- The key an edge is merged under. -/
def EdgeRecord.key (e : EdgeRecord) : UInt64 × UInt64 := (e.fromAddr, e.toAddr)

/-- The counted key of an edge. -/
def EdgeRecord.counted (e : EdgeRecord) : (UInt64 × UInt64) × UInt64 := (e.key, e.count)

/-- Merge duplicate edges by summing their counts. -/
def mergeEdges (ρ : IterOrder) (edges : List EdgeRecord) : List EdgeRecord :=
  if edges.length ≤ 1 then edges
  else
    let merged := HashMap.tally (edges.map EdgeRecord.counted)
    if merged.len = edges.length then edges -- no duplicates
    else (merged.iter ρ).map fun ((src, dst), count) => ⟨src, dst, count⟩

/-- Get all edges (branch + fall-through), merging duplicates. -/
def Profile.mergedEdges (p : Profile) : HashMap (UInt64 × UInt64) UInt64 :=
  let merged := p.branchEdges.foldl (fun m e => m.bump (e.fromAddr, e.toAddr) e.count) ∅
  p.fallThroughEdges.foldl (fun m e => m.bump (e.fromAddr, e.toAddr) e.count) merged

/-! ## §5. The parser. -/

/-- `option.ok_or(text)?`. -/
def okOr {α : Type} (o : Option α) (text : String) : Except ParseError α :=
  match o with
  | some a => .ok a
  | none => .error (.message text)

/-- `if bad { return Err(text); }`. -/
def rejectIf (bad : Prop) [Decidable bad] (text : String) : Except ParseError Unit :=
  if bad then .error (.message text) else .ok ()

/-- The `{:016X}` rendering. -/
def hex16 (n : UInt64) : String :=
  let digits := (Nat.toDigits 16 n.toNat).map Char.toUpper
  String.ofList (List.replicate (16 - digits.length) '0' ++ digits)

/-- Read and check the file header (64 bytes). -/
def parseHeader (reader : List UInt8) : Except ParseError (FileHeader × List UInt8) := do
  let (magic, reader) ← okOr (readU64Le reader) "truncated header: magic"
  rejectIf (magic ≠ fileMagic)
    ("bad magic: expected 0x" ++ hex16 fileMagic ++ ", got 0x" ++ hex16 magic)
  let (formatVersion, reader) ← okOr (readU16Le reader) "truncated header: version"
  rejectIf (formatVersion ≠ 1)
    ("unsupported format version: " ++ toString formatVersion ++ " (expected 1)")
  let (tier, reader) ← okOr (readU8 reader) "truncated header: tier"
  let (pointerSize, reader) ← okOr (readU8 reader) "truncated header: ptr_size"
  rejectIf (pointerSize ≠ 4 ∧ pointerSize ≠ 8)
    ("invalid pointer_size: " ++ toString pointerSize ++ " (expected 4 or 8)")
  let (flags, reader) ← okOr (readU32Le reader) "truncated header: flags"
  let (loadAddr, reader) ← okOr (readU64Le reader) "truncated header: load_addr"
  let (textStart, reader) ← okOr (readU64Le reader) "truncated header: text_start"
  let (textEnd, reader) ← okOr (readU64Le reader) "truncated header: text_end"
  let (entryAddr, reader) ← okOr (readU64Le reader) "truncated header: entry"
  let (buildId, reader) ← okOr (readExact 16 reader) "truncated header: build_id"
  return (⟨formatVersion, tier, pointerSize, flags, loadAddr, textStart, textEnd, entryAddr,
    buildId⟩, reader)

/-- Parse the native profile format from the content of a file; `ρb` and
`ρf` are the iteration orders of the two edge maps. -/
def parse (ρb ρf : IterOrder) (file : List UInt8) : Except ParseError Profile := do
  let (header, reader) ← parseHeader file
  let profile ← recordLoop (reader.length + 1) reader (Profile.ofHeader header)
  return { profile with
    branchEdges := mergeEdges ρb profile.branchEdges
    fallThroughEdges := mergeEdges ρf profile.fallThroughEdges }

end QemuProfiler.Convert

/-
  QemuProfiler.Plugin.Output
  ──────────────────────────
  The append-only log writer (`plugin/src/output.rs`), as a state monad over
  the bytes handed to the buffered file.

  Conventions of the model:
    • a write never fails (the disk is not modelled); the only errors are the
      ones the writer raises itself,
    • the `u32` LENGTH computations are checked: an overflow is an error of
      its own, so that its absence is a statement about the code; the `u64`
      statistics wrap, as in a release build,
    • the header is written from a packed struct, on a little-endian host,
    • `start_time.elapsed()` is an argument of the two calls that read it.
-/
import QemuProfiler.Lib.Bytes
import QemuProfiler.Lib.Utf8Lossy

namespace QemuProfiler.Plugin

open QemuProfiler.Lib

/-! ## §1. Constants, tags, header. -/

/-- Magic number: "QEMU_PGO" in ASCII. -/
def fileMagic : UInt64 := 0x4F47505F554D4551

/-- Current format version. -/
def formatVersion : UInt16 := 1

def flagSysemu : UInt32 := 0x1

def flagStreaming : UInt32 := 0x2

/-- Record tags of the log. -/
inductive RecordTag where
  | stringMeta
  | symbolEntry
  | tbExecBatch
  | firstSeenOrder
  | branchEdgeBatch
  | fallThroughBatch
  | flushMarker
  | directCallBatch
  | indirectCallBatch
  | tbResource
  | deviceAccess
  | discontinuity
  | footer
  deriving DecidableEq, Repr

/-- `tag as u8`. -/
def RecordTag.toU8 : RecordTag → UInt8
  | .stringMeta => 0x01
  | .symbolEntry => 0x02
  | .tbExecBatch => 0x13
  | .firstSeenOrder => 0x14
  | .branchEdgeBatch => 0x21
  | .fallThroughBatch => 0x23
  | .flushMarker => 0x2F
  | .directCallBatch => 0x32
  | .indirectCallBatch => 0x33
  | .tbResource => 0x40
  | .deviceAccess => 0x41
  | .discontinuity => 0x42
  | .footer => 0xFF

/-- Fixed 64-byte file header (`repr(C, packed)`). -/
structure FileHeader where
  magic : UInt64
  formatVersion : UInt16
  tier : UInt8
  pointerSize : UInt8
  flags : UInt32
  loadAddr : UInt64
  textStart : UInt64
  textEnd : UInt64
  entryAddr : UInt64
  buildId : List UInt8

/-- The raw bytes of the packed struct. -/
def FileHeader.toBytes (h : FileHeader) : List UInt8 :=
  u64Le h.magic ++ (u16Le h.formatVersion ++ ([h.tier] ++ ([h.pointerSize]
    ++ (u32Le h.flags ++ (u64Le h.loadAddr ++ (u64Le h.textStart
    ++ (u64Le h.textEnd ++ (u64Le h.entryAddr ++ h.buildId))))))))

/-! ## §2. The writer state and its monad. -/

/-- Writer for the native PGO profile format. -/
structure ProfileWriter where
  /-- Everything written so far. -/
  writer : List UInt8
  totalTbCount : UInt64
  totalEdgeRecords : UInt64
  totalExecCount : UInt64
  deriving DecidableEq, Repr

/-- What a call of the writer can fail with. -/
inductive WriteError where
  /-- `ErrorKind::InvalidInput` with its message. -/
  | invalidInput (message : String)
  /-- A `u32` length computation left its range. -/
  | arithmeticOverflow
  deriving DecidableEq, Repr

/-- A fallible call on `&mut self`: the state survives an error. -/
abbrev WriterM := EStateM WriteError ProfileWriter

/-- `self.writer.write_all(bytes)`. -/
def writeAll (bytes : List UInt8) : WriterM Unit :=
  modify fun w => { w with writer := w.writer ++ bytes }

/-- A `u32` length computation with value `n`. -/
def checkedU32 (n : Nat) : WriterM UInt32 :=
  if n < 2 ^ 32 then pure (UInt32.ofNat n) else throw .arithmeticOverflow

/-- Create a new profile writer and write the file header. -/
def ProfileWriter.new (tier : UInt8) (sysemu streaming : Bool)
    (loadAddr textStart textEnd entryAddr : UInt64) : ProfileWriter :=
  let flags : UInt32 := 0
  let flags := if sysemu then flags ||| flagSysemu else flags
  let flags := if streaming then flags ||| flagStreaming else flags
  let header : FileHeader :=
    { magic := fileMagic
      formatVersion := formatVersion
      tier := tier
      pointerSize := 8
      flags := flags
      loadAddr := loadAddr
      textStart := textStart
      textEnd := textEnd
      entryAddr := entryAddr
      buildId := List.replicate 16 0 }
  { writer := header.toBytes, totalTbCount := 0, totalEdgeRecords := 0, totalExecCount := 0 }

/-! ## §3. The `write_*` calls. -/

/-- Maximum payload length for a single TLV record (24-bit field). -/
def maxTlvPayload : UInt32 := ((1 : UInt32) <<< 24) - 1

/-- Write a TLV record header: `[tag: u8][len: u24 LE]`. -/
def writeTlvHeader (tag : RecordTag) (payloadLen : UInt32) : WriterM Unit :=
  if payloadLen > maxTlvPayload then
    throw (.invalidInput ("TLV payload " ++ toString payloadLen ++ " exceeds 24-bit max "
      ++ toString maxTlvPayload))
  else
    writeAll (tag.toU8 :: (u32Le payloadLen).take 3)

/-- Write a string metadata record (key-value pair). -/
def writeStringMeta (key value : String) : WriterM Unit := do
  let keyBytes := asBytes key
  let valBytes := asBytes value
  let keyLen := UInt8.ofNat (min keyBytes.length 255)
  let valLen := UInt16.ofNat (min valBytes.length 65535)
  let payloadLen ← checkedU32 (1 + keyLen.toNat + 2 + valLen.toNat)
  writeTlvHeader .stringMeta payloadLen
  writeAll [keyLen]
  writeAll (keyBytes.take keyLen.toNat)
  writeAll (u16Le valLen)
  writeAll (valBytes.take valLen.toNat)

/-- Write a symbol entry record. -/
def writeSymbolEntry (symId : UInt16) (addr : UInt64) (name : String) : WriterM Unit := do
  let nameBytes := asBytes name
  let nameLen := UInt16.ofNat (min nameBytes.length 65535)
  let payloadLen ← checkedU32 (2 + 8 + 2 + nameLen.toNat)
  writeTlvHeader .symbolEntry payloadLen
  writeAll (u16Le symId)
  writeAll (u64Le addr)
  writeAll (u16Le nameLen)
  writeAll (nameBytes.take nameLen.toNat)

/-- One TB entry of a batch:
`(start_addr, end_addr, n_insns, exec_count, first_seen)`. -/
abbrev TbEntry := UInt64 × UInt64 × UInt16 × UInt64 × UInt64

/-- One edge or call entry of a batch: `(from, to, count)`. -/
abbrev Triple := UInt64 × UInt64 × UInt64

/-- Maximum entries per TLV record for TB exec batches (40 bytes each). -/
def maxTbExecPerRecord : Nat := ((1 <<< 24) - 1 - 4) / 40

/-- The body of the entry loop of a TB batch. -/
def writeTbEntry : TbEntry → WriterM Unit
  | (startAddr, endAddr, nInsns, execCount, firstSeen) => do
      writeAll (u64Le startAddr)
      writeAll (u64Le endAddr)
      writeAll (u16Le nInsns)
      writeAll (List.replicate 6 0) -- padding
      writeAll (u64Le execCount)
      writeAll (u64Le firstSeen)
      modify fun w => { w with totalExecCount := w.totalExecCount + execCount }

/-- Write a batch of TB execution counts, splitting into multiple TLV records
to stay within the 24-bit length limit. -/
def writeTbExecBatch (entries : List TbEntry) : WriterM Unit :=
  (chunks maxTbExecPerRecord entries).forM fun chunk => do
    let count := UInt32.ofNat chunk.length
    let payloadLen ← checkedU32 (4 + count.toNat * 40)
    writeTlvHeader .tbExecBatch payloadLen
    writeAll (u32Le count)
    chunk.forM writeTbEntry
    modify fun w => { w with totalTbCount := w.totalTbCount + count.toUInt64 }

/-- Maximum entries per TLV record for edge batches (24 bytes each). -/
def maxEdgesPerRecord : Nat := ((1 <<< 24) - 1 - 4) / 24

/-- The body of the entry loop of a 24-byte batch. -/
def writeTriple : Triple → WriterM Unit
  | (a, b, cnt) => do
      writeAll (u64Le a)
      writeAll (u64Le b)
      writeAll (u64Le cnt)

/-- The shape the four 24-byte batches share; `afterChunk` is what a member
does with the entry count once a record is written. -/
def writeTripleBatch (tag : RecordTag) (afterChunk : UInt32 → WriterM Unit)
    (entries : List Triple) : WriterM Unit :=
  (chunks maxEdgesPerRecord entries).forM fun chunk => do
    let count := UInt32.ofNat chunk.length
    let payloadLen ← checkedU32 (4 + count.toNat * 24)
    writeTlvHeader tag payloadLen
    writeAll (u32Le count)
    chunk.forM writeTriple
    afterChunk count

/-- `self.total_edge_records += count as u64`. -/
def countEdgeRecords (count : UInt32) : WriterM Unit :=
  modify fun w => { w with totalEdgeRecords := w.totalEdgeRecords + count.toUInt64 }

/-- Write a batch of branch edges. -/
def writeBranchEdgeBatch (edges : List Triple) : WriterM Unit :=
  writeTripleBatch .branchEdgeBatch countEdgeRecords edges

/-- Write a batch of fall-through edges. -/
def writeFallThroughBatch (edges : List Triple) : WriterM Unit :=
  writeTripleBatch .fallThroughBatch countEdgeRecords edges

/-- Write a batch of direct call records. -/
def writeDirectCallBatch (calls : List Triple) : WriterM Unit :=
  writeTripleBatch .directCallBatch (fun _ => pure ()) calls

/-- Write a batch of indirect call records. -/
def writeIndirectCallBatch (calls : List Triple) : WriterM Unit :=
  writeTripleBatch .indirectCallBatch (fun _ => pure ()) calls

/-- Write a streaming flush marker. -/
def writeFlushMarker (elapsed : UInt64) (vcpuIndex numEdges : UInt32) : WriterM Unit := do
  let payloadLen ← checkedU32 (8 + 4 + 4)
  writeTlvHeader .flushMarker payloadLen
  writeAll (u64Le elapsed)
  writeAll (u32Le vcpuIndex)
  writeAll (u32Le numEdges)

/-- Write a TB resource annotation (tier 3). -/
def writeTbResource (tbAddr : UInt64) (coprocFlags : UInt32) (vcpuMask : UInt64) :
    WriterM Unit := do
  writeTlvHeader .tbResource 20
  writeAll (u64Le tbAddr)
  writeAll (u32Le coprocFlags)
  writeAll (u64Le vcpuMask)

/-- Write a device access record (tier 3). -/
def writeDeviceAccess (tbAddr : UInt64) (deviceName : String) : WriterM Unit := do
  let nameBytes := asBytes deviceName
  let nameLen := UInt8.ofNat (min nameBytes.length 255)
  let payloadLen ← checkedU32 (8 + 1 + nameLen.toNat)
  writeTlvHeader .deviceAccess payloadLen
  writeAll (u64Le tbAddr)
  writeAll [nameLen]
  writeAll (nameBytes.take nameLen.toNat)

/-- Write a discontinuity event record (tier 3). -/
def writeDiscontinuity (disconType : UInt32) (fromPc toPc count : UInt64) : WriterM Unit := do
  writeTlvHeader .discontinuity 28
  writeAll (u32Le disconType)
  writeAll (u64Le fromPc)
  writeAll (u64Le toPc)
  writeAll (u64Le count)

/-- Write the footer and flush. -/
def writeFooter (wallTimeNs : UInt64) : WriterM Unit := do
  writeTlvHeader .footer 40
  let w ← get
  writeAll (u64Le w.totalTbCount)
  writeAll (u64Le w.totalEdgeRecords)
  writeAll (u64Le w.totalExecCount)
  writeAll (u64Le wallTimeNs)
  writeAll (u32Le 0x1) -- clean exit
  writeAll (List.replicate 4 0) -- reserved

/-! ## §4. Sequences of calls. -/

/-- One call on an open writer; the clock readings are part of the call. -/
inductive WriteCall where
  | stringMeta (key value : String)
  | symbolEntry (symId : UInt16) (addr : UInt64) (name : String)
  | tbExecBatch (entries : List TbEntry)
  | branchEdgeBatch (edges : List Triple)
  | fallThroughBatch (edges : List Triple)
  | flushMarker (elapsed : UInt64) (vcpuIndex numEdges : UInt32)
  | directCallBatch (calls : List Triple)
  | indirectCallBatch (calls : List Triple)
  | tbResource (tbAddr : UInt64) (coprocFlags : UInt32) (vcpuMask : UInt64)
  | deviceAccess (tbAddr : UInt64) (deviceName : String)
  | discontinuity (disconType : UInt32) (fromPc toPc count : UInt64)
  | footer (wallTimeNs : UInt64)

/-- The writer method a call names. -/
def WriteCall.run : WriteCall → WriterM Unit
  | .stringMeta key value => writeStringMeta key value
  | .symbolEntry symId addr name => writeSymbolEntry symId addr name
  | .tbExecBatch entries => writeTbExecBatch entries
  | .branchEdgeBatch edges => writeBranchEdgeBatch edges
  | .fallThroughBatch edges => writeFallThroughBatch edges
  | .flushMarker elapsed vcpuIndex numEdges => writeFlushMarker elapsed vcpuIndex numEdges
  | .directCallBatch calls => writeDirectCallBatch calls
  | .indirectCallBatch calls => writeIndirectCallBatch calls
  | .tbResource tbAddr coprocFlags vcpuMask => writeTbResource tbAddr coprocFlags vcpuMask
  | .deviceAccess tbAddr deviceName => writeDeviceAccess tbAddr deviceName
  | .discontinuity disconType fromPc toPc count => writeDiscontinuity disconType fromPc toPc count
  | .footer wallTimeNs => writeFooter wallTimeNs

/-- A sequence of calls, stopping at the first error. -/
def runCalls (calls : List WriteCall) : WriterM Unit := calls.forM WriteCall.run

end QemuProfiler.Plugin

/-
  QemuProfiler.Plugin.OutputSpec
  ──────────────────────────────
  **EVERY CALL OF THE WRITER APPENDS WHOLE RECORDS.**

  `WriteCall.frames` lists the TLV records a call produces from a given
  writer state, `WriteCall.next` is the state after it.  `run_eq` says the
  two describe the code for EVERY call and every state: no 24-bit length
  error, no `u32` overflow, however long a batch or a name is.  `runCalls_eq`
  is the same for sequences.

  Everything later (round trip, crash tolerance, streaming) is about
  `callsFrames` and never opens the writer again.
-/
import QemuProfiler.Lib.Tlv
import QemuProfiler.Plugin.Output

namespace QemuProfiler.Plugin

open QemuProfiler.Lib

/-- A record of the log: 24-bit length. -/
abbrev Rec := Frame 3

/-- The record with the given tag and payload. -/
def mkRec (tag : RecordTag) (payload : List UInt8) : Rec := Frame.clip tag.toU8 payload

/-! ## §1. Payloads. -/

def stringMetaPayload (key value : String) : List UInt8 :=
  let keyLen := min (asBytes key).length 255
  let valLen := min (asBytes value).length 65535
  [UInt8.ofNat keyLen] ++ ((asBytes key).take keyLen
    ++ (u16Le (UInt16.ofNat valLen) ++ (asBytes value).take valLen))

def symbolEntryPayload (symId : UInt16) (addr : UInt64) (name : String) : List UInt8 :=
  let nameLen := min (asBytes name).length 65535
  u16Le symId ++ (u64Le addr ++ (u16Le (UInt16.ofNat nameLen) ++ (asBytes name).take nameLen))

/-- The 40 bytes of one TB entry. -/
def tbEntryBytes (e : TbEntry) : List UInt8 :=
  u64Le e.1 ++ (u64Le e.2.1 ++ (u16Le e.2.2.1 ++ (List.replicate 6 0
    ++ (u64Le e.2.2.2.1 ++ u64Le e.2.2.2.2))))

/-- The 24 bytes of one edge or call entry. -/
def tripleBytes (e : Triple) : List UInt8 := u64Le e.1 ++ (u64Le e.2.1 ++ u64Le e.2.2)

/-- A counted batch of fixed-width entries. -/
def batchPayload {ε : Type} (entryBytes : ε → List UInt8) (chunk : List ε) : List UInt8 :=
  u32Le (UInt32.ofNat chunk.length) ++ chunk.flatMap entryBytes

def flushMarkerPayload (elapsed : UInt64) (vcpuIndex numEdges : UInt32) : List UInt8 :=
  u64Le elapsed ++ (u32Le vcpuIndex ++ u32Le numEdges)

def tbResourcePayload (tbAddr : UInt64) (coprocFlags : UInt32) (vcpuMask : UInt64) :
    List UInt8 :=
  u64Le tbAddr ++ (u32Le coprocFlags ++ u64Le vcpuMask)

def deviceAccessPayload (tbAddr : UInt64) (deviceName : String) : List UInt8 :=
  let nameLen := min (asBytes deviceName).length 255
  u64Le tbAddr ++ ([UInt8.ofNat nameLen] ++ (asBytes deviceName).take nameLen)

def discontinuityPayload (disconType : UInt32) (fromPc toPc count : UInt64) : List UInt8 :=
  u32Le disconType ++ (u64Le fromPc ++ (u64Le toPc ++ u64Le count))

def footerPayload (w : ProfileWriter) (wallTimeNs : UInt64) : List UInt8 :=
  u64Le w.totalTbCount ++ (u64Le w.totalEdgeRecords ++ (u64Le w.totalExecCount
    ++ (u64Le wallTimeNs ++ (u32Le 0x1 ++ List.replicate 4 0))))

@[simp] theorem length_tbEntryBytes (e : TbEntry) : (tbEntryBytes e).length = 40 := by
  simp [tbEntryBytes]

@[simp] theorem length_tripleBytes (e : Triple) : (tripleBytes e).length = 24 := by
  simp [tripleBytes]

theorem length_flatMap_const {ε : Type} (f : ε → List UInt8) (n : Nat)
    (hf : ∀ e, (f e).length = n) (l : List ε) : (l.flatMap f).length = l.length * n := by
  induction l with
  | nil => simp
  | cons e l ih =>
      rw [List.flatMap_cons, List.length_append, ih, hf, List.length_cons, Nat.succ_mul]
      omega

theorem length_batchPayload {ε : Type} (f : ε → List UInt8) (n : Nat)
    (hf : ∀ e, (f e).length = n) (chunk : List ε) :
    (batchPayload f chunk).length = 4 + chunk.length * n := by
  unfold batchPayload
  rw [List.length_append, length_u32Le, length_flatMap_const f n hf]

/-! ## §2. The records of a call and the state after it. -/

/-- The records a call appends when the writer is in state `w`. -/
def WriteCall.frames (w : ProfileWriter) : WriteCall → List Rec
  | .stringMeta key value => [mkRec .stringMeta (stringMetaPayload key value)]
  | .symbolEntry symId addr name => [mkRec .symbolEntry (symbolEntryPayload symId addr name)]
  | .tbExecBatch entries =>
      (chunks maxTbExecPerRecord entries).map
        (fun chunk => mkRec .tbExecBatch (batchPayload tbEntryBytes chunk))
  | .branchEdgeBatch edges =>
      (chunks maxEdgesPerRecord edges).map
        (fun chunk => mkRec .branchEdgeBatch (batchPayload tripleBytes chunk))
  | .fallThroughBatch edges =>
      (chunks maxEdgesPerRecord edges).map
        (fun chunk => mkRec .fallThroughBatch (batchPayload tripleBytes chunk))
  | .flushMarker elapsed vcpuIndex numEdges =>
      [mkRec .flushMarker (flushMarkerPayload elapsed vcpuIndex numEdges)]
  | .directCallBatch calls =>
      (chunks maxEdgesPerRecord calls).map
        (fun chunk => mkRec .directCallBatch (batchPayload tripleBytes chunk))
  | .indirectCallBatch calls =>
      (chunks maxEdgesPerRecord calls).map
        (fun chunk => mkRec .indirectCallBatch (batchPayload tripleBytes chunk))
  | .tbResource tbAddr coprocFlags vcpuMask =>
      [mkRec .tbResource (tbResourcePayload tbAddr coprocFlags vcpuMask)]
  | .deviceAccess tbAddr deviceName =>
      [mkRec .deviceAccess (deviceAccessPayload tbAddr deviceName)]
  | .discontinuity disconType fromPc toPc count =>
      [mkRec .discontinuity (discontinuityPayload disconType fromPc toPc count)]
  | .footer wallTimeNs => [mkRec .footer (footerPayload w wallTimeNs)]

/-- TB entries a call writes. -/
def WriteCall.tbEntries : WriteCall → List TbEntry
  | .tbExecBatch entries => entries
  | _ => []

/-- Edge entries (of either kind) a call writes. -/
def WriteCall.edgeEntries : WriteCall → List Triple
  | .branchEdgeBatch edges => edges
  | .fallThroughBatch edges => edges
  | _ => []

/-- The writer after a call. -/
def WriteCall.next (w : ProfileWriter) (c : WriteCall) : ProfileWriter :=
  { writer := w.writer ++ encodeAll (c.frames w)
    totalTbCount := w.totalTbCount + UInt64.ofNat c.tbEntries.length
    totalEdgeRecords := w.totalEdgeRecords + UInt64.ofNat c.edgeEntries.length
    totalExecCount := w.totalExecCount + (c.tbEntries.map (fun e => e.2.2.2.1)).sum }

/-! ## §3. Running the monad. -/

theorem bind_ok {α β : Type} {m : WriterM α} {f : α → WriterM β} {w w' : ProfileWriter} {a : α}
    (h : m w = .ok a w') : (m >>= f) w = f a w' := by
  show EStateM.bind m f w = _
  simp only [EStateM.bind, h]

/-- The writer with more bytes behind it. -/
def ProfileWriter.appended (w : ProfileWriter) (bytes : List UInt8) : ProfileWriter :=
  { w with writer := w.writer ++ bytes }

theorem writeAll_ok (bytes : List UInt8) (w : ProfileWriter) :
    writeAll bytes w = .ok () (w.appended bytes) := rfl

theorem appended_appended (w : ProfileWriter) (xs ys : List UInt8) :
    (w.appended xs).appended ys = w.appended (xs ++ ys) := by
  simp [ProfileWriter.appended]

theorem checkedU32_ok {n : Nat} (h : n < 2 ^ 32) (w : ProfileWriter) :
    checkedU32 n w = .ok (UInt32.ofNat n) w := by
  unfold checkedU32
  rw [if_pos h]
  rfl

theorem leBytes_four_take (n : Nat) : (leBytes 4 n).take 3 = leBytes 3 n := rfl

/-- A length that fits passes the 24-bit check and is written exactly. -/
theorem writeTlvHeader_ok (tag : RecordTag) {len : UInt32} {n : Nat}
    (hlen : len.toNat = n) (hn : n < 256 ^ 3) (w : ProfileWriter) :
    writeTlvHeader tag len w = .ok () (w.appended (tag.toU8 :: leBytes 3 n)) := by
  have hmax : maxTlvPayload.toNat = 256 ^ 3 - 1 := by decide
  unfold writeTlvHeader
  rw [if_neg]
  · rw [writeAll_ok]
    show EStateM.Result.ok () (w.appended (tag.toU8 :: (leBytes 4 len.toNat).take 3)) = _
    rw [leBytes_four_take, hlen]
  · intro hgt
    have : maxTlvPayload.toNat < len.toNat := UInt32.lt_iff_toNat_lt.mp hgt
    omega

/-- The engine behind every record with a computed length. -/
theorem header_ok {α : Type} (tag : RecordTag) {n : Nat} (hn : n < 256 ^ 3)
    (k : WriterM α) (w : ProfileWriter) :
    (checkedU32 n >>= fun len => writeTlvHeader tag len >>= fun _ => k) w
      = k (w.appended (tag.toU8 :: leBytes 3 n)) := by
  have hn' : n < 2 ^ 32 := by omega
  rw [bind_ok (checkedU32_ok hn' w),
      bind_ok (writeTlvHeader_ok tag (UInt32.toNat_ofNat_of_lt' hn') hn w)]

theorem writeAll_bind_ok {α : Type} (bytes : List UInt8) (k : Unit → WriterM α)
    (w : ProfileWriter) : (writeAll bytes >>= k) w = k () (w.appended bytes) :=
  bind_ok (writeAll_ok bytes w)

/-- Header plus payload is the encoded record. -/
theorem appended_rec (w : ProfileWriter) (tag : RecordTag) (payload : List UInt8)
    (h : payload.length < 256 ^ 3) :
    w.appended (tag.toU8 :: leBytes 3 payload.length ++ payload)
      = w.appended (encodeAll [mkRec tag payload]) := by
  unfold mkRec
  rw [encodeAll_cons, encodeAll_nil, List.append_nil, Frame.encode_clip h]
  rfl

/-- A call that writes no TB or edge entry leaves the statistics alone. -/
theorem next_of_no_entries (w : ProfileWriter) (c : WriteCall)
    (ht : c.tbEntries = []) (he : c.edgeEntries = []) :
    c.next w = w.appended (encodeAll (c.frames w)) := by
  unfold WriteCall.next
  rw [ht, he]
  simp [ProfileWriter.appended]

/-! ## §4. Single-record calls. -/

theorem toNat_u8_min (n : Nat) : (UInt8.ofNat (min n 255)).toNat = min n 255 :=
  UInt8.toNat_ofNat_of_lt' (by show min n 255 < 256; omega)

theorem toNat_u16_min (n : Nat) : (UInt16.ofNat (min n 65535)).toNat = min n 65535 :=
  UInt16.toNat_ofNat_of_lt' (by show min n 65535 < 65536; omega)

theorem length_stringMetaPayload (key value : String) :
    (stringMetaPayload key value).length
      = 1 + min (asBytes key).length 255 + 2 + min (asBytes value).length 65535 := by
  simp only [stringMetaPayload, List.length_append, List.length_cons, List.length_nil,
    List.length_take, length_u16Le]
  omega

theorem length_symbolEntryPayload (symId : UInt16) (addr : UInt64) (name : String) :
    (symbolEntryPayload symId addr name).length
      = 2 + 8 + 2 + min (asBytes name).length 65535 := by
  simp only [symbolEntryPayload, List.length_append, List.length_take, length_u16Le,
    length_u64Le]
  omega

theorem length_deviceAccessPayload (tbAddr : UInt64) (deviceName : String) :
    (deviceAccessPayload tbAddr deviceName).length
      = 8 + 1 + min (asBytes deviceName).length 255 := by
  simp only [deviceAccessPayload, List.length_append, List.length_cons, List.length_nil,
    List.length_take, length_u64Le]
  omega

theorem writeStringMeta_ok (key value : String) (w : ProfileWriter) :
    writeStringMeta key value w
      = .ok () (w.appended (encodeAll [mkRec .stringMeta (stringMetaPayload key value)])) := by
  have hlen := length_stringMetaPayload key value
  unfold writeStringMeta
  simp only [toNat_u8_min, toNat_u16_min]
  rw [← hlen, header_ok .stringMeta (by omega), ← appended_rec _ _ _ (by omega)]
  simp only [writeAll_bind_ok, writeAll_ok, appended_appended, List.append_assoc]
  rfl

theorem writeSymbolEntry_ok (symId : UInt16) (addr : UInt64) (name : String)
    (w : ProfileWriter) :
    writeSymbolEntry symId addr name w
      = .ok () (w.appended
          (encodeAll [mkRec .symbolEntry (symbolEntryPayload symId addr name)])) := by
  have hlen := length_symbolEntryPayload symId addr name
  unfold writeSymbolEntry
  simp only [toNat_u16_min]
  rw [← hlen, header_ok .symbolEntry (by omega), ← appended_rec _ _ _ (by omega)]
  simp only [writeAll_bind_ok, writeAll_ok, appended_appended, List.append_assoc]
  rfl

theorem writeDeviceAccess_ok (tbAddr : UInt64) (deviceName : String) (w : ProfileWriter) :
    writeDeviceAccess tbAddr deviceName w
      = .ok () (w.appended
          (encodeAll [mkRec .deviceAccess (deviceAccessPayload tbAddr deviceName)])) := by
  have hlen := length_deviceAccessPayload tbAddr deviceName
  unfold writeDeviceAccess
  simp only [toNat_u8_min]
  rw [← hlen, header_ok .deviceAccess (by omega), ← appended_rec _ _ _ (by omega)]
  simp only [writeAll_bind_ok, writeAll_ok, appended_appended, List.append_assoc]
  rfl

theorem writeFlushMarker_ok (elapsed : UInt64) (vcpuIndex numEdges : UInt32)
    (w : ProfileWriter) :
    writeFlushMarker elapsed vcpuIndex numEdges w
      = .ok () (w.appended
          (encodeAll [mkRec .flushMarker (flushMarkerPayload elapsed vcpuIndex numEdges)])) := by
  have hlen : (flushMarkerPayload elapsed vcpuIndex numEdges).length = 8 + 4 + 4 := by
    simp [flushMarkerPayload]
  unfold writeFlushMarker
  rw [← hlen, header_ok .flushMarker (by omega), ← appended_rec _ _ _ (by omega)]
  simp only [writeAll_bind_ok, writeAll_ok, appended_appended, List.append_assoc]
  rfl

/-- The engine behind the records with a literal length. -/
theorem fixedHeader_ok {α : Type} (tag : RecordTag) (len : UInt32) (payload : List UInt8)
    (hlen : payload.length = len.toNat) (hn : payload.length < 256 ^ 3)
    (k : Unit → WriterM α) (w : ProfileWriter) :
    (writeTlvHeader tag len >>= k) w
      = k () (w.appended (tag.toU8 :: leBytes 3 payload.length)) :=
  bind_ok (writeTlvHeader_ok tag hlen.symm hn w)

theorem writeTbResource_ok (tbAddr : UInt64) (coprocFlags : UInt32) (vcpuMask : UInt64)
    (w : ProfileWriter) :
    writeTbResource tbAddr coprocFlags vcpuMask w
      = .ok () (w.appended
          (encodeAll [mkRec .tbResource (tbResourcePayload tbAddr coprocFlags vcpuMask)])) := by
  have hlen : (tbResourcePayload tbAddr coprocFlags vcpuMask).length = 20 := by
    simp [tbResourcePayload]
  unfold writeTbResource
  rw [fixedHeader_ok .tbResource 20 (tbResourcePayload tbAddr coprocFlags vcpuMask)
        (by rw [hlen]; rfl) (by omega), ← appended_rec _ _ _ (by omega)]
  simp only [writeAll_bind_ok, writeAll_ok, appended_appended, List.append_assoc]
  rfl

theorem writeDiscontinuity_ok (disconType : UInt32) (fromPc toPc count : UInt64)
    (w : ProfileWriter) :
    writeDiscontinuity disconType fromPc toPc count w
      = .ok () (w.appended (encodeAll
          [mkRec .discontinuity (discontinuityPayload disconType fromPc toPc count)])) := by
  have hlen : (discontinuityPayload disconType fromPc toPc count).length = 28 := by
    simp [discontinuityPayload]
  unfold writeDiscontinuity
  rw [fixedHeader_ok .discontinuity 28 (discontinuityPayload disconType fromPc toPc count)
        (by rw [hlen]; rfl) (by omega), ← appended_rec _ _ _ (by omega)]
  simp only [writeAll_bind_ok, writeAll_ok, appended_appended, List.append_assoc]
  rfl

theorem writeFooter_ok (wallTimeNs : UInt64) (w : ProfileWriter) :
    writeFooter wallTimeNs w
      = .ok () (w.appended (encodeAll [mkRec .footer (footerPayload w wallTimeNs)])) := by
  have hlen : (footerPayload w wallTimeNs).length = 40 := by
    simp [footerPayload]
  unfold writeFooter
  rw [fixedHeader_ok .footer 40 (footerPayload w wallTimeNs)
        (by rw [hlen]; rfl) (by omega), ← appended_rec _ _ _ (by omega)]
  -- the statistics are read after the header, which does not touch them
  rw [bind_ok (show (get : WriterM ProfileWriter) _ = .ok _ _ from rfl)]
  simp only [writeAll_bind_ok, writeAll_ok, appended_appended, List.append_assoc]
  rfl

/-! ## §5. Batches. -/

/-- One batch record together with what it adds to the statistics. -/
def batchStep (tag : RecordTag) (payload : List UInt8) (dTb dEdge dExec : UInt64)
    (w : ProfileWriter) : ProfileWriter :=
  { writer := w.writer ++ encodeAll [mkRec tag payload]
    totalTbCount := w.totalTbCount + dTb
    totalEdgeRecords := w.totalEdgeRecords + dEdge
    totalExecCount := w.totalExecCount + dExec }

theorem forM_ok {ε : Type} (f : ε → WriterM Unit) (g : ProfileWriter → ε → ProfileWriter)
    (l : List ε) (hf : ∀ e ∈ l, ∀ w, f e w = .ok () (g w e)) (w : ProfileWriter) :
    l.forM f w = .ok () (l.foldl g w) := by
  induction l generalizing w with
  | nil => rfl
  | cons e l ih =>
      show (f e >>= fun _ => l.forM f) w = _
      rw [bind_ok (hf e List.mem_cons_self w),
          ih (fun e' he' => hf e' (List.mem_cons_of_mem _ he'))]
      rfl

/-- A run of batch records: records append, statistics add up. -/
theorem foldl_batchStep {ε : Type} (tag : RecordTag) (payload : ε → List UInt8)
    (dTb dEdge dExec : ε → UInt64) (l : List ε) (w : ProfileWriter) :
    l.foldl (fun w e => batchStep tag (payload e) (dTb e) (dEdge e) (dExec e) w) w
      = { writer := w.writer ++ encodeAll (l.map (fun e => mkRec tag (payload e)))
          totalTbCount := w.totalTbCount + (l.map dTb).sum
          totalEdgeRecords := w.totalEdgeRecords + (l.map dEdge).sum
          totalExecCount := w.totalExecCount + (l.map dExec).sum } := by
  induction l generalizing w with
  | nil => simp
  | cons e l ih =>
      rw [List.foldl_cons, ih]
      simp [batchStep, encodeAll, UInt64.add_assoc]

theorem sum_length_chunks {ε : Type} (cs : List (List ε)) :
    (cs.map (fun c => UInt64.ofNat c.length)).sum = UInt64.ofNat cs.flatten.length := by
  induction cs with
  | nil => rfl
  | cons c cs ih =>
      rw [List.map_cons, List.sum_cons, ih, List.flatten_cons, List.length_append,
          UInt64.ofNat_add]

theorem sum_map_chunks {ε : Type} (f : ε → UInt64) (cs : List (List ε)) :
    (cs.map (fun c => (c.map f).sum)).sum = (cs.flatten.map f).sum := by
  induction cs with
  | nil => rfl
  | cons c cs ih =>
      rw [List.map_cons, List.sum_cons, ih, List.flatten_cons, List.map_append, List.sum_append]

theorem sum_map_zero {ε : Type} (cs : List ε) : (cs.map (fun _ => (0 : UInt64))).sum = 0 := by
  induction cs with
  | nil => rfl
  | cons c cs ih => rw [List.map_cons, List.sum_cons, ih]; rfl

/-- A chunk of at most `2^24` entries has an exact 32-bit count. -/
theorem toNat_count {n : Nat} (h : n < 2 ^ 24) : (UInt32.ofNat n).toNat = n :=
  UInt32.toNat_ofNat_of_lt' (by show n < 2 ^ 32; omega)

theorem toUInt64_count {n : Nat} (h : n < 2 ^ 24) :
    (UInt32.ofNat n).toUInt64 = UInt64.ofNat n := by
  apply UInt64.toNat_inj.mp
  rw [UInt32.toNat_toUInt64, toNat_count h, UInt64.toNat_ofNat_of_lt' (by show n < 2 ^ 64; omega)]

theorem maxTbExecPerRecord_eq : maxTbExecPerRecord = 419430 := by decide

theorem maxEdgesPerRecord_eq : maxEdgesPerRecord = 699050 := by decide

/-- The entry loop of a triple batch. -/
theorem forM_triples_ok (chunk : List Triple) (w : ProfileWriter) :
    chunk.forM writeTriple w = .ok () (w.appended (chunk.flatMap tripleBytes)) := by
  induction chunk generalizing w with
  | nil => simp [ProfileWriter.appended, pure, EStateM.pure]
  | cons e chunk ih =>
      have hstep : writeTriple e w = .ok () (w.appended (tripleBytes e)) := by
        obtain ⟨a, b, cnt⟩ := e
        simp only [writeTriple, writeAll_bind_ok, writeAll_ok, appended_appended,
          List.append_assoc]
        rfl
      show (writeTriple e >>= fun _ => chunk.forM writeTriple) w = _
      rw [bind_ok hstep, ih, appended_appended]
      rfl

/-- **The triple batches**: `afterChunk` adds `dEdge` of the chunk to the
edge statistics, and nothing else. -/
theorem writeTripleBatch_ok (tag : RecordTag) (afterChunk : UInt32 → WriterM Unit)
    (dEdge : List Triple → UInt64)
    (hafter : ∀ chunk : List Triple, chunk.length < 2 ^ 24 → ∀ w,
      afterChunk (UInt32.ofNat chunk.length) w
        = .ok () { w with totalEdgeRecords := w.totalEdgeRecords + dEdge chunk })
    (entries : List Triple) (w : ProfileWriter) :
    writeTripleBatch tag afterChunk entries w
      = .ok () { w with
          writer := w.writer ++ encodeAll ((chunks maxEdgesPerRecord entries).map
            (fun chunk => mkRec tag (batchPayload tripleBytes chunk)))
          totalEdgeRecords := w.totalEdgeRecords
            + ((chunks maxEdgesPerRecord entries).map dEdge).sum } := by
  unfold writeTripleBatch
  rw [forM_ok _ (fun w chunk =>
        batchStep tag (batchPayload tripleBytes chunk) 0 (dEdge chunk) 0 w)]
  · rw [foldl_batchStep, sum_map_zero, UInt64.add_zero, UInt64.add_zero]
  · intro chunk hmem w
    -- a chunk is short enough for the 24-bit length and the 32-bit count
    have hc : chunk.length ≤ 699050 :=
      maxEdgesPerRecord_eq ▸ length_le_of_mem_chunks _ _ chunk hmem
    have hlen := length_batchPayload tripleBytes 24 length_tripleBytes chunk
    rw [toNat_count (by omega), ← hlen, header_ok tag (by omega), writeAll_bind_ok,
        bind_ok (forM_triples_ok chunk _), hafter chunk (by omega)]
    have hrec := appended_rec w tag (batchPayload tripleBytes chunk) (by omega)
    rw [appended_appended, appended_appended,
        show u32Le (UInt32.ofNat chunk.length) ++ chunk.flatMap tripleBytes
          = batchPayload tripleBytes chunk from rfl, hrec]
    simp [batchStep, ProfileWriter.appended]

theorem writeEdges_ok (tag : RecordTag) (edges : List Triple) (w : ProfileWriter) :
    writeTripleBatch tag countEdgeRecords edges w
      = .ok () { w with
          writer := w.writer ++ encodeAll ((chunks maxEdgesPerRecord edges).map
            (fun chunk => mkRec tag (batchPayload tripleBytes chunk)))
          totalEdgeRecords := w.totalEdgeRecords + UInt64.ofNat edges.length } := by
  rw [writeTripleBatch_ok tag countEdgeRecords (fun chunk => UInt64.ofNat chunk.length)]
  · rw [sum_length_chunks, flatten_chunks _ (by rw [maxEdgesPerRecord_eq]; omega)]
  · intro chunk hchunk w
    rw [← toUInt64_count hchunk]
    rfl

theorem writeCalls_ok (tag : RecordTag) (calls : List Triple) (w : ProfileWriter) :
    writeTripleBatch tag (fun _ => pure ()) calls w
      = .ok () (w.appended (encodeAll ((chunks maxEdgesPerRecord calls).map
          (fun chunk => mkRec tag (batchPayload tripleBytes chunk))))) := by
  rw [writeTripleBatch_ok tag (fun _ => pure ()) (fun _ => 0)]
  · rw [sum_map_zero, UInt64.add_zero]
    rfl
  · intro chunk _ w
    rw [UInt64.add_zero]
    rfl

/-- The entry loop of a TB batch: bytes and the execution statistics. -/
theorem forM_tbEntries_ok (chunk : List TbEntry) (w : ProfileWriter) :
    chunk.forM writeTbEntry w
      = .ok () { w.appended (chunk.flatMap tbEntryBytes) with
          totalExecCount := w.totalExecCount + (chunk.map (fun e => e.2.2.2.1)).sum } := by
  induction chunk generalizing w with
  | nil => simp [ProfileWriter.appended, pure, EStateM.pure]
  | cons e chunk ih =>
      have hstep : writeTbEntry e w = .ok () { w.appended (tbEntryBytes e) with
          totalExecCount := w.totalExecCount + e.2.2.2.1 } := by
        obtain ⟨startAddr, endAddr, nInsns, execCount, firstSeen⟩ := e
        simp only [writeTbEntry, writeAll_bind_ok, appended_appended, List.append_assoc]
        rfl
      show (writeTbEntry e >>= fun _ => chunk.forM writeTbEntry) w = _
      rw [bind_ok hstep, ih]
      simp [ProfileWriter.appended, UInt64.add_assoc]

theorem writeTbExecBatch_ok (entries : List TbEntry) (w : ProfileWriter) :
    writeTbExecBatch entries w = .ok () (WriteCall.next w (.tbExecBatch entries)) := by
  unfold writeTbExecBatch
  rw [forM_ok _ (fun w chunk =>
        batchStep .tbExecBatch (batchPayload tbEntryBytes chunk) (UInt64.ofNat chunk.length) 0
          (chunk.map (fun e => e.2.2.2.1)).sum w)]
  · rw [foldl_batchStep, sum_map_zero, sum_length_chunks, sum_map_chunks,
        flatten_chunks _ (by rw [maxTbExecPerRecord_eq]; omega)]
    rfl
  · intro chunk hmem w
    have hc : chunk.length ≤ 419430 :=
      maxTbExecPerRecord_eq ▸ length_le_of_mem_chunks _ _ chunk hmem
    have hlen := length_batchPayload tbEntryBytes 40 length_tbEntryBytes chunk
    rw [toNat_count (by omega), ← hlen, header_ok .tbExecBatch (by omega), writeAll_bind_ok,
        bind_ok (forM_tbEntries_ok chunk _), toUInt64_count (by omega)]
    have hrec := appended_rec w .tbExecBatch (batchPayload tbEntryBytes chunk) (by omega)
    rw [appended_appended, appended_appended,
        show u32Le (UInt32.ofNat chunk.length) ++ chunk.flatMap tbEntryBytes
          = batchPayload tbEntryBytes chunk from rfl, hrec]
    simp only [ProfileWriter.appended, batchStep, UInt64.add_zero]
    rfl

/-! ## §6. Every call, every sequence of calls. -/

/-- **EVERY CALL SUCCEEDS AND APPENDS ITS RECORDS**, from any state and with
any arguments. -/
theorem run_eq (c : WriteCall) (w : ProfileWriter) : c.run w = .ok () (c.next w) := by
  cases c with
  | stringMeta key value =>
      rw [next_of_no_entries w _ rfl rfl]
      exact writeStringMeta_ok key value w
  | symbolEntry symId addr name =>
      rw [next_of_no_entries w _ rfl rfl]
      exact writeSymbolEntry_ok symId addr name w
  -- batches count their entries, for the footer
  | tbExecBatch entries => exact writeTbExecBatch_ok entries w
  | branchEdgeBatch edges =>
      show writeTripleBatch .branchEdgeBatch countEdgeRecords edges w = _
      rw [writeEdges_ok]
      simp [WriteCall.next, WriteCall.tbEntries, WriteCall.edgeEntries, WriteCall.frames]
  | fallThroughBatch edges =>
      show writeTripleBatch .fallThroughBatch countEdgeRecords edges w = _
      rw [writeEdges_ok]
      simp [WriteCall.next, WriteCall.tbEntries, WriteCall.edgeEntries, WriteCall.frames]
  | flushMarker elapsed vcpuIndex numEdges =>
      rw [next_of_no_entries w _ rfl rfl]
      exact writeFlushMarker_ok elapsed vcpuIndex numEdges w
  | directCallBatch calls =>
      rw [next_of_no_entries w _ rfl rfl]
      exact writeCalls_ok .directCallBatch calls w
  | indirectCallBatch calls =>
      rw [next_of_no_entries w _ rfl rfl]
      exact writeCalls_ok .indirectCallBatch calls w
  | tbResource tbAddr coprocFlags vcpuMask =>
      rw [next_of_no_entries w _ rfl rfl]
      exact writeTbResource_ok tbAddr coprocFlags vcpuMask w
  | deviceAccess tbAddr deviceName =>
      rw [next_of_no_entries w _ rfl rfl]
      exact writeDeviceAccess_ok tbAddr deviceName w
  | discontinuity disconType fromPc toPc count =>
      rw [next_of_no_entries w _ rfl rfl]
      exact writeDiscontinuity_ok disconType fromPc toPc count w
  | footer wallTimeNs =>
      rw [next_of_no_entries w _ rfl rfl]
      exact writeFooter_ok wallTimeNs w

/-- The records of a sequence of calls. -/
def callsFrames : ProfileWriter → List WriteCall → List Rec
  | _, [] => []
  | w, c :: cs => c.frames w ++ callsFrames (c.next w) cs

/-- The writer after a sequence of calls. -/
def callsNext (w : ProfileWriter) (cs : List WriteCall) : ProfileWriter :=
  cs.foldl WriteCall.next w

theorem callsNext_append (w : ProfileWriter) (cs ds : List WriteCall) :
    callsNext w (cs ++ ds) = callsNext (callsNext w cs) ds :=
  List.foldl_append

theorem runCalls_eq (cs : List WriteCall) (w : ProfileWriter) :
    runCalls cs w = .ok () (callsNext w cs) :=
  forM_ok WriteCall.run WriteCall.next cs (fun c _ w => run_eq c w) w

/-- **The log grows by the records of the calls.** -/
theorem writer_callsNext (cs : List WriteCall) (w : ProfileWriter) :
    (callsNext w cs).writer = w.writer ++ encodeAll (callsFrames w cs) := by
  induction cs generalizing w with
  | nil => simp [callsNext, callsFrames]
  | cons c cs ih =>
      show (callsNext (c.next w) cs).writer = _
      rw [ih, callsFrames, encodeAll_append]
      simp [WriteCall.next]

theorem callsFrames_append (cs ds : List WriteCall) (w : ProfileWriter) :
    callsFrames w (cs ++ ds) = callsFrames w cs ++ callsFrames (callsNext w cs) ds := by
  induction cs generalizing w with
  | nil => rfl
  | cons c cs ih =>
      show c.frames w ++ callsFrames (c.next w) (cs ++ ds) = _
      rw [ih]
      simp [callsFrames, callsNext]

end QemuProfiler.Plugin

/-
  QemuProfiler.Format.RecordLaws
  ──────────────────────────────
  **THE READER UNDERSTANDS EVERY RECORD OF THE WRITER.**

  The writer (`Plugin.Output`) and the parser (`Convert.Native`) are two
  independent programs that share only the byte format.  Here they meet,
  one record kind at a time:

    • `recordLoop_eq` — the record loop is a fold of `parseRecord` over the
      TLV frames of its input,
    • `parseBatch_batchPayload` — one lemma for every counted batch,
    • `applyRecords_frames` — reading the records of a call performs
      `WriteCall.effect`, with no size limit on names or batches,
    • `parseRecord_extends` — the parser is APPEND-ONLY on any input at all.
-/
import QemuProfiler.Lib.Tlv
import QemuProfiler.Plugin.OutputSpec
import QemuProfiler.Convert.Native

namespace QemuProfiler.Format

open QemuProfiler.Lib QemuProfiler.Plugin
open QemuProfiler.Convert hiding fileMagic FileHeader

/-! ## §1. The record loop is a fold over frames. -/

/-- Apply records one after the other; `none` when a decoder panics. -/
def applyRecords (rs : List (UInt8 × List UInt8)) (p : Profile) : Option Profile :=
  rs.foldlM (fun p r => parseRecord r.1 r.2 p) p

@[simp] theorem applyRecords_nil (p : Profile) : applyRecords [] p = some p := rfl

@[simp] theorem applyRecords_cons (r : UInt8 × List UInt8) (rs : List (UInt8 × List UInt8))
    (p : Profile) :
    applyRecords (r :: rs) p = (parseRecord r.1 r.2 p).bind (applyRecords rs) := rfl

theorem applyRecords_append (rs ss : List (UInt8 × List UInt8)) (p : Profile) :
    applyRecords (rs ++ ss) p = (applyRecords rs p).bind (applyRecords ss) := by
  unfold applyRecords
  rw [List.foldlM_append]
  rfl

/-- The three length bytes, padded to four, are the 24-bit length. -/
theorem payloadLen_eq (bs : List UInt8) (h : bs.length = 3) :
    (u32OfLe (bs ++ [0])).toNat = ofLeBytes bs := by
  have hlt := ofLeBytes_lt bs
  rw [h] at hlt
  unfold u32OfLe
  rw [ofLeBytes_append_zero]
  exact UInt32.toNat_ofNat_of_lt' (Nat.lt_of_lt_of_le hlt (by decide))

/-- One turn of the loop reads one frame. -/
theorem recordLoop_succ (fuel : Nat) (reader : List UInt8) (p : Profile) :
    recordLoop (fuel + 1) reader p
      = match readFrame 3 reader with
        | none => .ok p
        | some ((tag, payload), rest) =>
            orPanic (parseRecord tag payload p) >>= recordLoop fuel rest := by
  cases reader with
  | nil => rfl
  | cons tag rest =>
      have htag : readU8 (tag :: rest) = some (tag, rest) := by
        simp [readU8, readVal, readExact]
      simp only [recordLoop, htag, readFrame]
      by_cases h3 : rest.length < 3
      · -- the length field is cut short
        rw [if_pos h3, show readExact 3 rest = none from if_neg (by omega)]
      · rw [if_neg h3,
            show readExact 3 rest = some (rest.take 3, rest.drop 3) from if_pos (by omega)]
        simp only
        rw [payloadLen_eq (rest.take 3) (by rw [List.length_take]; omega)]
        by_cases hn : (rest.drop 3).length < ofLeBytes (rest.take 3)
        · -- the payload is cut short
          rw [if_pos hn,
              show readExact (ofLeBytes (rest.take 3)) (rest.drop 3) = none
                from if_neg (by omega)]
        · rw [if_neg hn,
              show readExact (ofLeBytes (rest.take 3)) (rest.drop 3)
                = some ((rest.drop 3).take (ofLeBytes (rest.take 3)),
                    (rest.drop 3).drop (ofLeBytes (rest.take 3))) from if_pos (by omega)]

theorem orPanic_bind {α β : Type} (o : Option α) (f : α → Option β) :
    orPanic (o.bind f) = orPanic o >>= fun a => orPanic (f a) := by
  cases o <;> rfl

/-- **The record loop is a fold over the frames of its input**, and with one
turn more than the input has bytes it comes to its end. -/
theorem recordLoop_eq (fuel : Nat) :
    ∀ (reader : List UInt8) (p : Profile), reader.length < fuel →
      recordLoop fuel reader p = orPanic (applyRecords (frames 3 reader) p) := by
  induction fuel with
  | zero =>
      intro reader p h
      exact absurd h (Nat.not_lt_zero _)
  | succ fuel ih =>
      intro reader p h
      rw [recordLoop_succ]
      cases hr : readFrame 3 reader with
      | none =>
          rw [frames_of_readFrame_none hr, applyRecords_nil]
          rfl
      | some vr =>
          obtain ⟨⟨tag, payload⟩, rest⟩ := vr
          have hlt := length_lt_of_readFrame hr
          -- a record is never empty, so the rest fits the remaining fuel
          have hrest : recordLoop fuel rest = fun q => orPanic (applyRecords (frames 3 rest) q) := by
            funext q
            exact ih rest q (by omega)
          rw [frames_of_readFrame hr, applyRecords_cons, orPanic_bind, ← hrest]

/-! ## §2. Counted batches. -/

/-- What the reader makes of a TB entry. -/
def tbExecOf (e : TbEntry) : TbExec := ⟨e.1, e.2.1, e.2.2.1, e.2.2.2.1, e.2.2.2.2⟩

/-- What the reader makes of an edge entry. -/
def edgeOf (e : Triple) : EdgeRecord := ⟨e.1, e.2.1, e.2.2⟩

/-- What the reader makes of a call entry. -/
def callOf (e : Triple) : CallRecord := ⟨e.1, e.2.1, e.2.2⟩

theorem tripleAt_tripleBytes {ε : Type} (mk : UInt64 → UInt64 → UInt64 → ε)
    (pre : List UInt8) (e : Triple) (post : List UInt8) :
    tripleAt mk (pre ++ (tripleBytes e ++ post)) pre.length = some (mk e.1 e.2.1 e.2.2) := by
  obtain ⟨a, b, cnt⟩ := e
  have h₁ := slice_field pre (u64Le a) (u64Le b ++ (u64Le cnt ++ post)) _ (pre.length + 8)
    rfl (by simp)
  have h₂ := slice_field (pre ++ u64Le a) (u64Le b) (u64Le cnt ++ post) (pre.length + 8)
    (pre.length + 16) (by simp) (by simp)
  have h₃ := slice_field (pre ++ (u64Le a ++ u64Le b)) (u64Le cnt) post (pre.length + 16)
    (pre.length + 24) (by simp) (by simp)
  simp only [List.append_assoc] at h₁ h₂ h₃
  simp only [tripleAt, tripleBytes, List.append_assoc, h₁, h₂, h₃, Option.bind_eq_bind,
    Option.bind_some, u64OfLe_u64Le]

/-- The entry has six bytes of padding between `n_insns` and `exec_count`. -/
theorem tbExecAt_tbEntryBytes (pre : List UInt8) (e : TbEntry) (post : List UInt8) :
    tbExecAt (pre ++ (tbEntryBytes e ++ post)) pre.length = some (tbExecOf e) := by
  obtain ⟨a, b, n, cnt, seq⟩ := e
  have h₁ := slice_field pre (u64Le a)
    (u64Le b ++ (u16Le n ++ (List.replicate 6 0 ++ (u64Le cnt ++ (u64Le seq ++ post)))))
    _ (pre.length + 8) rfl (by simp)
  have h₂ := slice_field (pre ++ u64Le a) (u64Le b)
    (u16Le n ++ (List.replicate 6 0 ++ (u64Le cnt ++ (u64Le seq ++ post))))
    (pre.length + 8) (pre.length + 16) (by simp) (by simp)
  have h₃ := slice_field (pre ++ (u64Le a ++ u64Le b)) (u16Le n)
    (List.replicate 6 0 ++ (u64Le cnt ++ (u64Le seq ++ post)))
    (pre.length + 16) (pre.length + 18) (by simp) (by simp)
  have h₄ := slice_field (pre ++ (u64Le a ++ (u64Le b ++ (u16Le n ++ List.replicate 6 0))))
    (u64Le cnt) (u64Le seq ++ post) (pre.length + 24) (pre.length + 32) (by simp) (by simp)
  have h₅ := slice_field
    (pre ++ (u64Le a ++ (u64Le b ++ (u16Le n ++ (List.replicate 6 0 ++ u64Le cnt)))))
    (u64Le seq) post (pre.length + 32) (pre.length + 40) (by simp) (by simp)
  simp only [List.append_assoc] at h₁ h₂ h₃ h₄ h₅
  simp only [tbExecAt, tbEntryBytes, List.append_assoc, h₁, h₂, h₃, h₄, h₅,
    Option.bind_eq_bind, Option.bind_some, u64OfLe_u64Le, u16OfLe_u16Le, tbExecOf]

section Batch

variable {ε ε' : Type} (size : Nat) (entryAt : List UInt8 → Nat → Option ε')
  (f : ε → List UInt8) (g : ε → ε')

/-- The entry loop reads back what the entry writer wrote. -/
theorem batchEntries_flatMap (hf : ∀ e, (f e).length = size)
    (hat : ∀ pre e post, entryAt (pre ++ (f e ++ post)) pre.length = some (g e)) :
    ∀ (chunk : List ε) (pre : List UInt8),
      batchEntries size entryAt (pre ++ chunk.flatMap f) chunk.length pre.length
        = some (chunk.map g) := by
  intro chunk
  induction chunk with
  | nil => intro pre; rfl
  | cons e chunk ih =>
      intro pre
      have hrest := ih (pre ++ f e)
      rw [List.length_append, hf, List.append_assoc] at hrest
      rw [List.flatMap_cons, List.length_cons]
      simp only [batchEntries]
      rw [if_neg (by simp only [List.length_append, hf]; omega), hat, hrest]
      rfl

/-- **A batch of any kind decodes to its entries.** -/
theorem parseBatch_batchPayload (hf : ∀ e, (f e).length = size)
    (hat : ∀ pre e post, entryAt (pre ++ (f e ++ post)) pre.length = some (g e))
    (chunk : List ε) (hc : chunk.length < 2 ^ 32) :
    parseBatch size entryAt (batchPayload f chunk) = some (chunk.map g) := by
  have hcount : slice (batchPayload f chunk) 0 4
      = some (u32Le (UInt32.ofNat chunk.length)) := by
    have h := slice_field [] (u32Le (UInt32.ofNat chunk.length)) (chunk.flatMap f) 0 4 rfl
      (by simp)
    exact h
  have hentries := batchEntries_flatMap size entryAt f g hf hat chunk
    (u32Le (UInt32.ofNat chunk.length))
  rw [length_u32Le] at hentries
  unfold parseBatch
  rw [if_neg (by simp [batchPayload]), hcount]
  simp only [Option.bind_eq_bind, Option.bind_some, u32OfLe_u32Le]
  rw [UInt32.toNat_ofNat_of_lt' hc]
  exact hentries

end Batch

/-! ## §3. Single records. -/

/-- A text as it survives a length field: cut to `n` bytes, then decoded. -/
def storedText (n : Nat) (s : String) : String := fromUtf8Lossy ((asBytes s).take n)

/-- A text within the limit survives unchanged. -/
theorem storedText_eq {n : Nat} {s : String} (h : (asBytes s).length ≤ n) :
    storedText n s = s := by
  unfold storedText
  rw [List.take_of_length_le h, fromUtf8Lossy_asBytes]

theorem take_min_length (n : Nat) (bs : List UInt8) :
    bs.take (min bs.length n) = bs.take n := by
  rcases Nat.le_total bs.length n with h | h
  · rw [Nat.min_eq_left h, List.take_of_length_le (Nat.le_refl _), List.take_of_length_le h]
  · rw [Nat.min_eq_right h]

theorem parseStringMeta_payload (key value : String) (p : Profile) :
    parseStringMeta (stringMetaPayload key value) p
      = some { p with
          metadata := p.metadata.insert (storedText 255 key) (storedText 65535 value) } := by
  have hlen := length_stringMetaPayload key value
  have hk : ((asBytes key).take (min (asBytes key).length 255)).length
      = min (asBytes key).length 255 := by rw [List.length_take]; omega
  have hv : ((asBytes value).take (min (asBytes value).length 65535)).length
      = min (asBytes value).length 65535 := by rw [List.length_take]; omega
  -- the stored lengths, as the writer clips them and the reader reads them back
  generalize hkl : min (asBytes key).length 255 = keyLen at hlen hk
  generalize hvl : min (asBytes value).length 65535 = valLen at hlen hv
  have hkn : (UInt8.ofNat keyLen).toNat = keyLen := hkl ▸ toNat_u8_min _
  have hvn : (UInt16.ofNat valLen).toNat = valLen := hvl ▸ toNat_u16_min _
  have hpay : stringMetaPayload key value
      = [UInt8.ofNat keyLen] ++ ((asBytes key).take keyLen
          ++ (u16Le (UInt16.ofNat valLen) ++ (asBytes value).take valLen)) := by
    rw [← hkl, ← hvl]
    rfl
  -- the four fields, at the offsets at which the reader slices
  have hhead : (stringMetaPayload key value)[0]? = some (UInt8.ofNat keyLen) := by
    rw [hpay]
    rfl
  have h₁ : slice (stringMetaPayload key value) 1 (1 + keyLen)
      = some ((asBytes key).take keyLen) := by
    rw [hpay]
    exact slice_field [UInt8.ofNat keyLen] _ _ 1 _ rfl (by rw [hk])
  have h₂ : slice (stringMetaPayload key value) (1 + keyLen) (3 + keyLen)
      = some (u16Le (UInt16.ofNat valLen)) := by
    rw [hpay, ← List.append_assoc]
    refine slice_field ([UInt8.ofNat keyLen] ++ (asBytes key).take keyLen) _ _ _ _ ?_ ?_
    · rw [List.length_append, hk]; rfl
    · rw [length_u16Le]; omega
  have h₃ : slice (stringMetaPayload key value) (3 + keyLen) (3 + keyLen + valLen)
      = some ((asBytes value).take valLen) := by
    rw [hpay, ← List.append_assoc, ← List.append_assoc]
    refine slice_last ([UInt8.ofNat keyLen] ++ (asBytes key).take keyLen
      ++ u16Le (UInt16.ofNat valLen)) _ _ _ ?_ ?_
    · rw [List.length_append, List.length_append, hk, length_u16Le, List.length_singleton]
      omega
    · rw [hv]
  have hne : (stringMetaPayload key value).isEmpty = false := by rw [hpay]; rfl
  unfold parseStringMeta
  rw [hne, hhead]
  simp only [Bool.false_eq_true, if_false, Option.bind_eq_bind, Option.bind_some, hkn]
  rw [if_neg (by omega), h₁, h₂]
  simp only [Option.bind_some, u16OfLe_u16Le, hvn]
  rw [if_neg (by omega), h₃]
  simp only [Option.bind_some, storedText]
  rw [← hkl, ← hvl, take_min_length, take_min_length]

theorem parseSymbolEntry_payload (symId : UInt16) (addr : UInt64) (name : String)
    (p : Profile) :
    parseSymbolEntry (symbolEntryPayload symId addr name) p
      = some { p with symbols := p.symbols ++ [⟨symId, addr, storedText 65535 name⟩] } := by
  have hlen := length_symbolEntryPayload symId addr name
  have hn : ((asBytes name).take (min (asBytes name).length 65535)).length
      = min (asBytes name).length 65535 := by rw [List.length_take]; omega
  generalize hnl : min (asBytes name).length 65535 = nameLen at hlen hn
  have hnn : (UInt16.ofNat nameLen).toNat = nameLen := hnl ▸ toNat_u16_min _
  have hpay : symbolEntryPayload symId addr name
      = u16Le symId ++ (u64Le addr ++ (u16Le (UInt16.ofNat nameLen)
          ++ (asBytes name).take nameLen)) := by
    rw [← hnl]
    rfl
  have h₁ := slice_field [] (u16Le symId) (u64Le addr ++ (u16Le (UInt16.ofNat nameLen)
    ++ (asBytes name).take nameLen)) 0 2 rfl (by simp)
  have h₂ := slice_field (u16Le symId) (u64Le addr) (u16Le (UInt16.ofNat nameLen)
    ++ (asBytes name).take nameLen) 2 10 (by simp) (by simp)
  have h₃ := slice_field (u16Le symId ++ u64Le addr) (u16Le (UInt16.ofNat nameLen))
    ((asBytes name).take nameLen) 10 12 (by simp) (by simp)
  have h₄ := slice_last (u16Le symId ++ (u64Le addr ++ u16Le (UInt16.ofNat nameLen)))
    ((asBytes name).take nameLen) 12 (12 + nameLen) (by simp) (by rw [hn])
  simp only [List.append_assoc, List.nil_append] at h₁ h₂ h₃ h₄
  unfold parseSymbolEntry
  rw [if_neg (by omega)]
  simp only [hlen]
  rw [hpay, h₁, h₂, h₃]
  simp only [Option.bind_eq_bind, Option.bind_some, u16OfLe_u16Le, u64OfLe_u64Le, hnn]
  rw [if_neg (by omega), h₄]
  simp only [Option.bind_some, storedText]
  rw [← hnl, take_min_length]

theorem parseTbResource_payload (tbAddr : UInt64) (coprocFlags : UInt32) (vcpuMask : UInt64)
    (p : Profile) :
    parseTbResource (tbResourcePayload tbAddr coprocFlags vcpuMask) p
      = some { p with
          tbResources := p.tbResources ++ [⟨tbAddr, coprocFlags, vcpuMask⟩] } := by
  have h₁ := slice_field [] (u64Le tbAddr) (u32Le coprocFlags ++ u64Le vcpuMask) 0 8 rfl
    (by simp)
  have h₂ := slice_field (u64Le tbAddr) (u32Le coprocFlags) (u64Le vcpuMask) 8 12 (by simp)
    (by simp)
  have h₃ := slice_last (u64Le tbAddr ++ u32Le coprocFlags) (u64Le vcpuMask) 12 20 (by simp)
    (by simp)
  simp only [List.append_assoc, List.nil_append] at h₁ h₂ h₃
  unfold parseTbResource tbResourcePayload
  rw [if_neg (by simp), h₁, h₂, h₃]
  simp only [Option.bind_eq_bind, Option.bind_some, u32OfLe_u32Le, u64OfLe_u64Le]

theorem parseDiscontinuity_payload (disconType : UInt32) (fromPc toPc count : UInt64)
    (p : Profile) :
    parseDiscontinuity (discontinuityPayload disconType fromPc toPc count) p
      = some { p with
          disconEvents := p.disconEvents ++ [⟨disconType, fromPc, toPc, count⟩] } := by
  have h₁ := slice_field [] (u32Le disconType) (u64Le fromPc ++ (u64Le toPc ++ u64Le count))
    0 4 rfl (by simp)
  have h₂ := slice_field (u32Le disconType) (u64Le fromPc) (u64Le toPc ++ u64Le count) 4 12
    (by simp) (by simp)
  have h₃ := slice_field (u32Le disconType ++ u64Le fromPc) (u64Le toPc) (u64Le count) 12 20
    (by simp) (by simp)
  have h₄ := slice_last (u32Le disconType ++ (u64Le fromPc ++ u64Le toPc)) (u64Le count) 20 28
    (by simp) (by simp)
  simp only [List.append_assoc, List.nil_append] at h₁ h₂ h₃ h₄
  unfold parseDiscontinuity discontinuityPayload
  rw [if_neg (by simp), h₁, h₂, h₃, h₄]
  simp only [Option.bind_eq_bind, Option.bind_some, u32OfLe_u32Le, u64OfLe_u64Le]

/-- The footer a writer in state `w` writes. -/
def footerOf (w : ProfileWriter) (wallTimeNs : UInt64) : Footer :=
  ⟨w.totalTbCount, w.totalEdgeRecords, w.totalExecCount, wallTimeNs, true⟩

theorem parseFooter_payload (w : ProfileWriter) (wallTimeNs : UInt64) (p : Profile) :
    parseFooter (footerPayload w wallTimeNs) p
      = some { p with footer := some (footerOf w wallTimeNs) } := by
  have h₁ := slice_field [] (u64Le w.totalTbCount) (u64Le w.totalEdgeRecords
    ++ (u64Le w.totalExecCount ++ (u64Le wallTimeNs ++ (u32Le 0x1 ++ List.replicate 4 0))))
    0 8 rfl (by simp)
  have h₂ := slice_field (u64Le w.totalTbCount) (u64Le w.totalEdgeRecords)
    (u64Le w.totalExecCount ++ (u64Le wallTimeNs ++ (u32Le 0x1 ++ List.replicate 4 0)))
    8 16 (by simp) (by simp)
  have h₃ := slice_field (u64Le w.totalTbCount ++ u64Le w.totalEdgeRecords)
    (u64Le w.totalExecCount) (u64Le wallTimeNs ++ (u32Le 0x1 ++ List.replicate 4 0))
    16 24 (by simp) (by simp)
  have h₄ := slice_field
    (u64Le w.totalTbCount ++ (u64Le w.totalEdgeRecords ++ u64Le w.totalExecCount))
    (u64Le wallTimeNs) (u32Le 0x1 ++ List.replicate 4 0) 24 32 (by simp) (by simp)
  have h₅ := slice_field (u64Le w.totalTbCount ++ (u64Le w.totalEdgeRecords
    ++ (u64Le w.totalExecCount ++ u64Le wallTimeNs))) (u32Le 0x1) (List.replicate 4 0)
    32 36 (by simp) (by simp)
  simp only [List.append_assoc, List.nil_append] at h₁ h₂ h₃ h₄ h₅
  unfold parseFooter footerPayload
  rw [if_neg (by simp), h₁, h₂, h₃, h₄, h₅]
  simp only [Option.bind_eq_bind, Option.bind_some, u32OfLe_u32Le, u64OfLe_u64Le]
  rfl

/-! ## §4. The effect of a call. -/

/-- What reading the records of a call does to the profile, when the writer
was in state `w`.  Flush markers and device records do nothing. -/
def effect (w : ProfileWriter) : WriteCall → Profile → Profile
  | .stringMeta key value, p =>
      { p with metadata := p.metadata.insert (storedText 255 key) (storedText 65535 value) }
  | .symbolEntry symId addr name, p =>
      { p with symbols := p.symbols ++ [⟨symId, addr, storedText 65535 name⟩] }
  | .tbExecBatch entries, p => { p with tbExecs := p.tbExecs ++ entries.map tbExecOf }
  | .branchEdgeBatch edges, p => { p with branchEdges := p.branchEdges ++ edges.map edgeOf }
  | .fallThroughBatch edges, p =>
      { p with fallThroughEdges := p.fallThroughEdges ++ edges.map edgeOf }
  | .flushMarker _ _ _, p => p
  | .directCallBatch calls, p => { p with directCalls := p.directCalls ++ calls.map callOf }
  | .indirectCallBatch calls, p =>
      { p with indirectCalls := p.indirectCalls ++ calls.map callOf }
  | .tbResource tbAddr coprocFlags vcpuMask, p =>
      { p with tbResources := p.tbResources ++ [⟨tbAddr, coprocFlags, vcpuMask⟩] }
  | .deviceAccess _ _, p => p
  | .discontinuity disconType fromPc toPc count, p =>
      { p with disconEvents := p.disconEvents ++ [⟨disconType, fromPc, toPc, count⟩] }
  | .footer wallTimeNs, p => { p with footer := some (footerOf w wallTimeNs) }

/-- A record whose payload fits is seen by the reader as it was meant. -/
theorem view_mkRec (tag : RecordTag) (payload : List UInt8) (h : payload.length < 256 ^ 3) :
    (mkRec tag payload).view = (tag.toU8, payload) :=
  Frame.view_clip h

theorem applyRecords_single (tag : RecordTag) (payload : List UInt8)
    (h : payload.length < 256 ^ 3) (p : Profile) :
    applyRecords ([mkRec tag payload].map Frame.view) p = parseRecord tag.toU8 payload p := by
  rw [List.map_cons, List.map_nil, view_mkRec tag payload h, applyRecords_cons]
  show (parseRecord tag.toU8 payload p).bind some = _
  cases parseRecord tag.toU8 payload p <;> rfl

/-- The records of a batch, over any list of small enough chunks; `add` is
what one record does with its entries. -/
theorem applyRecords_batch {ε ε' : Type} (tag : RecordTag) (size : Nat) (f : ε → List UInt8)
    (hf : ∀ e, (f e).length = size) (g : ε → ε') (add : Profile → List ε' → Profile)
    (hnil : ∀ p, add p [] = p) (happ : ∀ p xs ys, add (add p xs) ys = add p (xs ++ ys))
    (hrec : ∀ chunk p, chunk.length < 2 ^ 32 →
      parseRecord tag.toU8 (batchPayload f chunk) p = some (add p (chunk.map g))) :
    ∀ (cs : List (List ε)) (p : Profile),
      (∀ c ∈ cs, 4 + c.length * size < 256 ^ 3 ∧ c.length < 2 ^ 32) →
      applyRecords ((cs.map (fun c => mkRec tag (batchPayload f c))).map Frame.view) p
        = some (add p (cs.flatten.map g)) := by
  intro cs
  induction cs with
  | nil =>
      intro p _
      rw [List.map_nil, List.map_nil, applyRecords_nil, List.flatten_nil, List.map_nil, hnil]
  | cons c cs ih =>
      intro p hcs
      obtain ⟨hfit, h32⟩ := hcs c (by simp)
      have hlen := length_batchPayload f size hf c
      rw [List.map_cons, List.map_cons, view_mkRec tag _ (by omega), applyRecords_cons,
          hrec c p h32]
      show applyRecords _ (add p (c.map g)) = _
      -- one record after the other adds the concatenation of their entries
      rw [ih _ (fun c' hc' => hcs c' (by simp [hc'])), happ, List.flatten_cons, List.map_append]

/-- The two chunk sizes keep every record inside 24 bits. -/
theorem chunk_fits {ε : Type} (n size : Nat) (hn : 4 + n * size < 256 ^ 3) (h32 : n < 2 ^ 32)
    (l : List ε) :
    ∀ c ∈ chunks n l, 4 + c.length * size < 256 ^ 3 ∧ c.length < 2 ^ 32 := by
  intro c hc
  have hle := length_le_of_mem_chunks n l c hc
  have hmul : c.length * size ≤ n * size := Nat.mul_le_mul_right size hle
  exact ⟨by omega, by omega⟩

/-- The 24-byte batches: four kinds, one proof. -/
theorem applyRecords_tripleBatch {ε' : Type} (tag : RecordTag) (mk : UInt64 → UInt64 → UInt64 → ε')
    (add : Profile → List ε' → Profile)
    (hnil : ∀ p, add p [] = p) (happ : ∀ p xs ys, add (add p xs) ys = add p (xs ++ ys))
    (hrec : ∀ payload p, parseRecord tag.toU8 payload p
      = (parseBatch 24 (tripleAt mk) payload).bind (fun es => some (add p es)))
    (entries : List Triple) (p : Profile) :
    applyRecords (((chunks maxEdgesPerRecord entries).map
        (fun c => mkRec tag (batchPayload tripleBytes c))).map Frame.view) p
      = some (add p (entries.map (fun e => mk e.1 e.2.1 e.2.2))) := by
  rw [applyRecords_batch tag 24 tripleBytes length_tripleBytes
        (fun e => mk e.1 e.2.1 e.2.2) add hnil happ]
  · rw [flatten_chunks _ (by rw [maxEdgesPerRecord_eq]; omega)]
  · intro chunk q hc
    rw [hrec, parseBatch_batchPayload 24 (tripleAt mk) tripleBytes _ length_tripleBytes
          (tripleAt_tripleBytes mk) chunk hc]
    rfl
  · exact chunk_fits _ 24 (by rw [maxEdgesPerRecord_eq]; omega)
      (by rw [maxEdgesPerRecord_eq]; omega) entries

theorem applyRecords_tbExecBatch (w : ProfileWriter) (entries : List TbEntry) (p : Profile) :
    applyRecords (((WriteCall.tbExecBatch entries).frames w).map Frame.view) p
      = some { p with tbExecs := p.tbExecs ++ entries.map tbExecOf } := by
  have h := applyRecords_batch .tbExecBatch 40 tbEntryBytes length_tbEntryBytes tbExecOf
    (fun q es => { q with tbExecs := q.tbExecs ++ es })
    (fun q => by simp) (fun q xs ys => by simp)
    (fun chunk q hc => by
      show parseTbExecBatch (batchPayload tbEntryBytes chunk) q = _
      unfold parseTbExecBatch
      rw [parseBatch_batchPayload 40 tbExecAt tbEntryBytes tbExecOf length_tbEntryBytes
            tbExecAt_tbEntryBytes chunk hc]
      rfl)
    (chunks maxTbExecPerRecord entries) p
    (chunk_fits _ 40 (by rw [maxTbExecPerRecord_eq]; omega)
      (by rw [maxTbExecPerRecord_eq]; omega) entries)
  rw [flatten_chunks _ (by rw [maxTbExecPerRecord_eq]; omega)] at h
  exact h

/-- **READING THE RECORDS OF A CALL PERFORMS ITS EFFECT**, whatever the
call's arguments and the writer's state. -/
theorem applyRecords_frames (w : ProfileWriter) (c : WriteCall) (p : Profile) :
    applyRecords ((c.frames w).map Frame.view) p = some (effect w c p) := by
  cases c with
  | stringMeta key value =>
      have hlen := length_stringMetaPayload key value
      show applyRecords ([mkRec .stringMeta _].map Frame.view) p = _
      rw [applyRecords_single _ _ (by omega)]
      exact parseStringMeta_payload key value p
  | symbolEntry symId addr name =>
      have hlen := length_symbolEntryPayload symId addr name
      show applyRecords ([mkRec .symbolEntry _].map Frame.view) p = _
      rw [applyRecords_single _ _ (by omega)]
      exact parseSymbolEntry_payload symId addr name p
  | tbExecBatch entries => exact applyRecords_tbExecBatch w entries p
  -- the four triple batches differ in the tag and the list they extend
  | branchEdgeBatch edges =>
      exact applyRecords_tripleBatch .branchEdgeBatch EdgeRecord.mk
        (fun q es => { q with branchEdges := q.branchEdges ++ es })
        (fun q => by simp) (fun q xs ys => by simp) (fun payload q => rfl) edges p
  | fallThroughBatch edges =>
      exact applyRecords_tripleBatch .fallThroughBatch EdgeRecord.mk
        (fun q es => { q with fallThroughEdges := q.fallThroughEdges ++ es })
        (fun q => by simp) (fun q xs ys => by simp) (fun payload q => rfl) edges p
  | flushMarker elapsed vcpuIndex numEdges =>
      show applyRecords ([mkRec .flushMarker _].map Frame.view) p = _
      rw [applyRecords_single _ _ (by simp [flushMarkerPayload])]
      rfl
  | directCallBatch calls =>
      exact applyRecords_tripleBatch .directCallBatch CallRecord.mk
        (fun q es => { q with directCalls := q.directCalls ++ es })
        (fun q => by simp) (fun q xs ys => by simp) (fun payload q => rfl) calls p
  | indirectCallBatch calls =>
      exact applyRecords_tripleBatch .indirectCallBatch CallRecord.mk
        (fun q es => { q with indirectCalls := q.indirectCalls ++ es })
        (fun q => by simp) (fun q xs ys => by simp) (fun payload q => rfl) calls p
  | tbResource tbAddr coprocFlags vcpuMask =>
      show applyRecords ([mkRec .tbResource _].map Frame.view) p = _
      rw [applyRecords_single _ _ (by simp [tbResourcePayload])]
      exact parseTbResource_payload tbAddr coprocFlags vcpuMask p
  | deviceAccess tbAddr deviceName =>
      have hlen := length_deviceAccessPayload tbAddr deviceName
      show applyRecords ([mkRec .deviceAccess _].map Frame.view) p = _
      rw [applyRecords_single _ _ (by omega)]
      rfl
  | discontinuity disconType fromPc toPc count =>
      show applyRecords ([mkRec .discontinuity _].map Frame.view) p = _
      rw [applyRecords_single _ _ (by simp [discontinuityPayload])]
      exact parseDiscontinuity_payload disconType fromPc toPc count p
  | footer wallTimeNs =>
      show applyRecords ([mkRec .footer _].map Frame.view) p = _
      rw [applyRecords_single _ _ (by simp [footerPayload])]
      exact parseFooter_payload w wallTimeNs p

/-- The effect of a sequence of calls. -/
def callsEffect : ProfileWriter → List WriteCall → Profile → Profile
  | _, [], p => p
  | w, c :: cs, p => callsEffect (c.next w) cs (effect w c p)

theorem applyRecords_callsFrames (cs : List WriteCall) :
    ∀ (w : ProfileWriter) (p : Profile),
      applyRecords ((callsFrames w cs).map Frame.view) p = some (callsEffect w cs p) := by
  induction cs with
  | nil => intro w p; rfl
  | cons c cs ih =>
      intro w p
      rw [callsFrames, List.map_append, applyRecords_append, applyRecords_frames]
      exact ih (c.next w) (effect w c p)

/-! ## §5. The parser is append-only.

These laws are about ANY payload, not only the writer's. -/

/-- `q` holds everything `p` holds, in the same order. -/
structure Extends (p q : Profile) : Prop where
  header : q.header = p.header
  symbols : p.symbols <+: q.symbols
  tbExecs : p.tbExecs <+: q.tbExecs
  branchEdges : p.branchEdges <+: q.branchEdges
  fallThroughEdges : p.fallThroughEdges <+: q.fallThroughEdges
  directCalls : p.directCalls <+: q.directCalls
  indirectCalls : p.indirectCalls <+: q.indirectCalls
  tbResources : p.tbResources <+: q.tbResources
  disconEvents : p.disconEvents <+: q.disconEvents
  footer : p.footer.isSome → q.footer.isSome

theorem Extends.refl (p : Profile) : Extends p p :=
  ⟨rfl, List.prefix_rfl, List.prefix_rfl, List.prefix_rfl, List.prefix_rfl, List.prefix_rfl,
    List.prefix_rfl, List.prefix_rfl, List.prefix_rfl, id⟩

theorem Extends.trans {p q r : Profile} (h₁ : Extends p q) (h₂ : Extends q r) : Extends p r :=
  ⟨h₂.header.trans h₁.header, h₁.symbols.trans h₂.symbols, h₁.tbExecs.trans h₂.tbExecs,
    h₁.branchEdges.trans h₂.branchEdges, h₁.fallThroughEdges.trans h₂.fallThroughEdges,
    h₁.directCalls.trans h₂.directCalls, h₁.indirectCalls.trans h₂.indirectCalls,
    h₁.tbResources.trans h₂.tbResources, h₁.disconEvents.trans h₂.disconEvents,
    h₂.footer ∘ h₁.footer⟩

theorem parseStringMeta_extends {payload : List UInt8} {p q : Profile}
    (h : parseStringMeta payload p = some q) : Extends p q := by
  unfold parseStringMeta at h
  dsimp only at h
  split at h
  · cases h
    exact Extends.refl p
  · obtain ⟨keyLen, -, h⟩ := Option.bind_eq_some_iff.mp h
    split at h
    · cases h
      exact Extends.refl p
    · obtain ⟨key, -, h⟩ := Option.bind_eq_some_iff.mp h
      obtain ⟨valLen, -, h⟩ := Option.bind_eq_some_iff.mp h
      split at h
      · cases h
        exact Extends.refl p
      · obtain ⟨val, -, h⟩ := Option.bind_eq_some_iff.mp h
        cases h
        exact { Extends.refl p with }

theorem parseSymbolEntry_extends {payload : List UInt8} {p q : Profile}
    (h : parseSymbolEntry payload p = some q) : Extends p q := by
  unfold parseSymbolEntry at h
  dsimp only at h
  split at h
  · cases h
    exact Extends.refl p
  · obtain ⟨symId, -, h⟩ := Option.bind_eq_some_iff.mp h
    obtain ⟨addr, -, h⟩ := Option.bind_eq_some_iff.mp h
    obtain ⟨nameLen, -, h⟩ := Option.bind_eq_some_iff.mp h
    split at h
    · cases h
      exact Extends.refl p
    · obtain ⟨name, -, h⟩ := Option.bind_eq_some_iff.mp h
      cases h
      exact { Extends.refl p with symbols := List.prefix_append _ _ }

theorem parseTbResource_extends {payload : List UInt8} {p q : Profile}
    (h : parseTbResource payload p = some q) : Extends p q := by
  unfold parseTbResource at h
  dsimp only at h
  split at h
  · cases h
    exact Extends.refl p
  · obtain ⟨tbAddr, -, h⟩ := Option.bind_eq_some_iff.mp h
    obtain ⟨coprocFlags, -, h⟩ := Option.bind_eq_some_iff.mp h
    obtain ⟨vcpuMask, -, h⟩ := Option.bind_eq_some_iff.mp h
    cases h
    exact { Extends.refl p with tbResources := List.prefix_append _ _ }

theorem parseDiscontinuity_extends {payload : List UInt8} {p q : Profile}
    (h : parseDiscontinuity payload p = some q) : Extends p q := by
  unfold parseDiscontinuity at h
  dsimp only at h
  split at h
  · cases h
    exact Extends.refl p
  · obtain ⟨disconType, -, h⟩ := Option.bind_eq_some_iff.mp h
    obtain ⟨fromPc, -, h⟩ := Option.bind_eq_some_iff.mp h
    obtain ⟨toPc, -, h⟩ := Option.bind_eq_some_iff.mp h
    obtain ⟨count, -, h⟩ := Option.bind_eq_some_iff.mp h
    cases h
    exact { Extends.refl p with disconEvents := List.prefix_append _ _ }

theorem parseFooter_extends {payload : List UInt8} {p q : Profile}
    (h : parseFooter payload p = some q) : Extends p q := by
  unfold parseFooter at h
  dsimp only at h
  split at h
  · cases h
    exact Extends.refl p
  · obtain ⟨totalTbCount, -, h⟩ := Option.bind_eq_some_iff.mp h
    obtain ⟨totalEdgeRecords, -, h⟩ := Option.bind_eq_some_iff.mp h
    obtain ⟨totalExecCount, -, h⟩ := Option.bind_eq_some_iff.mp h
    obtain ⟨wallTimeNs, -, h⟩ := Option.bind_eq_some_iff.mp h
    obtain ⟨flags, -, h⟩ := Option.bind_eq_some_iff.mp h
    cases h
    exact { Extends.refl p with footer := fun _ => rfl }

/-- **THE PARSER IS APPEND-ONLY**: no record removes or reorders anything. -/
theorem parseRecord_extends {tag : UInt8} {payload : List UInt8} {p q : Profile}
    (h : parseRecord tag payload p = some q) : Extends p q := by
  unfold parseRecord at h
  split at h
  · exact parseStringMeta_extends h
  split at h
  · exact parseSymbolEntry_extends h
  split at h
  · obtain ⟨entries, -, h⟩ := Option.bind_eq_some_iff.mp h
    cases h
    exact { Extends.refl p with tbExecs := List.prefix_append _ _ }
  split at h
  · obtain ⟨edges, -, h⟩ := Option.bind_eq_some_iff.mp h
    cases h
    exact { Extends.refl p with branchEdges := List.prefix_append _ _ }
  split at h
  · obtain ⟨edges, -, h⟩ := Option.bind_eq_some_iff.mp h
    cases h
    exact { Extends.refl p with fallThroughEdges := List.prefix_append _ _ }
  split at h
  · obtain ⟨calls, -, h⟩ := Option.bind_eq_some_iff.mp h
    cases h
    exact { Extends.refl p with directCalls := List.prefix_append _ _ }
  split at h
  · obtain ⟨calls, -, h⟩ := Option.bind_eq_some_iff.mp h
    cases h
    exact { Extends.refl p with indirectCalls := List.prefix_append _ _ }
  split at h
  · exact parseTbResource_extends h
  split at h
  · exact parseDiscontinuity_extends h
  split at h
  · exact parseFooter_extends h
  -- an unknown tag is skipped
  · cases h
    exact Extends.refl p

theorem applyRecords_extends (rs : List (UInt8 × List UInt8)) :
    ∀ {p q : Profile}, applyRecords rs p = some q → Extends p q := by
  induction rs with
  | nil =>
      intro p q h
      cases h
      exact Extends.refl p
  | cons r rs ih =>
      intro p q h
      rw [applyRecords_cons] at h
      obtain ⟨p', hp', h⟩ := Option.bind_eq_some_iff.mp h
      exact (parseRecord_extends hp').trans (ih h)

/-! ## §6. The file header. -/

theorem readExact_append (field rest : List UInt8) (n : Nat) (h : field.length = n) :
    readExact n (field ++ rest) = some (field, rest) := by
  unfold readExact
  rw [if_pos (by rw [List.length_append]; omega), List.take_left' h, List.drop_left' h]

theorem readVal_append {α : Type} (decode : List UInt8 → α) (field rest : List UInt8) (n : Nat)
    (h : field.length = n) : readVal n decode (field ++ rest) = some (decode field, rest) := by
  unfold readVal
  rw [readExact_append field rest n h]
  rfl

theorem ok_bind {α β : Type} (a : α) (f : α → Except ParseError β) :
    (Except.ok a >>= f) = f a := rfl

theorem rejectIf_ok {bad : Prop} [Decidable bad] (h : ¬ bad) (text : String) :
    rejectIf bad text = .ok () := if_neg h

/-- The flag word of the header. -/
def headerFlags (sysemu streaming : Bool) : UInt32 :=
  (if sysemu then flagSysemu else 0) ||| (if streaming then flagStreaming else 0)

/-- The parsed header of a log opened with the given arguments. -/
def headerOf (tier : UInt8) (sysemu streaming : Bool)
    (loadAddr textStart textEnd entryAddr : UInt64) : Convert.FileHeader :=
  { formatVersion := 1, tier := tier, pointerSize := 8, flags := headerFlags sysemu streaming
    loadAddr := loadAddr, textStart := textStart, textEnd := textEnd, entryAddr := entryAddr
    buildId := List.replicate 16 0 }

theorem length_new (tier : UInt8) (sysemu streaming : Bool)
    (loadAddr textStart textEnd entryAddr : UInt64) :
    (ProfileWriter.new tier sysemu streaming loadAddr textStart textEnd entryAddr).writer.length
      = 64 := by
  simp [ProfileWriter.new, Plugin.FileHeader.toBytes]

/-- **The header survives**, whatever follows it. -/
theorem parseHeader_new (tier : UInt8) (sysemu streaming : Bool)
    (loadAddr textStart textEnd entryAddr : UInt64) (rest : List UInt8) :
    parseHeader ((ProfileWriter.new tier sysemu streaming loadAddr textStart textEnd
        entryAddr).writer ++ rest)
      = .ok (headerOf tier sysemu streaming loadAddr textStart textEnd entryAddr, rest) := by
  -- every read takes one field of the header; the flags are the two bits
  have hflags : (let flags : UInt32 := 0
      let flags := if sysemu then flags ||| flagSysemu else flags
      if streaming then flags ||| flagStreaming else flags) = headerFlags sysemu streaming := by
    cases sysemu <;> cases streaming <;> rfl
  simp only at hflags
  simp only [ProfileWriter.new, Plugin.FileHeader.toBytes, hflags, List.append_assoc]
  unfold parseHeader
  simp only [readU64Le, readU32Le, readU16Le, readU8,
    readVal_append u64OfLe (u64Le _) _ 8 (length_u64Le _),
    readVal_append u32OfLe (u32Le _) _ 4 (length_u32Le _),
    readVal_append u16OfLe (u16Le _) _ 2 (length_u16Le _),
    readVal_append (fun buf => buf.getD 0 0) [_] _ 1 rfl,
    readExact_append (List.replicate 16 0) rest 16 rfl,
    u64OfLe_u64Le, u32OfLe_u32Le, u16OfLe_u16Le, okOr, ok_bind]
  rw [rejectIf_ok (by decide), ok_bind, rejectIf_ok (by decide), ok_bind,
      rejectIf_ok (by decide), ok_bind]
  rfl

/-- A read fails with its message or goes on with the bytes after the field. -/
theorem short_read {α β : Type} {n : Nat} {decode : List UInt8 → α} {reader : List UInt8}
    {text : String} {k : α × List UInt8 → Except ParseError β}
    (hk : ∀ a rest, reader.length = n + rest.length → ∃ t, k (a, rest) = .error (.message t)) :
    ∃ t, (okOr (readVal n decode reader) text >>= k) = .error (.message t) := by
  unfold readVal readExact
  by_cases h : n ≤ reader.length
  · rw [if_pos h]
    apply hk
    rw [List.length_drop]
    omega
  · rw [if_neg h]
    exact ⟨text, rfl⟩

/-- A check fails with its message or goes on. -/
theorem short_check {β : Type} {bad : Prop} [Decidable bad] {text : String}
    {k : Unit → Except ParseError β} (hk : ∃ t, k () = .error (.message t)) :
    ∃ t, (rejectIf bad text >>= k) = .error (.message t) := by
  unfold rejectIf
  by_cases h : bad
  · rw [if_pos h]
    exact ⟨text, rfl⟩
  · rw [if_neg h]
    exact hk

/-- A file shorter than the header is rejected with a message. -/
theorem parseHeader_short (reader : List UInt8) (hlen : reader.length < 64) :
    ∃ text, parseHeader reader = .error (.message text) := by
  unfold parseHeader
  apply short_read
  intro magic r₁ h₁
  apply short_check
  apply short_read
  intro version r₂ h₂
  apply short_check
  apply short_read
  intro tier r₃ h₃
  apply short_read
  intro pointerSize r₄ h₄
  apply short_check
  apply short_read
  intro flags r₅ h₅
  apply short_read
  intro loadAddr r₆ h₆
  apply short_read
  intro textStart r₇ h₇
  apply short_read
  intro textEnd r₈ h₈
  apply short_read
  intro entryAddr r₉ h₉
  -- 48 bytes are gone, so the build id cannot be whole
  have hid : readExact 16 r₉ = none := if_neg (by omega)
  exact ⟨"truncated header: build_id", by simp only [hid]; rfl⟩

end QemuProfiler.Format

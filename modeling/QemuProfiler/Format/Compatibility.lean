/-
  QemuProfiler.Format.Compatibility
  ─────────────────────────────────
  **FRAMING DEPENDS ON TAG AND LENGTH ALONE.**

  A record of a tag the parser does not handle can stand at any record
  boundary, with any payload, and the profile is the same.  The records of an
  edge batch matter only by the multiset of their entries: batches can be
  permuted, moved between other records and split, and only the order of the
  merged edges can change.
-/
import QemuProfiler.Format.Acceptance

namespace QemuProfiler.Format

open QemuProfiler.Lib QemuProfiler.Plugin
open QemuProfiler.Convert hiding fileMagic FileHeader

/-! ## §1. Merging erases batch boundaries. -/

/-- A merge is determined by the multiset of the edges, up to order. -/
theorem MergeOf.perm {es es' m m' : List EdgeRecord} (h : MergeOf es m) (h' : MergeOf es' m')
    (hperm : es.Perm es') : m.Perm m' := by
  -- one direction of membership, used twice
  have hsub : ∀ {es es' m m' : List EdgeRecord}, MergeOf es m → MergeOf es' m' → es.Perm es' →
      ∀ e ∈ m, e ∈ m' := by
    intro es es' m m' h h' hperm e he
    have hkey : e.key ∈ m'.map EdgeRecord.key := by
      rw [h'.mem_key, ← (hperm.map EdgeRecord.key).mem_iff, ← h.mem_key]
      exact List.mem_map_of_mem he
    obtain ⟨e', he', hkeys⟩ := List.mem_map.mp hkey
    have hcount : e'.count = e.count := by
      rw [h'.count e' he', h.count e he, hkeys]
      exact (sumWhere_perm _ (hperm.map EdgeRecord.counted)).symm
    have heq : e' = e := by
      cases e
      cases e'
      simp only [EdgeRecord.key, Prod.mk.injEq] at hkeys
      simp only [EdgeRecord.mk.injEq]
      exact ⟨hkeys.1, hkeys.2, hcount⟩
    rw [← heq]
    exact he'
  rw [List.perm_ext_iff_of_nodup (List.Nodup.of_map _ h.nodup) (List.Nodup.of_map _ h'.nodup)]
  intro e
  exact ⟨hsub h h' hperm e, hsub h' h hperm.symm e⟩

/-! ## §2. Edge batches and the rest. -/

/-- Is the record an edge batch? -/
def isEdgeBatch (r : UInt8 × List UInt8) : Bool := r.1 = 0x21 ∨ r.1 = 0x23

/-- The profile without its edges. -/
def withoutEdges (p : Profile) : Profile := { p with branchEdges := [], fallThroughEdges := [] }

/-- The entries of the edge batches of one tag. -/
def edgesIn (tag : UInt8) (rs : List (UInt8 × List UInt8)) : List EdgeRecord :=
  rs.flatMap fun r => if r.1 = tag then entriesIn 24 (tripleFrom EdgeRecord.mk) r.2 else []

theorem edgesIn_append (tag : UInt8) (rs ss : List (UInt8 × List UInt8)) :
    edgesIn tag (rs ++ ss) = edgesIn tag rs ++ edgesIn tag ss :=
  List.flatMap_append

/-- The edges come from the edge batches. -/
theorem edgesIn_filter {tag : UInt8} (htag : tag = 0x21 ∨ tag = 0x23)
    (rs : List (UInt8 × List UInt8)) : edgesIn tag (rs.filter isEdgeBatch) = edgesIn tag rs := by
  induction rs with
  | nil => rfl
  | cons r rs ih =>
      have hcons : edgesIn tag (r :: rs) = edgesIn tag [r] ++ edgesIn tag rs :=
        edgesIn_append tag [r] rs
      by_cases hr : isEdgeBatch r = true
      · rw [List.filter_cons_of_pos hr, hcons, ← ih]
        exact edgesIn_append tag [r] _
      · have hne : r.1 ≠ tag := by
          intro heq
          apply hr
          unfold isEdgeBatch
          rw [heq]
          exact decide_eq_true htag
        rw [List.filter_cons_of_neg hr, hcons, ih]
        simp [edgesIn, hne]

/-- Equal up to the order of the edges. -/
structure SameUpToEdgeOrder (p q : Profile) : Prop where
  rest : withoutEdges p = withoutEdges q
  branchEdges : p.branchEdges.Perm q.branchEdges
  fallThroughEdges : p.fallThroughEdges.Perm q.fallThroughEdges

theorem withoutEdges_decodeRecord (r : UInt8 × List UInt8) (p : Profile) :
    withoutEdges (decodeRecord r.1 r.2 p)
      = if isEdgeBatch r then withoutEdges p
        else decodeRecord r.1 r.2 (withoutEdges p) := by
  obtain ⟨tag, payload⟩ := r
  by_cases h21 : tag = 0x21
  · subst h21
    simp [decodeRecord, withoutEdges, isEdgeBatch]
  · by_cases h23 : tag = 0x23
    · subst h23
      simp [decodeRecord, withoutEdges, isEdgeBatch]
    · simp [decodeRecord, withoutEdges, isEdgeBatch, h21, h23]

/-- The other fields come from the other records. -/
theorem withoutEdges_decodeRecords (rs : List (UInt8 × List UInt8)) :
    ∀ p, withoutEdges (decodeRecords rs p)
      = withoutEdges (decodeRecords (rs.filter (fun r => !isEdgeBatch r)) (withoutEdges p)) := by
  induction rs with
  | nil => intro p; rfl
  | cons r rs ih =>
      intro p
      rw [decodeRecords_cons, ih, withoutEdges_decodeRecord]
      by_cases h : isEdgeBatch r
      · rw [if_pos h, List.filter_cons_of_neg (by simp [h])]
      · rw [if_neg h, List.filter_cons_of_pos (by simp [h]), decodeRecords_cons]

theorem branchEdges_decodeRecords (rs : List (UInt8 × List UInt8)) (p : Profile) :
    (decodeRecords rs p).branchEdges = p.branchEdges ++ edgesIn 0x21 rs :=
  field_decodeRecords Profile.branchEdges _ (by intro r p; rfl) rs p

theorem fallThroughEdges_decodeRecords (rs : List (UInt8 × List UInt8)) (p : Profile) :
    (decodeRecords rs p).fallThroughEdges = p.fallThroughEdges ++ edgesIn 0x23 rs :=
  field_decodeRecords Profile.fallThroughEdges _ (by intro r p; rfl) rs p

/-- **Two logs with the same other records and the same edge entries**, each
read with its own iteration orders. -/
theorem parse_sameUpToEdgeOrder (ρb ρf σb σf : IterOrder) {hdr : List UInt8}
    (h64 : hdr.length = 64) (h : ValidHeader hdr) (fs gs : List (Frame 3))
    (hrest : (fs.map Frame.view).filter (fun r => !isEdgeBatch r)
      = (gs.map Frame.view).filter (fun r => !isEdgeBatch r))
    (hedges : ∀ tag, tag = 0x21 ∨ tag = 0x23 →
      (edgesIn tag (fs.map Frame.view)).Perm (edgesIn tag (gs.map Frame.view))) :
    ∃ p q, parse ρb ρf (hdr ++ encodeAll fs) = .ok p ∧ parse σb σf (hdr ++ encodeAll gs) = .ok q
      ∧ SameUpToEdgeOrder p q := by
  have hlog : ∀ (ρb ρf : IterOrder) (fs : List (Frame 3)), parse ρb ρf (hdr ++ encodeAll fs)
      = .ok (merged ρb ρf (decodeRecords (fs.map Frame.view)
          (Profile.ofHeader (headerFrom hdr)))) := by
    intro ρb ρf fs
    have hparse := parse_log ρb ρf h64 h fs []
    rwa [List.append_nil, show frames 3 [] = [] from rfl, List.append_nil] at hparse
  refine ⟨_, _, hlog ρb ρf fs, hlog σb σf gs, ?_, ?_, ?_⟩
  · have hsplit := withoutEdges_decodeRecords (fs.map Frame.view)
      (Profile.ofHeader (headerFrom hdr))
    rw [hrest, ← withoutEdges_decodeRecords] at hsplit
    exact hsplit
  · refine (mergeEdges_spec ρb _).perm (mergeEdges_spec σb _) ?_
    rw [branchEdges_decodeRecords, branchEdges_decodeRecords]
    exact (hedges 0x21 (Or.inl rfl)).append_left _
  · refine (mergeEdges_spec ρf _).perm (mergeEdges_spec σf _) ?_
    rw [fallThroughEdges_decodeRecords, fallThroughEdges_decodeRecords]
    exact (hedges 0x23 (Or.inr rfl)).append_left _

/-! ## §3. Well-formed batches. -/

/-- The record is a well-formed edge batch of these entries. -/
def IsEdgeBatchOf (tag : UInt8) (entries : List Triple) (f : Frame 3) : Prop :=
  (tag = 0x21 ∨ tag = 0x23) ∧ f.view = (tag, batchPayload tripleBytes entries)

theorem length_batchPayload_tripleBytes (entries : List Triple) :
    (batchPayload tripleBytes entries).length = 4 + 24 * entries.length := by
  unfold batchPayload
  rw [List.length_append, length_u32Le]
  congr 1
  induction entries with
  | nil => rfl
  | cons e es ih =>
      rw [List.flatMap_cons, List.length_append, length_tripleBytes, ih, List.length_cons]
      omega

/-- A well-formed batch yields its entries. -/
theorem entriesIn_batchPayload {entries : List Triple} (h : entries.length < 2 ^ 32) :
    entriesIn 24 (tripleFrom EdgeRecord.mk) (batchPayload tripleBytes entries)
      = entries.map edgeOf := by
  have hread := parseBatch_batchPayload 24 (tripleAt EdgeRecord.mk) tripleBytes edgeOf
    length_tripleBytes (tripleAt_tripleBytes EdgeRecord.mk) entries h
  rw [parseBatch_eq (by omega) _ (tripleAt_eq EdgeRecord.mk _)] at hread
  exact Option.some.inj hread

theorem edgesIn_of_isEdgeBatchOf {tag : UInt8} {entries : List Triple} {f : Frame 3}
    (h : IsEdgeBatchOf tag entries f) (tag' : UInt8) :
    edgesIn tag' [f.view] = if tag = tag' then entries.map edgeOf else [] := by
  have hlen : entries.length < 2 ^ 32 := by
    have hfits := f.fits
    rw [show f.payload = batchPayload tripleBytes entries from congrArg Prod.snd h.2,
        length_batchPayload_tripleBytes] at hfits
    omega
  unfold edgesIn
  rw [List.flatMap_singleton, h.2]
  dsimp only
  rw [entriesIn_batchPayload hlen]

/-- Several batches of one tag yield the entries of all. -/
theorem edgesIn_of_forall₂ {tag : UInt8} {parts : List (List Triple)} {hs : List (Frame 3)}
    (h : List.Forall₂ (IsEdgeBatchOf tag) parts hs) (tag' : UInt8) :
    edgesIn tag' (hs.map Frame.view) = if tag = tag' then parts.flatten.map edgeOf else [] := by
  induction h with
  | nil => simp [edgesIn]
  | @cons part f parts hs hpart _ ih =>
      have hcons : edgesIn tag' ((f :: hs).map Frame.view)
          = edgesIn tag' [f.view] ++ edgesIn tag' (hs.map Frame.view) := by
        simp [edgesIn]
      rw [hcons, edgesIn_of_isEdgeBatchOf hpart, ih]
      by_cases htag : tag = tag'
      · rw [if_pos htag, if_pos htag, if_pos htag, List.flatten_cons, List.map_append]
      · rw [if_neg htag, if_neg htag, if_neg htag, List.append_nil]

theorem filter_of_isEdgeBatchOf {tag : UInt8} {parts : List (List Triple)} {hs : List (Frame 3)}
    (h : List.Forall₂ (IsEdgeBatchOf tag) parts hs) :
    (hs.map Frame.view).filter (fun r => !isEdgeBatch r) = [] := by
  induction h with
  | nil => rfl
  | @cons part f parts hs hpart _ ih =>
      have hedge : isEdgeBatch f.view = true := by
        rw [hpart.2]
        exact decide_eq_true hpart.1
      rw [List.map_cons, List.filter_cons_of_neg (by simp [hedge]), ih]

/-! ## §4. Forward compatibility. -/

/-- **FORWARD COMPATIBILITY OF THE LOG.**  A record of an unhandled tag can
stand anywhere with any payload; edge batches can be permuted, moved and
split, which changes the edges at most in their order. -/
theorem parse_forwardCompatible (ρb ρf σb σf : IterOrder) (hdr : List UInt8)
    (h64 : hdr.length = 64) (h : ValidHeader hdr) (fs gs : List (Frame 3)) :
    (∀ f : Frame 3, f.tag ∉ handledTags →
        parse ρb ρf (hdr ++ encodeAll (fs ++ f :: gs)) = parse ρb ρf (hdr ++ encodeAll (fs ++ gs)))
      ∧ (∀ tag ∈ [RecordTag.flushMarker, RecordTag.firstSeenOrder, RecordTag.deviceAccess],
          tag.toU8 ∉ handledTags)
      ∧ ((fs.map Frame.view).filter (fun r => !isEdgeBatch r)
            = (gs.map Frame.view).filter (fun r => !isEdgeBatch r) →
          ((fs.map Frame.view).filter isEdgeBatch).Perm ((gs.map Frame.view).filter isEdgeBatch) →
          ∃ p q, parse ρb ρf (hdr ++ encodeAll fs) = .ok p
            ∧ parse σb σf (hdr ++ encodeAll gs) = .ok q ∧ SameUpToEdgeOrder p q)
      ∧ (∀ (tag : UInt8) (f : Frame 3) (entries : List Triple) (parts : List (List Triple))
            (hs : List (Frame 3)), IsEdgeBatchOf tag entries f →
          List.Forall₂ (IsEdgeBatchOf tag) parts hs → parts.flatten.Perm entries →
          ∃ p q, parse ρb ρf (hdr ++ encodeAll (fs ++ f :: gs)) = .ok p
            ∧ parse σb σf (hdr ++ encodeAll (fs ++ hs ++ gs)) = .ok q ∧ SameUpToEdgeOrder p q) := by
  refine ⟨?_, by decide, ?_, ?_⟩
  -- a record that is not handled
  · intro f hf
    have hlog := parse_insert ρb ρf h64 h (fun p => decodeRecord_unhandled f.payload p hf) fs
      (encodeAll gs)
    rw [encodeAll_append, encodeAll_append, encodeAll_cons]
    exact hlog
  -- the other records stay in order, the edge batches are permuted
  · intro hrest hperm
    refine parse_sameUpToEdgeOrder ρb ρf σb σf h64 h fs gs hrest ?_
    intro tag htag
    rw [← edgesIn_filter htag, ← edgesIn_filter htag (gs.map Frame.view)]
    exact hperm.flatMap_right _
  -- one batch is replaced by several
  · intro tag f entries parts hs hf hhs hentries
    have hframe : fs ++ f :: gs = fs ++ [f] ++ gs := by simp
    have hone := List.Forall₂.cons hf List.Forall₂.nil
    rw [hframe]
    apply parse_sameUpToEdgeOrder ρb ρf σb σf h64 h
    · rw [List.map_append, List.map_append, List.map_append, List.map_append,
          List.filter_append, List.filter_append, List.filter_append, List.filter_append,
          filter_of_isEdgeBatchOf hone, filter_of_isEdgeBatchOf hhs]
    · intro tag' _
      rw [List.map_append, List.map_append, List.map_append, List.map_append,
          edgesIn_append, edgesIn_append, edgesIn_append, edgesIn_append,
          edgesIn_of_forall₂ hone, edgesIn_of_forall₂ hhs]
      refine (List.Perm.append_left _ ?_).append_right _
      by_cases htag : tag = tag'
      · rw [if_pos htag, if_pos htag, List.flatten_cons, List.flatten_nil, List.append_nil]
        exact (hentries.map edgeOf).symm
      · rw [if_neg htag, if_neg htag]

/-- A header of the writer. -/
def sampleHeader : List UInt8 := (ProfileWriter.new 1 false true 0x1000 0 0 0).writer

/-- A branch batch with one entry. -/
def sampleBatch (e : Triple) : Frame 3 := Frame.clip 0x21 (batchPayload tripleBytes [e])

/-- An unhandled record whose payload is a whole batch record is skipped, and
two batches in the other order give the same edges. -/
theorem parse_forwardCompatible_sample :
    parse [] [] (sampleHeader ++ encodeAll ([sampleBatch (1, 2, 3)]
          ++ Frame.clip 0x22 (sampleBatch (7, 8, 9)).encode :: [sampleBatch (4, 5, 6)]))
        = parse [] [] (sampleHeader ++ encodeAll ([sampleBatch (1, 2, 3)]
          ++ [sampleBatch (4, 5, 6)]))
      ∧ ∃ p q, parse [] [] (sampleHeader ++ encodeAll [sampleBatch (1, 2, 3), sampleBatch (4, 5, 6)])
            = .ok p
          ∧ parse [] [] (sampleHeader ++ encodeAll [sampleBatch (4, 5, 6), sampleBatch (1, 2, 3)])
            = .ok q
          ∧ SameUpToEdgeOrder p q := by
  have hvalid : ValidHeader sampleHeader := ⟨by decide, by decide, by decide, by decide⟩
  refine ⟨?_, ?_⟩
  · exact (parse_forwardCompatible [] [] [] [] sampleHeader (by decide) hvalid
      [sampleBatch (1, 2, 3)] [sampleBatch (4, 5, 6)]).1 _ (by decide)
  · refine (parse_forwardCompatible [] [] [] [] sampleHeader (by decide) hvalid
      [sampleBatch (1, 2, 3), sampleBatch (4, 5, 6)]
      [sampleBatch (4, 5, 6), sampleBatch (1, 2, 3)]).2.2.1 (by decide) ?_
    exact List.Perm.swap _ _ _

end QemuProfiler.Format

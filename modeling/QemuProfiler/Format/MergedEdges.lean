/-
  QemuProfiler.Format.MergedEdges
  ───────────────────────────────
  **EVERY ACCEPTED FILE HAS MERGED EDGES.**

  Streaming flushes write one edge into many batches.  `decodedEdges` is what
  the batches of one kind say, batch by batch as `parse_edge_batch` reads them;
  the parsed lists have its keys once each, with their totals, and
  `merged_edges` adds the two lists up.
-/
import QemuProfiler.Format.Compatibility

namespace QemuProfiler.Format

open QemuProfiler.Lib QemuProfiler.Plugin
open QemuProfiler.Convert hiding fileMagic FileHeader

/-! ## §1. Decoded entries. -/

/-- The entries of all batches of one tag, in file order. -/
def decodedEdges (tag : UInt8) (file : List UInt8) : List EdgeRecord :=
  (recordsOf file).flatMap fun r => if r.1 = tag then (parseEdgeBatch r.2).getD [] else []

/-- A batch never fails to decode. -/
theorem parseEdgeBatch_eq (payload : List UInt8) :
    parseEdgeBatch payload = some (entriesIn 24 (tripleFrom EdgeRecord.mk) payload) := by
  unfold parseEdgeBatch
  exact parseBatch_eq (by omega) payload (tripleAt_eq EdgeRecord.mk payload)

theorem decodedEdges_eq (tag : UInt8) (file : List UInt8) :
    decodedEdges tag file = edgesIn tag (recordsOf file) := by
  unfold decodedEdges edgesIn
  congr 1
  funext r
  rw [parseEdgeBatch_eq, Option.getD_some]

/-! ## §2. `merged_edges`. -/

theorem mergedEdges_eq (p : Profile) :
    p.mergedEdges
      = HashMap.tally ((p.branchEdges ++ p.fallThroughEdges).map EdgeRecord.counted) := by
  unfold Profile.mergedEdges HashMap.tally
  rw [List.map_append, List.foldl_append, List.foldl_map, List.foldl_map]
  rfl

/-- **`merged_edges` sums over both lists**, and has no other key. -/
theorem lookup_mergedEdges (p : Profile) (k : UInt64 × UInt64) :
    p.mergedEdges.lookup k
      = if k ∈ p.branchEdges.map EdgeRecord.key ∨ k ∈ p.fallThroughEdges.map EdgeRecord.key then
          some (sumAt k (p.branchEdges.map EdgeRecord.counted)
            + sumAt k (p.fallThroughEdges.map EdgeRecord.counted))
        else none := by
  rw [mergedEdges_eq, HashMap.lookup_tally, map_fst_counted, List.map_append, List.map_append,
      sumAt_append]
  simp only [List.mem_append]

/-! ## §3. The parsed edges. -/

theorem mergeOf_parse {ρb ρf : IterOrder} {file : List UInt8} {p : Profile}
    (h : parse ρb ρf file = .ok p) :
    MergeOf (decodedEdges 0x21 file) p.branchEdges
      ∧ MergeOf (decodedEdges 0x23 file) p.fallThroughEdges := by
  have hvalid : ValidHeader file := by
    by_contra hinvalid
    obtain ⟨text, htext⟩ := parse_invalid ρb ρf hinvalid
    rw [htext] at h
    cases h
  rw [parse_valid ρb ρf hvalid] at h
  cases h
  rw [decodedEdges_eq, decodedEdges_eq]
  constructor
  · show MergeOf _ (mergeEdges ρb (decodeRecords _ _).branchEdges)
    rw [branchEdges_decodeRecords]
    exact mergeEdges_spec ρb _
  · show MergeOf _ (mergeEdges ρf (decodeRecords _ _).fallThroughEdges)
    rw [fallThroughEdges_decodeRecords]
    exact mergeEdges_spec ρf _

/-- **THE EDGES OF EVERY ACCEPTED FILE ARE MERGED**: each key that the batches
of a kind mention once, with the sum of its counts; and `merged_edges` of every
profile maps each key to its total over both lists. -/
theorem parse_merges_edges (ρb ρf : IterOrder) (file : List UInt8) (p : Profile)
    (h : parse ρb ρf file = .ok p) :
    MergeOf (decodedEdges 0x21 file) p.branchEdges
      ∧ MergeOf (decodedEdges 0x23 file) p.fallThroughEdges
      ∧ ∀ (q : Profile) (k : UInt64 × UInt64), q.mergedEdges.lookup k
          = if k ∈ q.branchEdges.map EdgeRecord.key
                ∨ k ∈ q.fallThroughEdges.map EdgeRecord.key then
              some (sumAt k (q.branchEdges.map EdgeRecord.counted)
                + sumAt k (q.fallThroughEdges.map EdgeRecord.counted))
            else none := by
  obtain ⟨hb, hf⟩ := mergeOf_parse h
  exact ⟨hb, hf, lookup_mergedEdges⟩

/-- A log of two flushes that mention one branch edge twice. -/
def flushedTwice : List UInt8 :=
  (callsNext (ProfileWriter.new 1 false true 0 0 0 0)
    [.branchEdgeBatch [(0x10, 0x20, 3), (0x10, 0x30, 1)], .branchEdgeBatch [(0x10, 0x20, 4)],
      .fallThroughBatch [(0x10, 0x20, 5)]]).writer

theorem validHeader_flushedTwice : ValidHeader flushedTwice :=
  ⟨by decide +kernel, by decide +kernel, by decide +kernel, .inr (by decide +kernel)⟩

theorem parse_merges_edges_flushedTwice : ∃ p, parse [] [] flushedTwice = .ok p
    ∧ MergeOf (decodedEdges 0x21 flushedTwice) p.branchEdges
    ∧ (decodedEdges 0x21 flushedTwice).length = 3
    ∧ p.branchEdges.length = 2
    ∧ p.mergedEdges.lookup (0x10, 0x20) = some 12 := by
  have hparse := parse_valid [] [] validHeader_flushedTwice
  refine ⟨_, hparse, (parse_merges_edges [] [] flushedTwice _ hparse).1, by decide +kernel,
    by decide +kernel, by decide +kernel⟩

end QemuProfiler.Format

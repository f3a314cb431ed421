/-
  QemuProfiler.Format.Totals
  ──────────────────────────
  **THE FOOTER AGREES WITH THE CONTENTS.**

  The writer bumps its statistics chunk by chunk while it splits batches; the
  reader counts the entries it decoded and merges the edges.  After any calls
  that end in their only footer the two agree, and the merged edges are fewer
  than the footer says exactly when a key was written twice.
-/
import QemuProfiler.Format.Compatibility
import QemuProfiler.Format.CrashTolerance

namespace QemuProfiler.Format

open QemuProfiler.Lib QemuProfiler.Plugin
open QemuProfiler.Convert hiding fileMagic FileHeader

/-! ## §1. How many edges a merge leaves. -/

theorem MergeOf.length_le {edges merged : List EdgeRecord} (h : MergeOf edges merged) :
    merged.length ≤ edges.length := by
  have hsub : merged.map EdgeRecord.key ⊆ edges.map EdgeRecord.key :=
    fun k hk => (h.mem_key k).mp hk
  have hle := (List.subperm_of_subset h.nodup hsub).length_le
  rwa [List.length_map, List.length_map] at hle

/-- **Nothing was merged exactly when no key occurs twice.** -/
theorem MergeOf.length_eq_iff {edges merged : List EdgeRecord} (h : MergeOf edges merged) :
    merged.length = edges.length ↔ (edges.map EdgeRecord.key).Nodup := by
  have hsub : merged.map EdgeRecord.key ⊆ edges.map EdgeRecord.key :=
    fun k hk => (h.mem_key k).mp hk
  constructor
  · intro hlen
    have hperm := (List.subperm_of_subset h.nodup hsub).perm_of_length_le
      (by rw [List.length_map, List.length_map, hlen])
    exact hperm.nodup_iff.mp h.nodup
  · intro hnd
    have hback : edges.map EdgeRecord.key ⊆ merged.map EdgeRecord.key :=
      fun k hk => (h.mem_key k).mpr hk
    have hle := (List.subperm_of_subset hnd hback).length_le
    rw [List.length_map, List.length_map] at hle
    exact Nat.le_antisymm h.length_le hle

/-! ## §2. A log is longer than its entries are many. -/

theorem mul_entryCount_le (size : Nat) (payload : List UInt8) :
    size * entryCount size payload ≤ payload.length := by
  unfold entryCount
  by_cases h4 : payload.length < 4
  · rw [if_pos h4]
    omega
  · rw [if_neg h4]
    have hmin := Nat.mul_le_mul_left size (Nat.min_le_right
      (u32OfLe (bytesAt payload 0 4)).toNat ((payload.length - 4) / size))
    have hdiv := Nat.mul_div_le (payload.length - 4) size
    omega

/-- Every entry of a tag takes its `size` bytes of the log. -/
theorem mul_length_entries_le {ε : Type} (size : Nat) (entryFrom : List UInt8 → Nat → ε)
    (tag : UInt8) (fs : List (Frame 3)) :
    size * ((fs.map Frame.view).flatMap fun r =>
        if r.1 = tag then entriesIn size entryFrom r.2 else []).length
      ≤ (encodeAll fs).length := by
  induction fs with
  | nil => exact Nat.le_refl 0
  | cons f fs ih =>
      have hone : size * (if f.view.1 = tag then entriesIn size entryFrom f.view.2 else []).length
          ≤ f.payload.length := by
        split
        · rw [length_entriesIn]
          exact mul_entryCount_le size f.payload
        · exact Nat.zero_le _
      rw [List.map_cons, List.flatMap_cons, List.length_append, encodeAll_cons, List.length_append,
          Frame.length_encode, Nat.mul_add]
      omega

/-! ## §3. The footer. -/

/-- Edge entries of either kind. -/
theorem length_edgeEntries (cs : List WriteCall) :
    (cs.flatMap WriteCall.edgeEntries).length
      = (cs.flatMap branchEdgesOf).length + (cs.flatMap fallThroughEdgesOf).length := by
  induction cs with
  | nil => rfl
  | cons c cs ih =>
      have hc : c.edgeEntries.length = (branchEdgesOf c).length + (fallThroughEdgesOf c).length := by
        cases c <;> simp [WriteCall.edgeEntries, branchEdgesOf, fallThroughEdgesOf]
      rw [List.flatMap_cons, List.flatMap_cons, List.flatMap_cons, List.length_append,
          List.length_append, List.length_append]
      omega

/-- The only footer, at the end. -/
theorem footersAfter_append_footer (ds : List WriteCall) (hds : ∀ d ∈ ds, isFooter d = false)
    (t : UInt64) :
    ∀ before : List WriteCall, footersAfter before (ds ++ [.footer t])
      = footersAfter (before ++ ds) [.footer t] := by
  induction ds with
  | nil => intro before; rw [List.append_nil]; rfl
  | cons d ds ih =>
      intro before
      have hrest := ih (fun e he => hds e (by simp [he])) (before ++ [d])
      have hd := hds d (by simp)
      rw [List.append_assoc, List.singleton_append] at hrest
      cases d with
      | footer t' => exact absurd hd (by simp [isFooter])
      | _ => exact hrest

section Totals

variable (tier : UInt8) (sysemu streaming : Bool)
  (loadAddr textStart textEnd entryAddr : UInt64) (ρb ρf : IterOrder)

/-- The entries of the calls fit the log they wrote. -/
theorem entries_le_length (cs : List WriteCall) (w₀ : ProfileWriter) (header : Convert.FileHeader) :
    40 * (cs.flatMap tbExecsOf).length ≤ (callsNext w₀ cs).writer.length
      ∧ 24 * (cs.flatMap branchEdgesOf).length ≤ (callsNext w₀ cs).writer.length
      ∧ 24 * (cs.flatMap fallThroughEdgesOf).length ≤ (callsNext w₀ cs).writer.length := by
  -- the parser sees the calls and the frames: both say what the entries are
  have hsame : decodeRecords ((callsFrames w₀ cs).map Frame.view) (Profile.ofHeader header)
      = callsEffect w₀ cs (Profile.ofHeader header) := by
    have h := applyRecords_callsFrames cs w₀ (Profile.ofHeader header)
    rw [applyRecords_eq] at h
    exact Option.some.inj h
  have htb := tbExecs_callsEffect cs w₀ (Profile.ofHeader header)
  have hb := branchEdges_callsEffect cs w₀ (Profile.ofHeader header)
  have hf := fallThroughEdges_callsEffect cs w₀ (Profile.ofHeader header)
  rw [← hsame, field_decodeRecords Profile.tbExecs _ (fun r p => rfl)] at htb
  rw [← hsame, branchEdges_decodeRecords] at hb
  rw [← hsame, fallThroughEdges_decodeRecords] at hf
  rw [← List.append_cancel_left htb, ← List.append_cancel_left hb,
      ← List.append_cancel_left hf, writer_callsNext, List.length_append]
  have htb' := mul_length_entries_le 40 tbExecFrom 0x13 (callsFrames w₀ cs)
  have hb' := mul_length_entries_le 24 (tripleFrom EdgeRecord.mk) 0x21 (callsFrames w₀ cs)
  have hf' := mul_length_entries_le 24 (tripleFrom EdgeRecord.mk) 0x23 (callsFrames w₀ cs)
  unfold edgesIn
  exact ⟨by omega, by omega, by omega⟩

/-- What the parser reads from a log with one footer, at its end. -/
theorem parse_footerLast (ds : List WriteCall) (hds : ∀ d ∈ ds, isFooter d = false) (t : UInt64) :
    ∃ p, parse ρb ρf (callsNext (ProfileWriter.new tier sysemu streaming loadAddr textStart
          textEnd entryAddr) (ds ++ [.footer t])).writer = .ok p
      ∧ p.tbExecs = (ds.flatMap WriteCall.tbEntries).map tbExecOf
      ∧ MergeOf (ds.flatMap branchEdgesOf) p.branchEdges
      ∧ MergeOf (ds.flatMap fallThroughEdgesOf) p.fallThroughEdges
      ∧ p.footer = some ⟨UInt64.ofNat (ds.flatMap WriteCall.tbEntries).length,
          UInt64.ofNat (ds.flatMap WriteCall.edgeEntries).length,
          ((ds.flatMap WriteCall.tbEntries).map (fun e => e.2.2.2.1)).sum, t, true⟩ := by
  refine ⟨_, parse_callsNext tier sysemu streaming loadAddr textStart textEnd entryAddr ρb ρf _,
    ?_, ?_, ?_, ?_⟩
  · show (callsEffect _ _ _).tbExecs = _
    rw [tbExecs_callsEffect, List.flatMap_append,
        show [WriteCall.footer t].flatMap tbExecsOf = [] from rfl, List.append_nil,
        List.map_flatMap]
    rfl
  · show MergeOf _ (mergeEdges ρb (callsEffect _ _ _).branchEdges)
    rw [branchEdges_callsEffect, List.flatMap_append,
        show [WriteCall.footer t].flatMap branchEdgesOf = [] from rfl, List.append_nil]
    exact mergeEdges_spec ρb _
  · show MergeOf _ (mergeEdges ρf (callsEffect _ _ _).fallThroughEdges)
    rw [fallThroughEdges_callsEffect, List.flatMap_append,
        show [WriteCall.footer t].flatMap fallThroughEdgesOf = [] from rfl, List.append_nil]
    exact mergeEdges_spec ρf _
  · have hfoot := footer_callsEffect (ProfileWriter.new tier sysemu streaming loadAddr textStart
      textEnd entryAddr) rfl rfl rfl (ds ++ [.footer t]) [] (Profile.ofHeader
        (headerOf tier sysemu streaming loadAddr textStart textEnd entryAddr))
    rw [footersAfter_append_footer ds hds] at hfoot
    exact hfoot

/-- **FOOTER TOTALS.**  After any calls that end in their only footer, the
parsed footer counts the parsed TBs and their executions, and the edge entries
written; merging leaves fewer edges exactly when a key was written twice.  The
64-bit fields are the exact numbers for every log below 2^64 bytes. -/
theorem footer_totals (ds : List WriteCall) (hds : ∀ d ∈ ds, isFooter d = false) (t : UInt64) :
    ∃ w p f,
      runCalls (ds ++ [.footer t]) (ProfileWriter.new tier sysemu streaming loadAddr textStart
          textEnd entryAddr) = .ok () w
        ∧ parse ρb ρf w.writer = .ok p
        ∧ p.footer = some f
        ∧ f.totalTbCount = UInt64.ofNat p.tbExecs.length
        ∧ f.totalExecCount = (p.tbExecs.map TbExec.execCount).sum
        ∧ f.totalEdgeRecords = UInt64.ofNat (ds.flatMap WriteCall.edgeEntries).length
        ∧ p.branchEdges.length + p.fallThroughEdges.length
            ≤ (ds.flatMap WriteCall.edgeEntries).length
        ∧ ((ds.flatMap WriteCall.edgeEntries).length
              = p.branchEdges.length + p.fallThroughEdges.length
            ↔ ((ds.flatMap branchEdgesOf).map EdgeRecord.key).Nodup
              ∧ ((ds.flatMap fallThroughEdgesOf).map EdgeRecord.key).Nodup)
        ∧ (w.writer.length < 2 ^ 64 →
            f.totalTbCount.toNat = p.tbExecs.length
            ∧ f.totalEdgeRecords.toNat = (ds.flatMap WriteCall.edgeEntries).length) := by
  obtain ⟨p, hparse, htb, hb, hf, hfoot⟩ := parse_footerLast tier sysemu streaming loadAddr
    textStart textEnd entryAddr ρb ρf ds hds t
  obtain ⟨htbLen, hbLen, hfLen⟩ := entries_le_length (ds ++ [.footer t])
    (ProfileWriter.new tier sysemu streaming loadAddr textStart textEnd entryAddr)
    (headerOf tier sysemu streaming loadAddr textStart textEnd entryAddr)
  have hcount : p.tbExecs.length = (ds.flatMap WriteCall.tbEntries).length := by
    rw [htb, List.length_map]
  have hedges := length_edgeEntries ds
  have hble := hb.length_le
  have hfle := hf.length_le
  refine ⟨_, p, _, runCalls_eq _ _, hparse, hfoot, ?_, ?_, rfl, by omega, ?_, ?_⟩
  · rw [hcount]
  · rw [htb, List.map_map]
    rfl
  -- merging shortens a list exactly when it has a key twice
  · rw [← hb.length_eq_iff, ← hf.length_eq_iff]
    omega
  · intro hlen
    -- each entry takes at least one byte of the log
    rw [List.flatMap_append, List.length_append] at htbLen hbLen hfLen
    have htbOf : (ds.flatMap tbExecsOf).length = (ds.flatMap WriteCall.tbEntries).length := by
      simp [tbExecsOf, List.length_flatMap]
    refine ⟨?_, ?_⟩
    · rw [hcount]
      exact UInt64.toNat_ofNat_of_lt' (show _ < 2 ^ 64 by omega)
    · exact UInt64.toNat_ofNat_of_lt' (show _ < 2 ^ 64 by omega)

theorem footer_totals_sample :
    ∃ w p f, runCalls (sampleCalls.dropLast ++ [.footer 9])
          (ProfileWriter.new 1 false true 0 0 0 0) = .ok () w
      ∧ parse [] [] w.writer = .ok p ∧ p.footer = some f
      ∧ f.totalTbCount = UInt64.ofNat p.tbExecs.length
      ∧ f.totalEdgeRecords = 2
      ∧ ¬ 2 = p.branchEdges.length + p.fallThroughEdges.length := by
  obtain ⟨w, p, f, hrun, hparse, hfoot, htb, -, hedge, -, hiff, -⟩ :=
    footer_totals 1 false true 0 0 0 0 [] [] sampleCalls.dropLast (by decide) 9
  refine ⟨w, p, f, hrun, hparse, hfoot, htb, hedge, ?_⟩
  intro heq
  -- one edge was written in two batches
  exact absurd (hiff.mp heq).1 (by decide)

end Totals

end QemuProfiler.Format

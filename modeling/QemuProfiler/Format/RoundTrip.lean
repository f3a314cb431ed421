/-
  QemuProfiler.Format.RoundTrip
  ─────────────────────────────
  **DECODE UNDOES ENCODE** over the whole log format.

  The content of a log is stated from the CALLS alone: one `…Of` function per
  record kind says what a call contributes, and the parsed profile is the
  concatenation of the contributions (lists), the last contribution (metadata,
  footer) or the merge of the contributions (edges).
-/
import QemuProfiler.Format.RecordLaws

namespace QemuProfiler.Format

open QemuProfiler.Lib QemuProfiler.Plugin
open QemuProfiler.Convert hiding fileMagic FileHeader

/-! ## §1. Merging edges. -/

/-- `merged` lists every key of `edges` exactly once, with the sum (mod 2^64)
of the counts the key has in `edges`. -/
structure MergeOf (edges merged : List EdgeRecord) : Prop where
  nodup : (merged.map EdgeRecord.key).Nodup
  mem_key : ∀ k, k ∈ merged.map EdgeRecord.key ↔ k ∈ edges.map EdgeRecord.key
  count : ∀ e ∈ merged, e.count = sumAt e.key (edges.map EdgeRecord.counted)

theorem map_fst_counted (edges : List EdgeRecord) :
    (edges.map EdgeRecord.counted).map Prod.fst = edges.map EdgeRecord.key := by
  rw [List.map_map]
  rfl

/-- Without duplicates the list is its own merge. -/
theorem MergeOf.self {edges : List EdgeRecord} (h : (edges.map EdgeRecord.key).Nodup) :
    MergeOf edges edges where
  nodup := h
  mem_key := fun _ => Iff.rfl
  count := by
    intro e he
    have hnd : ((edges.map EdgeRecord.counted).map Prod.fst).Nodup := by
      rw [map_fst_counted]
      exact h
    have hmem : (e.key, e.count) ∈ edges.map EdgeRecord.counted :=
      List.mem_map.mpr ⟨e, he, rfl⟩
    exact (sumAt_of_mem hnd hmem).symm

/-- The tally, in any iteration order, is a merge. -/
theorem MergeOf.tally (ρ : IterOrder) (edges : List EdgeRecord) :
    MergeOf edges (((HashMap.tally (edges.map EdgeRecord.counted)).iter ρ).map
      fun ((src, dst), count) => ⟨src, dst, count⟩) := by
  have hperm := shuffle_perm ρ (HashMap.tally (edges.map EdgeRecord.counted)).items
  have hkeys : ((((HashMap.tally (edges.map EdgeRecord.counted)).iter ρ).map
      fun ((src, dst), count) => (⟨src, dst, count⟩ : EdgeRecord)).map EdgeRecord.key).Perm
      (HashMap.tally (edges.map EdgeRecord.counted)).keys := by
    rw [← HashMap.keys_eq, List.map_map]
    exact hperm.map _
  refine ⟨?_, ?_, ?_⟩
  · exact hkeys.nodup_iff.mpr (AList.keys_nodup _)
  · intro k
    rw [hkeys.mem_iff, ← AList.mem_keys, HashMap.mem_tally, map_fst_counted]
  · intro e he
    obtain ⟨⟨⟨src, dst⟩, count⟩, hin, rfl⟩ := List.mem_map.mp he
    have hlook := HashMap.mem_items.mp (hperm.mem_iff.mp hin)
    rw [HashMap.lookup_tally] at hlook
    split at hlook
    · exact (Option.some.inj hlook).symm
    · exact absurd hlook (by simp)

/-- **`mergeEdges` merges**, on each of its three exits. -/
theorem mergeEdges_spec (ρ : IterOrder) (edges : List EdgeRecord) :
    MergeOf edges (mergeEdges ρ edges) := by
  unfold mergeEdges
  by_cases hone : edges.length ≤ 1
  · -- at most one edge: nothing to merge
    rw [if_pos hone]
    apply MergeOf.self
    match edges, hone with
    | [], _ => exact List.nodup_nil
    | [e], _ => exact List.nodup_singleton _
  · rw [if_neg hone]
    by_cases hlen : (HashMap.tally (edges.map EdgeRecord.counted)).len = edges.length
    · -- as many keys as edges: no duplicates
      have hnd := HashMap.nodup_of_len_tally (hlen.trans (List.length_map _).symm)
      rw [map_fst_counted] at hnd
      show MergeOf edges (if _ = _ then edges else _)
      rw [if_pos hlen]
      exact MergeOf.self hnd
    · show MergeOf edges (if _ = _ then edges else _)
      rw [if_neg hlen]
      exact MergeOf.tally ρ edges

/-! ## §2. Parsing what follows a header. -/

/-- The last step of `parse`. -/
def merged (ρb ρf : IterOrder) (p : Profile) : Profile :=
  { p with
    branchEdges := mergeEdges ρb p.branchEdges
    fallThroughEdges := mergeEdges ρf p.fallThroughEdges }

section Log

variable (tier : UInt8) (sysemu streaming : Bool)
  (loadAddr textStart textEnd entryAddr : UInt64) (ρb ρf : IterOrder)

/-- Parsing a log applies the frames after its header. -/
theorem parse_new (rest : List UInt8) :
    parse ρb ρf ((ProfileWriter.new tier sysemu streaming loadAddr textStart textEnd
        entryAddr).writer ++ rest)
      = match applyRecords (frames 3 rest) (Profile.ofHeader
            (headerOf tier sysemu streaming loadAddr textStart textEnd entryAddr)) with
        | none => .error .panicked
        | some p => .ok (merged ρb ρf p) := by
  unfold parse
  rw [parseHeader_new, ok_bind]
  dsimp only
  rw [recordLoop_eq _ _ _ (Nat.lt_succ_self _)]
  cases applyRecords (frames 3 rest) (Profile.ofHeader
    (headerOf tier sysemu streaming loadAddr textStart textEnd entryAddr)) <;> rfl

/-- Parsing the log of a sequence of calls. -/
theorem parse_callsNext (cs : List WriteCall) :
    parse ρb ρf (callsNext (ProfileWriter.new tier sysemu streaming loadAddr textStart textEnd
        entryAddr) cs).writer
      = .ok (merged ρb ρf (callsEffect (ProfileWriter.new tier sysemu streaming loadAddr
          textStart textEnd entryAddr) cs (Profile.ofHeader
            (headerOf tier sysemu streaming loadAddr textStart textEnd entryAddr)))) := by
  rw [writer_callsNext, parse_new, frames_encodeAll, applyRecords_callsFrames]

end Log

/-! ## §3. What the calls wrote. -/

/-- The sizes the length fields can hold. -/
def WellSized : WriteCall → Prop
  | .stringMeta key value => (asBytes key).length ≤ 255 ∧ (asBytes value).length ≤ 65535
  | .symbolEntry _ _ name => (asBytes name).length ≤ 65535
  | _ => True

instance (c : WriteCall) : Decidable (WellSized c) :=
  match c with
  | .stringMeta key value =>
      inferInstanceAs (Decidable ((asBytes key).length ≤ 255 ∧ (asBytes value).length ≤ 65535))
  | .symbolEntry _ _ name => inferInstanceAs (Decidable ((asBytes name).length ≤ 65535))
  | .tbExecBatch _ | .branchEdgeBatch _ | .fallThroughBatch _ | .flushMarker _ _ _
  | .directCallBatch _ | .indirectCallBatch _ | .tbResource _ _ _ | .deviceAccess _ _
  | .discontinuity _ _ _ _ | .footer _ => inferInstanceAs (Decidable True)

def metaOf : WriteCall → List (String × String)
  | .stringMeta key value => [(key, value)]
  | _ => []

def symbolsOf : WriteCall → List SymbolRecord
  | .symbolEntry symId addr name => [⟨symId, addr, name⟩]
  | _ => []

def tbExecsOf (c : WriteCall) : List TbExec := c.tbEntries.map tbExecOf

def branchEdgesOf : WriteCall → List EdgeRecord
  | .branchEdgeBatch edges => edges.map edgeOf
  | _ => []

def fallThroughEdgesOf : WriteCall → List EdgeRecord
  | .fallThroughBatch edges => edges.map edgeOf
  | _ => []

def directCallsOf : WriteCall → List CallRecord
  | .directCallBatch calls => calls.map callOf
  | _ => []

def indirectCallsOf : WriteCall → List CallRecord
  | .indirectCallBatch calls => calls.map callOf
  | _ => []

def tbResourcesOf : WriteCall → List TbResourceRecord
  | .tbResource tbAddr coprocFlags vcpuMask => [⟨tbAddr, coprocFlags, vcpuMask⟩]
  | _ => []

def disconEventsOf : WriteCall → List DisconRecord
  | .discontinuity disconType fromPc toPc count => [⟨disconType, fromPc, toPc, count⟩]
  | _ => []

/-- The last value written for a key. -/
def lastValue (k : String) (cs : List WriteCall) : Option String :=
  (((cs.flatMap metaOf).filter (fun kv => kv.1 = k)).map Prod.snd).getLast?

/-- The footers written by `cs` after the calls `before`: each one reports
the number of TB entries, of edge entries and of executions written before it. -/
def footersAfter (before : List WriteCall) : List WriteCall → List Footer
  | [] => []
  | .footer wallTimeNs :: cs =>
      ⟨UInt64.ofNat (before.flatMap WriteCall.tbEntries).length,
        UInt64.ofNat (before.flatMap WriteCall.edgeEntries).length,
        ((before.flatMap WriteCall.tbEntries).map (fun e => e.2.2.2.1)).sum, wallTimeNs, true⟩
        :: footersAfter (before ++ [.footer wallTimeNs]) cs
  | c :: cs => footersAfter (before ++ [c]) cs

/-! ## §4. The effect of the calls, field by field. -/

/-- **List fields**: a field that every call extends by its contribution is
extended by the concatenation. -/
theorem field_callsEffect {α : Type} (field : Profile → List α) (contrib : WriteCall → List α)
    (cs : List WriteCall)
    (hstep : ∀ c ∈ cs, ∀ w p, field (effect w c p) = field p ++ contrib c) :
    ∀ w p, field (callsEffect w cs p) = field p ++ cs.flatMap contrib := by
  induction cs with
  | nil => intro w p; simp [callsEffect]
  | cons c cs ih =>
      intro w p
      show field (callsEffect (c.next w) cs (effect w c p)) = _
      rw [ih (fun d hd => hstep d (by simp [hd])), hstep c (by simp), List.flatMap_cons,
          List.append_assoc]

theorem tbExecs_callsEffect (cs : List WriteCall) (w : ProfileWriter) (p : Profile) :
    (callsEffect w cs p).tbExecs = p.tbExecs ++ cs.flatMap tbExecsOf :=
  field_callsEffect Profile.tbExecs tbExecsOf cs
    (by intro c _ w p; cases c <;> simp [effect, tbExecsOf, WriteCall.tbEntries]) w p

theorem branchEdges_callsEffect (cs : List WriteCall) (w : ProfileWriter) (p : Profile) :
    (callsEffect w cs p).branchEdges = p.branchEdges ++ cs.flatMap branchEdgesOf :=
  field_callsEffect Profile.branchEdges branchEdgesOf cs
    (by intro c _ w p; cases c <;> simp [effect, branchEdgesOf]) w p

theorem fallThroughEdges_callsEffect (cs : List WriteCall) (w : ProfileWriter) (p : Profile) :
    (callsEffect w cs p).fallThroughEdges
      = p.fallThroughEdges ++ cs.flatMap fallThroughEdgesOf :=
  field_callsEffect Profile.fallThroughEdges fallThroughEdgesOf cs
    (by intro c _ w p; cases c <;> simp [effect, fallThroughEdgesOf]) w p

theorem directCalls_callsEffect (cs : List WriteCall) (w : ProfileWriter) (p : Profile) :
    (callsEffect w cs p).directCalls = p.directCalls ++ cs.flatMap directCallsOf :=
  field_callsEffect Profile.directCalls directCallsOf cs
    (by intro c _ w p; cases c <;> simp [effect, directCallsOf]) w p

theorem indirectCalls_callsEffect (cs : List WriteCall) (w : ProfileWriter) (p : Profile) :
    (callsEffect w cs p).indirectCalls = p.indirectCalls ++ cs.flatMap indirectCallsOf :=
  field_callsEffect Profile.indirectCalls indirectCallsOf cs
    (by intro c _ w p; cases c <;> simp [effect, indirectCallsOf]) w p

theorem tbResources_callsEffect (cs : List WriteCall) (w : ProfileWriter) (p : Profile) :
    (callsEffect w cs p).tbResources = p.tbResources ++ cs.flatMap tbResourcesOf :=
  field_callsEffect Profile.tbResources tbResourcesOf cs
    (by intro c _ w p; cases c <;> simp [effect, tbResourcesOf]) w p

theorem disconEvents_callsEffect (cs : List WriteCall) (w : ProfileWriter) (p : Profile) :
    (callsEffect w cs p).disconEvents = p.disconEvents ++ cs.flatMap disconEventsOf :=
  field_callsEffect Profile.disconEvents disconEventsOf cs
    (by intro c _ w p; cases c <;> simp [effect, disconEventsOf]) w p

/-- Symbol names come back unchanged when they fit their length field. -/
theorem symbols_callsEffect (cs : List WriteCall) (hs : ∀ c ∈ cs, WellSized c)
    (w : ProfileWriter) (p : Profile) :
    (callsEffect w cs p).symbols = p.symbols ++ cs.flatMap symbolsOf := by
  refine field_callsEffect Profile.symbols symbolsOf cs ?_ w p
  intro c hc w p
  have hsize := hs c hc
  cases c with
  | symbolEntry symId addr name =>
      show p.symbols ++ [⟨symId, addr, storedText 65535 name⟩] = _
      rw [storedText_eq hsize]
      rfl
  | _ => simp [effect, symbolsOf]

theorem header_callsEffect (cs : List WriteCall) :
    ∀ (w : ProfileWriter) (p : Profile), (callsEffect w cs p).header = p.header := by
  induction cs with
  | nil => intro w p; rfl
  | cons c cs ih =>
      intro w p
      show (callsEffect (c.next w) cs (effect w c p)).header = _
      rw [ih]
      cases c <;> rfl

/-- **Metadata**: the last value written for the key, else the old one. -/
theorem metadata_callsEffect (k : String) (cs : List WriteCall)
    (hs : ∀ c ∈ cs, WellSized c) :
    ∀ (w : ProfileWriter) (p : Profile),
      (callsEffect w cs p).metadata.lookup k = (lastValue k cs).or (p.metadata.lookup k) := by
  induction cs with
  | nil => intro w p; rfl
  | cons c cs ih =>
      intro w p
      have hcs : ∀ d ∈ cs, WellSized d := fun d hd => hs d (by simp [hd])
      show (callsEffect (c.next w) cs (effect w c p)).metadata.lookup k = _
      rw [ih hcs]
      cases c with
      | stringMeta key value =>
          -- a well-sized pair is stored as it is, not clipped
          have hsize : (asBytes key).length ≤ 255 ∧ (asBytes value).length ≤ 65535 :=
            hs (.stringMeta key value) (by simp)
          have heff : (effect w (.stringMeta key value) p).metadata
              = p.metadata.insert key value := by
            show p.metadata.insert (storedText 255 key) (storedText 65535 value) = _
            rw [storedText_eq hsize.1, storedText_eq hsize.2]
          have hlast : lastValue k (.stringMeta key value :: cs)
              = (lastValue k cs).or (if key = k then some value else none) := by
            unfold lastValue
            rw [List.flatMap_cons]
            by_cases hk : key = k
            · simp [metaOf, hk, List.getLast?_cons, Option.or_some]
            · simp [metaOf, hk]
          rw [heff, hlast, Option.or_assoc]
          congr 1
          by_cases hk : key = k
          · rw [if_pos hk, hk, AList.lookup_insert]
            rfl
          · rw [if_neg hk, AList.lookup_insert_ne (Ne.symm hk)]
            rfl
      | _ => rfl

/-- The statistics count what has been written. -/
theorem totals_callsNext (cs : List WriteCall) :
    ∀ w : ProfileWriter,
      (callsNext w cs).totalTbCount
          = w.totalTbCount + UInt64.ofNat (cs.flatMap WriteCall.tbEntries).length
        ∧ (callsNext w cs).totalEdgeRecords
          = w.totalEdgeRecords + UInt64.ofNat (cs.flatMap WriteCall.edgeEntries).length
        ∧ (callsNext w cs).totalExecCount
          = w.totalExecCount
            + ((cs.flatMap WriteCall.tbEntries).map (fun e => e.2.2.2.1)).sum := by
  induction cs with
  | nil => intro w; simp [callsNext]
  | cons c cs ih =>
      intro w
      obtain ⟨h₁, h₂, h₃⟩ := ih (c.next w)
      have hnext : callsNext w (c :: cs) = callsNext (c.next w) cs := rfl
      rw [hnext, h₁, h₂, h₃]
      refine ⟨?_, ?_, ?_⟩
      · simp [WriteCall.next, UInt64.ofNat_add, UInt64.add_assoc]
      · simp [WriteCall.next, UInt64.ofNat_add, UInt64.add_assoc]
      · simp [WriteCall.next, UInt64.add_assoc]

/-- **Footer**: the last one written, else the old one; `w₀` is a writer with
all statistics at zero. -/
theorem footer_callsEffect (w₀ : ProfileWriter) (htb : w₀.totalTbCount = 0)
    (hedge : w₀.totalEdgeRecords = 0) (hexec : w₀.totalExecCount = 0) (cs : List WriteCall) :
    ∀ (before : List WriteCall) (p : Profile),
      (callsEffect (callsNext w₀ before) cs p).footer
        = (footersAfter before cs).getLast?.or p.footer := by
  induction cs with
  | nil => intro before p; rfl
  | cons c cs ih =>
      intro before p
      have hnext : c.next (callsNext w₀ before) = callsNext w₀ (before ++ [c]) := by
        simp [callsNext]
      show (callsEffect (c.next (callsNext w₀ before)) cs
        (effect (callsNext w₀ before) c p)).footer = _
      rw [hnext, ih]
      cases c with
      | footer wallTimeNs =>
          -- the footer holds the statistics of the calls before it
          obtain ⟨h₁, h₂, h₃⟩ := totals_callsNext before w₀
          rw [htb, UInt64.zero_add] at h₁
          rw [hedge, UInt64.zero_add] at h₂
          rw [hexec, UInt64.zero_add] at h₃
          simp only [effect, footerOf, footersAfter, h₁, h₂, h₃, List.getLast?_cons]
          cases (footersAfter (before ++ [.footer wallTimeNs]) cs).getLast? <;> rfl
      | _ => rfl

/-! ## §5. The round trip. -/

/-- **DECODE UNDOES ENCODE.**  Every sequence of well-sized calls on a new
writer succeeds, and the parser returns exactly what was written. -/
theorem parse_runCalls (tier : UInt8) (sysemu streaming : Bool)
    (loadAddr textStart textEnd entryAddr : UInt64) (cs : List WriteCall)
    (hs : ∀ c ∈ cs, WellSized c) (ρb ρf : IterOrder) :
    ∃ w p,
      runCalls cs (ProfileWriter.new tier sysemu streaming loadAddr textStart textEnd entryAddr)
          = .ok () w
        ∧ parse ρb ρf w.writer = .ok p
        ∧ p.header = headerOf tier sysemu streaming loadAddr textStart textEnd entryAddr
        ∧ (∀ k, p.metadata.lookup k = lastValue k cs)
        ∧ p.symbols = cs.flatMap symbolsOf
        ∧ p.tbExecs = cs.flatMap tbExecsOf
        ∧ p.directCalls = cs.flatMap directCallsOf
        ∧ p.indirectCalls = cs.flatMap indirectCallsOf
        ∧ p.tbResources = cs.flatMap tbResourcesOf
        ∧ p.disconEvents = cs.flatMap disconEventsOf
        ∧ MergeOf (cs.flatMap branchEdgesOf) p.branchEdges
        ∧ MergeOf (cs.flatMap fallThroughEdgesOf) p.fallThroughEdges
        ∧ p.footer = (footersAfter [] cs).getLast? := by
  refine ⟨_, _, runCalls_eq cs _, parse_callsNext tier sysemu streaming loadAddr textStart
    textEnd entryAddr ρb ρf cs, ?_⟩
  simp only [merged]
  refine ⟨?_, ?_, ?_, ?_, ?_, ?_, ?_, ?_, ?_, ?_, ?_⟩
  · rw [header_callsEffect]
    rfl
  · intro k
    rw [metadata_callsEffect k cs hs]
    simp [Profile.ofHeader]
  · rw [symbols_callsEffect cs hs]
    rfl
  · rw [tbExecs_callsEffect]
    rfl
  · rw [directCalls_callsEffect]
    rfl
  · rw [indirectCalls_callsEffect]
    rfl
  · rw [tbResources_callsEffect]
    rfl
  · rw [disconEvents_callsEffect]
    rfl
  · rw [branchEdges_callsEffect]
    exact mergeEdges_spec ρb _
  · rw [fallThroughEdges_callsEffect]
    exact mergeEdges_spec ρf _
  · have h := footer_callsEffect (ProfileWriter.new tier sysemu streaming loadAddr textStart
      textEnd entryAddr) rfl rfl rfl cs [] (Profile.ofHeader
        (headerOf tier sysemu streaming loadAddr textStart textEnd entryAddr))
    rw [show (Profile.ofHeader (headerOf tier sysemu streaming loadAddr textStart textEnd
          entryAddr)).footer = none from rfl, Option.or_none] at h
    exact h

/-- A small log with every shape of record, two batches for one edge. -/
def sampleCalls : List WriteCall :=
  [.stringMeta "arch" "arm", .stringMeta "arch" "x86_64", .symbolEntry 1 0 "main",
    .tbExecBatch [(0x1000, 0x1008, 3, 5, 1)], .branchEdgeBatch [(0x1008, 0x1000, 1)],
    .flushMarker 7 0 1, .branchEdgeBatch [(0x1008, 0x1000, 3)], .deviceAccess 0x1000 "uart",
    .fallThroughBatch [], .footer 9]

theorem parse_runCalls_sample :
    ∃ w p, runCalls sampleCalls (ProfileWriter.new 1 false true 0 0 0 0) = .ok () w
      ∧ parse [] [] w.writer = .ok p
      ∧ p.metadata.lookup "arch" = some "x86_64"
      ∧ p.tbExecs = [⟨0x1000, 0x1008, 3, 5, 1⟩]
      ∧ p.footer = some ⟨1, 2, 5, 9, true⟩ := by
  obtain ⟨w, p, hrun, hparse, -, hmeta, -, htb, -, -, -, -, -, -, hfooter⟩ :=
    parse_runCalls 1 false true 0 0 0 0 sampleCalls (by decide) [] []
  exact ⟨w, p, hrun, hparse, (hmeta "arch").trans (by decide), htb.trans (by decide),
    hfooter.trans (by decide)⟩

end QemuProfiler.Format

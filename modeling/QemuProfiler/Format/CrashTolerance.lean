/-
  QemuProfiler.Format.CrashTolerance
  ──────────────────────────────────
  **A LOG CUT AT ANY BYTE READS AS ITS LAST WHOLE RECORD LEFT IT.**

  The plugin may die at any byte of a write.  The log of any sequence of
  calls, cut at byte `n`:

    • `n < 64` — inside the header: rejected with a message,
    • `64 ≤ n` — parsed like the cut at the last record boundary at or
      before `n`; what was read is part of what the whole log says
      (`PartOf`), and the clean-exit footer cannot appear early.
-/
import QemuProfiler.Format.RoundTrip

namespace QemuProfiler.Format

open QemuProfiler.Lib QemuProfiler.Plugin
open QemuProfiler.Convert hiding fileMagic FileHeader

/-! ## §1. Statements. -/

/-- Byte offset `m` ends a record (or the header) of the log. -/
def IsBoundary (w₀ : ProfileWriter) (cs : List WriteCall) (m : Nat) : Prop :=
  ∃ k ≤ (callsFrames w₀ cs).length, m = w₀.writer.length + boundary (callsFrames w₀ cs) k

/-- `m` is the last record boundary at or before `n`. -/
structure IsLastBoundary (w₀ : ProfileWriter) (cs : List WriteCall) (n m : Nat) : Prop where
  isBoundary : IsBoundary w₀ cs m
  le : m ≤ n
  last : ∀ m', IsBoundary w₀ cs m' → m' ≤ n → m' ≤ m

/-- The true total of an edge over a list of edge records. -/
def edgeTotal (k : UInt64 × UInt64) (edges : List EdgeRecord) : Nat :=
  sumAt k (edges.map (fun e => (e.key, e.count.toNat)))

/-- Every edge of `es` is in `fs` with at least the same count, as far as the
total `written` for it fits 64 bits. -/
def EdgesLe (written es fs : List EdgeRecord) : Prop :=
  ∀ e ∈ es, edgeTotal e.key written < 2 ^ 64 → ∃ f ∈ fs, f.key = e.key ∧ e.count ≤ f.count

/-- Profile `p` of a cut log is part of the profile `full` of the log. -/
structure PartOf (cs : List WriteCall) (p full : Profile) : Prop where
  header : p.header = full.header
  symbols : p.symbols <+: full.symbols
  tbExecs : p.tbExecs <+: full.tbExecs
  directCalls : p.directCalls <+: full.directCalls
  indirectCalls : p.indirectCalls <+: full.indirectCalls
  branchEdges : EdgesLe (cs.flatMap branchEdgesOf) p.branchEdges full.branchEdges
  fallThroughEdges :
    EdgesLe (cs.flatMap fallThroughEdgesOf) p.fallThroughEdges full.fallThroughEdges

/-- Is the call a footer? -/
def isFooter : WriteCall → Bool
  | .footer _ => true
  | _ => false

/-! ## §2. Edge counts only grow. -/

theorem edgeTotal_append (k : UInt64 × UInt64) (es fs : List EdgeRecord) :
    edgeTotal k (es ++ fs) = edgeTotal k es + edgeTotal k fs := by
  unfold edgeTotal
  rw [List.map_append, sumAt_append]

/-- A merged count is the true total modulo 2^64. -/
theorem sumAt_counted (k : UInt64 × UInt64) (edges : List EdgeRecord) :
    sumAt k (edges.map EdgeRecord.counted) = UInt64.ofNat (edgeTotal k edges) := by
  unfold sumAt edgeTotal sumAt
  rw [sumWhere_uint64, List.map_map]
  rfl

/-- **Merging a prefix gives at most the counts of merging the whole.** -/
theorem edgesLe_mergeEdges (ρ : IterOrder) {es fs : List EdgeRecord} (h : es <+: fs) :
    EdgesLe fs (mergeEdges ρ es) (mergeEdges ρ fs) := by
  obtain ⟨rest, rfl⟩ := h
  intro e he hfit
  have hes := mergeEdges_spec ρ es
  have hfs := mergeEdges_spec ρ (es ++ rest)
  -- the key is still there in the longer list
  have hkey : e.key ∈ (mergeEdges ρ (es ++ rest)).map EdgeRecord.key := by
    rw [hfs.mem_key, List.map_append, List.mem_append]
    exact Or.inl ((hes.mem_key _).mp (List.mem_map.mpr ⟨e, he, rfl⟩))
  obtain ⟨f, hf, hfkey⟩ := List.mem_map.mp hkey
  refine ⟨f, hf, hfkey, ?_⟩
  rw [edgeTotal_append] at hfit
  have hsize : UInt64.size = 2 ^ 64 := rfl
  rw [hes.count e he, hfs.count f hf, hfkey, sumAt_counted, sumAt_counted, edgeTotal_append,
      UInt64.le_iff_toNat_le, UInt64.toNat_ofNat_of_lt' (by omega),
      UInt64.toNat_ofNat_of_lt' (by omega)]
  omega

/-! ## §3. The cut. -/

/-- The frames of a cut log, in terms of the last boundary. -/
theorem isLastBoundary_wholeFrames (w₀ : ProfileWriter) (cs : List WriteCall) (n : Nat)
    (hn : w₀.writer.length ≤ n) :
    IsLastBoundary w₀ cs n (w₀.writer.length + boundary (callsFrames w₀ cs)
      (wholeFrames (callsFrames w₀ cs) (n - w₀.writer.length))) := by
  obtain ⟨hle, hmax⟩ := boundary_wholeFrames (callsFrames w₀ cs) (n - w₀.writer.length)
  refine ⟨⟨_, wholeFrames_le _ _, rfl⟩, by omega, ?_⟩
  intro m' hex hm'
  obtain ⟨k, hk, rfl⟩ := hex
  have hkle := hmax k hk (by omega)
  have hb := boundary_le_of_le (callsFrames w₀ cs) hkle
  omega

theorem footer_none_of_no_footer (cs : List WriteCall) (h : ∀ c ∈ cs, isFooter c = false) :
    ∀ (w : ProfileWriter) (p : Profile), p.footer = none → (callsEffect w cs p).footer = none := by
  induction cs with
  | nil => intro w p hp; exact hp
  | cons c cs ih =>
      intro w p hp
      have hc : isFooter c = false := h c (by simp)
      apply ih (fun d hd => h d (by simp [hd]))
      cases c with
      | footer wallTimeNs => exact absurd hc (by simp [isFooter])
      | _ => exact hp

/-- What follows a part extends it. -/
theorem partOf_merged (cs : List WriteCall) (ρb ρf : IterOrder) {p full : Profile}
    (h : Extends p full) (hb : full.branchEdges = cs.flatMap branchEdgesOf)
    (hf : full.fallThroughEdges = cs.flatMap fallThroughEdgesOf) :
    PartOf cs (merged ρb ρf p) (merged ρb ρf full) where
  header := h.header.symm
  symbols := h.symbols
  tbExecs := h.tbExecs
  directCalls := h.directCalls
  indirectCalls := h.indirectCalls
  branchEdges := hb ▸ edgesLe_mergeEdges ρb h.branchEdges
  fallThroughEdges := hf ▸ edgesLe_mergeEdges ρf h.fallThroughEdges

section Cut

variable (tier : UInt8) (sysemu streaming : Bool)
  (loadAddr textStart textEnd entryAddr : UInt64) (cs : List WriteCall)

/-- Reading the first `k` records of a log. -/
theorem applyRecords_take (w₀ : ProfileWriter) (p₀ : Profile) (k : Nat) :
    ∃ p, applyRecords (((callsFrames w₀ cs).take k).map Frame.view) p₀ = some p
      ∧ Extends p (callsEffect w₀ cs p₀) := by
  have htotal := applyRecords_callsFrames cs w₀ p₀
  rw [← List.take_append_drop k (callsFrames w₀ cs), List.map_append,
      applyRecords_append] at htotal
  obtain ⟨p, hp, hrest⟩ := Option.bind_eq_some_iff.mp htotal
  exact ⟨p, hp, applyRecords_extends _ hrest⟩

/-- The bytes of a cut log behind the header. -/
theorem take_log (n : Nat) (hn : 64 ≤ n) :
    (callsNext (ProfileWriter.new tier sysemu streaming loadAddr textStart textEnd entryAddr)
        cs).writer.take n
      = (ProfileWriter.new tier sysemu streaming loadAddr textStart textEnd entryAddr).writer
        ++ (encodeAll (callsFrames (ProfileWriter.new tier sysemu streaming loadAddr textStart
            textEnd entryAddr) cs)).take (n - 64) := by
  have h64 := length_new tier sysemu streaming loadAddr textStart textEnd entryAddr
  rw [writer_callsNext, List.take_append, h64, List.take_of_length_le (by omega)]

/-- **THE CUT**: any cut behind the header reads the whole records before it. -/
theorem parse_take_log (ρb ρf : IterOrder) (n : Nat) (hn : 64 ≤ n) (p : Profile)
    (hp : applyRecords (((callsFrames (ProfileWriter.new tier sysemu streaming loadAddr
        textStart textEnd entryAddr) cs).take (wholeFrames (callsFrames (ProfileWriter.new tier
        sysemu streaming loadAddr textStart textEnd entryAddr) cs) (n - 64))).map Frame.view)
        (Profile.ofHeader (headerOf tier sysemu streaming loadAddr textStart textEnd entryAddr))
      = some p) :
    parse ρb ρf ((callsNext (ProfileWriter.new tier sysemu streaming loadAddr textStart textEnd
        entryAddr) cs).writer.take n) = .ok (merged ρb ρf p) := by
  rw [take_log _ _ _ _ _ _ _ _ _ hn, parse_new, frames_encodeAll_take, hp]

/-- The cut at the last boundary reads the same records. -/
theorem parse_take_boundary (ρb ρf : IterOrder) (k : Nat) (p : Profile)
    (hp : applyRecords (((callsFrames (ProfileWriter.new tier sysemu streaming loadAddr
        textStart textEnd entryAddr) cs).take k).map Frame.view)
        (Profile.ofHeader (headerOf tier sysemu streaming loadAddr textStart textEnd entryAddr))
      = some p) :
    parse ρb ρf ((callsNext (ProfileWriter.new tier sysemu streaming loadAddr textStart textEnd
        entryAddr) cs).writer.take (64 + boundary (callsFrames (ProfileWriter.new tier sysemu
        streaming loadAddr textStart textEnd entryAddr) cs) k)) = .ok (merged ρb ρf p) := by
  rw [take_log _ _ _ _ _ _ _ _ _ (by omega), Nat.add_sub_cancel_left,
      encodeAll_take_boundary, parse_new, frames_encodeAll, hp]

/-- A strict prefix of a log that ends in its only footer has no footer. -/
theorem footer_of_strict_prefix (w₀ : ProfileWriter) (ds : List WriteCall) (t : UInt64)
    (hds : ∀ c ∈ ds, isFooter c = false) (n : Nat)
    (hn : n < (encodeAll (callsFrames w₀ (ds ++ [.footer t]))).length) (p₀ p : Profile)
    (hp₀ : p₀.footer = none)
    (hp : applyRecords (((callsFrames w₀ (ds ++ [.footer t])).take
        (wholeFrames (callsFrames w₀ (ds ++ [.footer t])) n)).map Frame.view) p₀ = some p) :
    p.footer = none := by
  have hsplit := callsFrames_append ds [.footer t] w₀
  have hlen : (callsFrames w₀ (ds ++ [.footer t])).length = (callsFrames w₀ ds).length + 1 := by
    rw [hsplit, List.length_append]
    rfl
  -- the footer record is not whole, so it is not read
  have hk : wholeFrames (callsFrames w₀ (ds ++ [.footer t])) n ≤ (callsFrames w₀ ds).length := by
    by_contra hgt
    have hall : wholeFrames (callsFrames w₀ (ds ++ [.footer t])) n
        = (callsFrames w₀ (ds ++ [.footer t])).length := by
      have := wholeFrames_le (callsFrames w₀ (ds ++ [.footer t])) n
      omega
    have hle := (boundary_wholeFrames (callsFrames w₀ (ds ++ [.footer t])) n).1
    rw [hall] at hle
    unfold boundary at hle
    rw [List.take_length] at hle
    omega
  have htake : (callsFrames w₀ (ds ++ [.footer t])).take
        (wholeFrames (callsFrames w₀ (ds ++ [.footer t])) n)
      = (callsFrames w₀ ds).take (wholeFrames (callsFrames w₀ (ds ++ [.footer t])) n) := by
    rw [hsplit, List.take_append_of_le_length]
    rw [hsplit] at hk
    exact hk
  rw [htake] at hp
  -- what is read is part of a log without footer
  obtain ⟨q, hq, hext⟩ := applyRecords_take ds w₀ p₀
    (wholeFrames (callsFrames w₀ (ds ++ [.footer t])) n)
  rw [hq] at hp
  cases hp
  have hnone := footer_none_of_no_footer ds hds w₀ p₀ hp₀
  cases hfoot : p.footer with
  | none => rfl
  | some f =>
      have hsome := hext.footer (by rw [hfoot]; rfl)
      rw [hnone] at hsome
      exact absurd hsome (by simp)

/-! ## §4. Crash tolerance. -/

/-- **CRASH TOLERANCE** for every sequence of calls and every cut. -/
theorem parse_torn_log (ρb ρf : IterOrder) :
    ∃ w full,
      runCalls cs (ProfileWriter.new tier sysemu streaming loadAddr textStart textEnd entryAddr)
          = .ok () w
        ∧ parse ρb ρf w.writer = .ok full
        ∧ (∀ n, n < 64 → ∃ text, parse ρb ρf (w.writer.take n) = .error (.message text))
        ∧ (∀ n, 64 ≤ n → ∃ m p,
            IsLastBoundary (ProfileWriter.new tier sysemu streaming loadAddr textStart textEnd
                entryAddr) cs n m
              ∧ parse ρb ρf (w.writer.take n) = .ok p
              ∧ parse ρb ρf (w.writer.take m) = .ok p
              ∧ PartOf cs p full
              ∧ (∀ ds t, cs = ds ++ [.footer t] → (∀ c ∈ ds, isFooter c = false) →
                  n < w.writer.length → p.footer = none)) := by
  have h64 := length_new tier sysemu streaming loadAddr textStart textEnd entryAddr
  refine ⟨_, _, runCalls_eq cs _, parse_callsNext tier sysemu streaming loadAddr textStart
    textEnd entryAddr ρb ρf cs, ?_, ?_⟩
  · -- a cut inside the header
    intro n hn
    obtain ⟨text, htext⟩ := parseHeader_short ((callsNext (ProfileWriter.new tier sysemu
      streaming loadAddr textStart textEnd entryAddr) cs).writer.take n)
      (by rw [List.length_take]; omega)
    refine ⟨text, ?_⟩
    unfold parse
    rw [htext]
    rfl
  · -- a cut behind the header
    intro n hn
    have hlast := isLastBoundary_wholeFrames (ProfileWriter.new tier sysemu streaming loadAddr
      textStart textEnd entryAddr) cs n (by omega)
    rw [h64] at hlast
    obtain ⟨p, hp, hext⟩ := applyRecords_take cs (ProfileWriter.new tier sysemu streaming
      loadAddr textStart textEnd entryAddr) (Profile.ofHeader
        (headerOf tier sysemu streaming loadAddr textStart textEnd entryAddr))
      (wholeFrames (callsFrames (ProfileWriter.new tier sysemu streaming loadAddr textStart
        textEnd entryAddr) cs) (n - 64))
    refine ⟨_, _, hlast, parse_take_log _ _ _ _ _ _ _ cs ρb ρf n hn p hp,
      parse_take_boundary _ _ _ _ _ _ _ cs ρb ρf _ p hp, ?_, ?_⟩
    · apply partOf_merged cs ρb ρf hext
      · rw [branchEdges_callsEffect]
        rfl
      · rw [fallThroughEdges_callsEffect]
        rfl
    · intro ds t hcs hds hlen
      subst hcs
      rw [writer_callsNext, List.length_append, h64] at hlen
      exact footer_of_strict_prefix _ ds t hds (n - 64) (by omega) _ p rfl hp

end Cut

end QemuProfiler.Format

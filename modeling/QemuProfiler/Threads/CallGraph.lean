/-
  QemuProfiler.Threads.CallGraph
  ──────────────────────────────
  **THE CALL GRAPH OF AN INTERLEAVED RUN.**

  Each of the three kinds of records of a file is a table of occurrences
  (`TableOf`): the branches and the indirect calls of the pairs of consecutive
  executions, the direct calls of the executed blocks.  The weight of a caller
  and a callee is the sum of what the three tables hold for them:

    • `call_graph_exact` — which pairs of functions the call graph holds, and
      with which weights, in every interleaving.
-/
import QemuProfiler.Convert.Cgprof
import QemuProfiler.Qemu.RunProfile
import QemuProfiler.Threads.CodeTables

namespace QemuProfiler.Threads

open QemuProfiler.Lib QemuProfiler.Plugin QemuProfiler.Qemu QemuProfiler.Edges QemuProfiler.Format
open QemuProfiler.Convert hiding fileMagic FileHeader
open QemuProfiler.Convert.Cgprof

/-! ## §1. The weights of a profile. -/

theorem sumAt_paired (pair : UInt64 × UInt64 → Option (String × String)) (fg : String × String)
    (l : List ((UInt64 × UInt64) × UInt64)) :
    sumAt fg (paired pair l) = sumWhere (fun c => decide (pair c = some fg)) l := by
  unfold sumAt
  induction l with
  | nil => rfl
  | cons e l ih =>
      rw [sumWhere_cons, ← ih]
      unfold paired
      cases hpair : pair e.1 with
      | none =>
          rw [List.filterMap_cons_none (by rw [hpair]; rfl)]
          simp
      | some key =>
          rw [List.filterMap_cons_some (by rw [hpair]; rfl), sumWhere_cons]
          simp

theorem mem_paired (pair : UInt64 × UInt64 → Option (String × String)) (fg : String × String)
    (l : List ((UInt64 × UInt64) × UInt64)) :
    fg ∈ (paired pair l).map Prod.fst ↔ ∃ c ∈ l.map Prod.fst, pair c = some fg := by
  unfold paired
  simp only [List.mem_map, List.mem_filterMap, Option.map_eq_some_iff]
  constructor
  · rintro ⟨_, ⟨e, he, key, hkey, rfl⟩, rfl⟩
    exact ⟨e.1, ⟨e, he, rfl⟩, hkey⟩
  · rintro ⟨_, ⟨e, he, rfl⟩, hkey⟩
    exact ⟨(fg, e.2), ⟨e, he, fg, hkey, rfl⟩, rfl⟩

/-- **The entries of the call graph**, when the three kinds of records are
tables. -/
theorem entries_of_tables {p : Profile} {D C B : List (UInt64 × UInt64)}
    (hD : TableOf (p.directCalls.map CallRecord.counted) D)
    (hC : TableOf (p.indirectCalls.map CallRecord.counted) C)
    (hB : TableOf (p.branchEdges.map EdgeRecord.counted) B)
    (ρ : IterOrder) (elf : ElfIndex) (fg : String × String) (weight : UInt64) :
    (fg, weight) ∈ Cgprof.entries ρ p elf
      ↔ ((∃ c ∈ (p.directCalls.map CallRecord.counted).map Prod.fst, callPair elf c = some fg)
          ∨ (∃ c ∈ (p.indirectCalls.map CallRecord.counted).map Prod.fst,
              indirectPair elf c = some fg)
          ∨ ∃ e ∈ (p.branchEdges.map EdgeRecord.counted).map Prod.fst, edgePair elf e = some fg)
        ∧ weight = UInt64.ofNat (D.countP (fun c => decide (callPair elf c = some fg))
          + C.countP (fun c => decide (indirectPair elf c = some fg))
          + B.countP (fun e => decide (edgePair elf e = some fg))) := by
  have hentries : (fg, weight) ∈ Cgprof.entries ρ p elf
      ↔ (fg, weight) ∈ (callGraph p elf).items :=
    (List.perm_insertionSort _ _).mem_iff.trans (shuffle_perm ρ _).mem_iff
  rw [hentries, mem_callGraph_items]
  show fg ∈ (Cgprof.recorded p elf).map Prod.fst ∧ weight = sumAt fg (Cgprof.recorded p elf) ↔ _
  have hsum : sumAt fg (Cgprof.recorded p elf)
      = UInt64.ofNat (D.countP (fun c => decide (callPair elf c = some fg))
          + C.countP (fun c => decide (indirectPair elf c = some fg))
          + B.countP (fun e => decide (edgePair elf e = some fg))) := by
    unfold Cgprof.recorded
    have happend : ∀ l₁ l₂ : List ((String × String) × UInt64),
        sumAt fg (l₁ ++ l₂) = sumAt fg l₁ + sumAt fg l₂ := fun l₁ l₂ => sumWhere_append _ l₁ l₂
    rw [happend, happend, sumAt_paired, sumAt_paired, sumAt_paired, hD.total, hC.total, hB.total,
        ← UInt64.ofNat_add, ← UInt64.ofNat_add, Nat.add_assoc]
  rw [hsum]
  refine and_congr_left fun _ => ?_
  unfold Cgprof.recorded
  rw [List.map_append, List.map_append, List.mem_append, List.mem_append, mem_paired, mem_paired,
      mem_paired]

/-! ## §2. The tables of a run. -/

/-- A branch between two executions, from the first function to the second. -/
def branchesAcross (elf : ElfIndex) (fg : String × String) (a b : ExecRecord) : Bool :=
  (branchEdge (some a) b).any fun e => edgePair elf (edgeKey e) = some fg

/-- An indirect call between two executions, of the second function by the first. -/
def callsAcross (arch : Arch) (elf : ElfIndex) (fg : String × String) (a b : ExecRecord) : Bool :=
  (callBetween arch (some a) b).any fun c => indirectPair elf c = some fg

/-- The direct calls in the blocks of a key. -/
def directsOf (arch : Arch) (s : System) (k : TbKey) : List (UInt64 × UInt64) :=
  ((s.machine.translations.filter fun tr => tr.tb.key = k).flatMap fun tr =>
    directPairs arch tr.tb).dedup

/-- The direct calls of the executed blocks, execution by execution. -/
def directsRun (arch : Arch) (s : System) (out : List Action) : List (UInt64 × UInt64) :=
  (executionsOf out).flatMap fun x => directsOf arch s x.2.tb.key

theorem mem_directsOf {arch : Arch} {s : System} {k : TbKey} {c : UInt64 × UInt64} :
    c ∈ directsOf arch s k
      ↔ ∃ tr ∈ s.machine.translations, tr.tb.key = k ∧ c ∈ directPairs arch tr.tb := by
  unfold directsOf
  rw [List.mem_dedup, List.mem_flatMap]
  constructor
  · rintro ⟨tr, htr, hc⟩
    obtain ⟨hin, hk⟩ := List.mem_filter.mp htr
    exact ⟨tr, hin, of_decide_eq_true hk, hc⟩
  · rintro ⟨tr, hin, hk, hc⟩
    exact ⟨tr, List.mem_filter.mpr ⟨hin, decide_eq_true hk⟩, hc⟩

theorem length_branchEdge (a b : ExecRecord) : (branchEdge (some a) b).length ≤ 1 := by
  unfold branchEdge
  dsimp only
  split
  · exact Nat.le_refl 1
  · exact Nat.zero_le 1

theorem length_callBetween (arch : Arch) (a b : ExecRecord) :
    (callBetween arch (some a) b).length ≤ 1 := by
  unfold callBetween
  dsimp only
  split
  · exact Nat.le_refl 1
  · exact Nat.zero_le 1

section Runs

variable {config : PluginConfig} {tier3 sysemu : Bool} {arch : String} {host : HostInfo}
  {evs : List Event} {s : System} {out : List Action}

/-- Two blocks with one callsite are of one key. -/
theorem key_of_covers (hapart : Apart s) {tr tr' : Translation}
    (htr : tr ∈ s.machine.translations) (htr' : tr' ∈ s.machine.translations)
    (hstart : tr.tbMeta.startAddr = tr.tb.vaddr) (hstart' : tr'.tbMeta.startAddr = tr'.tb.vaddr)
    {cs : UInt64} (hcs : Covers tr cs) (hcs' : Covers tr' cs) : tr.tb.key = tr'.tb.key := by
  by_contra hne
  -- the one that starts later starts within the other
  rcases Nat.le_total tr.tb.vaddr.toNat tr'.tb.vaddr.toNat with hle | hle
  · refine hapart tr tr' (Or.inl htr) (Or.inl htr') hne ⟨?_, ?_⟩
    · rw [hstart]
      exact UInt64.le_iff_toNat_le.mpr hle
    · rw [← hstart']
      exact UInt64.le_trans hcs'.1 hcs.2
  · refine hapart tr' tr (Or.inl htr') (Or.inl htr) (Ne.symm hne) ⟨?_, ?_⟩
    · rw [hstart']
      exact UInt64.le_iff_toNat_le.mpr hle
    · rw [← hstart]
      exact UInt64.le_trans hcs.1 hcs'.2

/-- A callsite is executed with its block. -/
theorem countP_directsRun
    (h : runFrom (System.init config tier3 sysemu arch host) evs = some (s, out))
    (hplaced : ∀ tr ∈ s.machine.translations, ∀ insn ∈ tr.tb.insns, Covers tr insn.vaddr)
    (hapart : Apart s) {tr : Translation} (htr : tr ∈ s.machine.translations)
    {c : UInt64 × UInt64} (hc : c ∈ directPairs (Arch.fromName arch) tr.tb) :
    (directsRun (Arch.fromName arch) s out).countP (fun x => decide (x = c))
      = (executionsOf out).countP fun e => e.2.tb.key = tr.tb.key := by
  have hstart : ∀ tr ∈ s.machine.translations, tr.tbMeta.startAddr = tr.tb.vaddr := by
    intro tr htr
    have hinv := runFrom_inv h
    exact (hinv.codes.keyed _ _ (hinv.known tr (Or.inl htr))).1
  -- blocks apart: the callsite lies within the blocks of one key
  have hkey : ∀ k, c ∈ directsOf (Arch.fromName arch) s k ↔ k = tr.tb.key := by
    intro k
    rw [mem_directsOf]
    constructor
    · rintro ⟨tr', htr', rfl, hc'⟩
      obtain ⟨insn, hinsn, _, hvaddr⟩ := mem_directPairs.mp hc
      obtain ⟨insn', hinsn', _, hvaddr'⟩ := mem_directPairs.mp hc'
      have hcs : Covers tr c.1 := hvaddr ▸ hplaced tr htr insn hinsn
      have hcs' : Covers tr' c.1 := hvaddr' ▸ hplaced tr' htr' insn' hinsn'
      exact key_of_covers hapart htr' htr (hstart tr' htr') (hstart tr htr) hcs' hcs
    · rintro rfl
      exact ⟨tr, htr, rfl, hc⟩
  unfold directsRun
  induction executionsOf out with
  | nil => rfl
  | cons e l ih =>
      rw [List.flatMap_cons, List.countP_append, ih, List.countP_cons, Nat.add_comm]
      congr 1
      have hcount : (directsOf (Arch.fromName arch) s e.2.tb.key).countP (fun x => decide (x = c))
          = (directsOf (Arch.fromName arch) s e.2.tb.key).count c := by
        rw [List.count_eq_countP]
        apply List.countP_congr
        intro x _
        rw [decide_eq_true_eq, beq_iff_eq]
      have hnodup : (directsOf (Arch.fromName arch) s e.2.tb.key).Nodup := List.nodup_dedup _
      rw [hcount]
      by_cases heq : e.2.tb.key = tr.tb.key
      · rw [List.count_eq_one_of_mem hnodup ((hkey _).mpr heq), if_pos (decide_eq_true heq)]
      · rw [List.count_eq_zero.mpr fun hin => heq ((hkey _).mp hin),
            if_neg (by simpa using heq)]

/-- The direct calls of the file. -/
theorem directTable
    (h : runFrom (System.init config tier3 sysemu arch host) evs = some (s, out))
    (htier : 2 ≤ config.tier)
    (hplaced : ∀ tr ∈ s.machine.translations, ∀ insn ∈ tr.tb.insns, Covers tr insn.vaddr)
    (hapart : Apart s) {o : ExitOrders} {written : List (Edge × UInt64)} {p : Profile}
    (hp : ExitProfile o s.machine.plugin (execSum s.machine) written p) :
    TableOf (p.directCalls.map CallRecord.counted) (directsRun (Arch.fromName arch) s out)
      ∧ ∀ c, c ∈ (p.directCalls.map CallRecord.counted).map Prod.fst
        ↔ ∃ tr ∈ s.machine.translations, c ∈ directPairs (Arch.fromName arch) tr.tb := by
  obtain ⟨hnodup, hcalls⟩ := directCalls_run h htier hplaced hapart hp
  have hkeys : ∀ c, c ∈ (p.directCalls.map CallRecord.counted).map Prod.fst
      ↔ ∃ tr ∈ s.machine.translations, c ∈ directPairs (Arch.fromName arch) tr.tb := by
    intro c
    rw [List.map_map, List.mem_map]
    constructor
    · rintro ⟨r, hr, rfl⟩
      obtain ⟨tr, htr, hc, _⟩ := (hcalls r.callsite r.target r.count).mp hr
      exact ⟨tr, htr, hc⟩
    · rintro ⟨tr, htr, hc⟩
      exact ⟨_, (hcalls c.1 c.2 _).mpr ⟨tr, htr, hc, rfl⟩, rfl⟩
  refine ⟨⟨?_, ?_, ?_⟩, hkeys⟩
  · rw [List.map_map]
    exact hnodup
  · intro e he
    obtain ⟨r, hr, rfl⟩ := List.mem_map.mp he
    obtain ⟨tr, htr, hc, hcount⟩ := (hcalls r.callsite r.target r.count).mp hr
    show r.count = _
    rw [hcount, ← countP_directsRun h hplaced hapart htr hc]
    rfl
  · intro c hc
    obtain ⟨x, _, hx⟩ := List.mem_flatMap.mp hc
    obtain ⟨tr, htr, _, hin⟩ := mem_directsOf.mp hx
    exact (hkeys c).mpr ⟨tr, htr, hin⟩

/-- Its indirect calls. -/
theorem indirectTable
    (h : runFrom (System.init config tier3 sysemu arch host) evs = some (s, out))
    (htier : 2 ≤ config.tier) {o : ExitOrders} {written : List (Edge × UInt64)} {p : Profile}
    (hp : ExitProfile o s.machine.plugin (execSum s.machine) written p) :
    TableOf (p.indirectCalls.map CallRecord.counted)
        ((recordedCalls (notesOf (System.init config tier3 sysemu arch host) evs)).map Prod.snd)
      ∧ ∀ c, c ∈ (p.indirectCalls.map CallRecord.counted).map Prod.fst
        ↔ c ∈ (recordedCalls (notesOf (System.init config tier3 sysemu arch host) evs)).map
          Prod.snd := by
  obtain ⟨hnodup, hcalls⟩ := indirectCalls_recorded h htier hp
  have hpos : ∀ c : UInt64 × UInt64,
      0 < (recordedCalls (notesOf (System.init config tier3 sysemu arch host) evs)).countP
          (fun e => decide (e.2 = c))
        ↔ c ∈ (recordedCalls (notesOf (System.init config tier3 sysemu arch host) evs)).map
          Prod.snd := by
    intro c
    rw [List.countP_pos_iff, List.mem_map]
    simp only [decide_eq_true_eq]
  have hkeys : ∀ c, c ∈ (p.indirectCalls.map CallRecord.counted).map Prod.fst
      ↔ c ∈ (recordedCalls (notesOf (System.init config tier3 sysemu arch host) evs)).map
        Prod.snd := by
    intro c
    rw [← hpos, List.map_map, List.mem_map]
    constructor
    · rintro ⟨r, hr, rfl⟩
      exact ((hcalls r.callsite r.target r.count).mp hr).1
    · intro hc
      exact ⟨_, (hcalls c.1 c.2 _).mpr ⟨hc, rfl⟩, rfl⟩
  refine ⟨⟨?_, ?_, fun c hc => (hkeys c).mpr hc⟩, hkeys⟩
  · rw [List.map_map]
    exact hnodup
  · intro e he
    obtain ⟨r, hr, rfl⟩ := List.mem_map.mp he
    rw [List.countP_map]
    exact ((hcalls r.callsite r.target r.count).mp hr).2

/-- Its branches. -/
theorem branchTable
    (h : runFrom (System.init config tier3 sysemu arch host) evs = some (s, out))
    (htier : 1 ≤ config.tier) (hstreaming : config.streaming = true)
    (hopen : host.outputOpens = true)
    (hflush : FlushesAfterOpening (System.init config tier3 sysemu arch host) evs)
    (hidle : ∀ v < s.machine.numVcpus, s.threads v = .idle)
    (hcomplete : ∀ r ∈ entriesOf (notesOf (System.init config tier3 sysemu arch host) evs),
      r.complete = true) {o : ExitOrders} {p : Profile}
    (hp : ExitProfile o s.machine.plugin (execSum s.machine) ((loggedOf out).map ofTriple) p) :
    TableOf (p.branchEdges.map EdgeRecord.counted)
        ((recordedEdges (notesOf (System.init config tier3 sysemu arch host) evs)).map
          fun e => edgeKey e.2)
      ∧ ∀ k, k ∈ (p.branchEdges.map EdgeRecord.counted).map Prod.fst
        ↔ k ∈ (recordedEdges (notesOf (System.init config tier3 sysemu arch host) evs)).map
          fun e => edgeKey e.2 := by
  obtain ⟨hbranches, hcounts⟩ :=
    branchEdges_streaming h htier hstreaming hopen hflush hidle hcomplete hp
  -- the branches between executions are the recorded ones
  have hrecorded : ∀ f t, pairCount ExecRecord.vcpu s.machine.numVcpus (takes f t)
        (entriesOf (notesOf (System.init config tier3 sysemu arch host) evs))
      = ((recordedEdges (notesOf (System.init config tier3 sysemu arch host) evs)).map
          fun e => edgeKey e.2).countP fun k => decide (k = (f, t)) := by
    intro f t
    rw [← countP_recordedEdges_idle h htier hidle hcomplete f t, List.countP_map]
    apply List.countP_congr
    intro e _
    rw [Function.comp_apply, decide_eq_true_eq, decide_eq_true_eq]
    obtain ⟨_, ⟨fromAddr, toAddr⟩⟩ := e
    unfold edgeKey
    rw [Edge.mk.injEq, Prod.mk.injEq]
  have hkeys : ∀ k, k ∈ (p.branchEdges.map EdgeRecord.counted).map Prod.fst
      ↔ k ∈ (recordedEdges (notesOf (System.init config tier3 sysemu arch host) evs)).map
        fun e => edgeKey e.2 := by
    intro k
    rw [List.map_map]
    refine (hbranches k.1 k.2).trans ?_
    rw [hrecorded, List.countP_pos_iff]
    simp
  refine ⟨⟨?_, ?_, fun k hk => (hkeys k).mpr hk⟩, hkeys⟩
  · rw [List.map_map]
    exact hp.branchEdges.nodup
  · intro e he
    obtain ⟨r, hr, rfl⟩ := List.mem_map.mp he
    show r.count = _
    rw [hcounts r hr, hrecorded]
    rfl

/-- **THE CALL GRAPH IS EXACT, IN EVERY INTERLEAVING** in which no block starts
within another one and every instruction lies within the record of its block's
key: for a streaming run that comes to rest after executions that all completed,
the call graph of the file has an entry for two functions exactly when a
translated block of the one has a direct call of the other, or a vCPU called or
branched from the one to the other; and its weight is the number of executions
of the direct calls, plus that of the indirect calls, plus that of the
branches. -/
theorem call_graph_exact
    (h : runFrom (System.init config tier3 sysemu arch host) evs = some (s, out))
    (htier : 2 ≤ config.tier) (hstreaming : config.streaming = true)
    (hopen : host.outputOpens = true)
    (hflush : FlushesAfterOpening (System.init config tier3 sysemu arch host) evs)
    (hidle : ∀ v < s.machine.numVcpus, s.threads v = .idle)
    (hcomplete : ∀ r ∈ entriesOf (notesOf (System.init config tier3 sysemu arch host) evs),
      r.complete = true)
    (hplaced : ∀ tr ∈ s.machine.translations, ∀ insn ∈ tr.tb.insns, Covers tr insn.vaddr)
    (hapart : Apart s) {o : ExitOrders} {w : ProfileWriter}
    (hexit : pluginExit o s.machine.plugin (execSum s.machine) = some w) (ρb ρf ρ : IterOrder)
    (elf : ElfIndex) :
    ∃ p, parse ρb ρf w.writer = .ok p
      ∧ ∀ fg weight, (fg, weight) ∈ Cgprof.entries ρ p elf
        ↔ ((∃ tr ∈ s.machine.translations, ∃ c ∈ directPairs (Arch.fromName arch) tr.tb,
                callPair elf c = some fg)
            ∨ 0 < pairCount ExecRecord.vcpu s.machine.numVcpus
                (callsAcross (Arch.fromName arch) elf fg)
                (entriesOf (notesOf (System.init config tier3 sysemu arch host) evs))
            ∨ 0 < pairCount ExecRecord.vcpu s.machine.numVcpus (branchesAcross elf fg)
                (entriesOf (notesOf (System.init config tier3 sysemu arch host) evs)))
          ∧ weight = UInt64.ofNat
            (((executionsOf out).map fun x =>
                (directsOf (Arch.fromName arch) s x.2.tb.key).countP
                  fun c => decide (callPair elf c = some fg)).sum
              + pairCount ExecRecord.vcpu s.machine.numVcpus
                  (callsAcross (Arch.fromName arch) elf fg)
                  (entriesOf (notesOf (System.init config tier3 sysemu arch host) evs))
              + pairCount ExecRecord.vcpu s.machine.numVcpus (branchesAcross elf fg)
                  (entriesOf (notesOf (System.init config tier3 sysemu arch host) evs))) := by
  have htier1 : 1 ≤ config.tier := UInt8.le_trans (by decide) htier
  obtain ⟨p, hparse, hp⟩ := exitProfile_run h hexit ρb ρf
  obtain ⟨hD, hDkeys⟩ := directTable h htier hplaced hapart hp
  obtain ⟨hC, hCkeys⟩ := indirectTable h htier hp
  obtain ⟨hB, hBkeys⟩ := branchTable h htier1 hstreaming hopen hflush hidle hcomplete hp
  refine ⟨p, hparse, ?_⟩
  intro fg weight
  -- the occurrences that are between the two functions
  have hdirect : (directsRun (Arch.fromName arch) s out).countP
        (fun c => decide (callPair elf c = some fg))
      = ((executionsOf out).map fun x => (directsOf (Arch.fromName arch) s x.2.tb.key).countP
          fun c => decide (callPair elf c = some fg)).sum := List.countP_flatMap
  have hindirect : ((recordedCalls
        (notesOf (System.init config tier3 sysemu arch host) evs)).map Prod.snd).countP
        (fun c => decide (indirectPair elf c = some fg))
      = pairCount ExecRecord.vcpu s.machine.numVcpus (callsAcross (Arch.fromName arch) elf fg)
          (entriesOf (notesOf (System.init config tier3 sysemu arch host) evs)) := by
    rw [List.countP_map]
    exact countP_recordedCalls_pairs h htier hidle hcomplete
      (fun c => decide (indirectPair elf c = some fg)) _ fun a b =>
        countP_of_length_le_one _ (length_callBetween _ a b)
  have hbranch : ((recordedEdges
        (notesOf (System.init config tier3 sysemu arch host) evs)).map
          fun e => edgeKey e.2).countP (fun k => decide (edgePair elf k = some fg))
      = pairCount ExecRecord.vcpu s.machine.numVcpus (branchesAcross elf fg)
          (entriesOf (notesOf (System.init config tier3 sysemu arch host) evs)) := by
    rw [List.countP_map]
    exact countP_recordedEdges_pairs h htier1 hidle hcomplete
      (fun e => decide (edgePair elf (edgeKey e) = some fg)) _ fun a b =>
        countP_of_length_le_one _ (length_branchEdge a b)
  rw [entries_of_tables hD hC hB, hdirect, hindirect, hbranch]
  refine and_congr_left fun _ => or_congr ?_ (or_congr ?_ ?_)
  · constructor
    · rintro ⟨c, hc, hpair⟩
      obtain ⟨tr, htr, hin⟩ := (hDkeys c).mp hc
      exact ⟨tr, htr, c, hin, hpair⟩
    · rintro ⟨tr, htr, c, hin, hpair⟩
      exact ⟨c, (hDkeys c).mpr ⟨tr, htr, hin⟩, hpair⟩
  · rw [← hindirect, List.countP_pos_iff]
    simp only [hCkeys, decide_eq_true_eq]
  · rw [← hbranch, List.countP_pos_iff]
    simp only [hBkeys, decide_eq_true_eq]

end Runs

/-- The caller and what it calls. -/
def callerElf : ElfIndex := ⟨[⟨"main", 0x10, 0x10⟩, ⟨"loop", 0x20, 0x10⟩], 0, by decide⟩

theorem call_graph_exact_callers :
    ∃ w p, pluginExit listOrders (outcome (installed 2 1 true) callerEvents).1.machine.plugin
        (execSum (outcome (installed 2 1 true) callerEvents).1.machine) = some w
      ∧ parse [] [] w.writer = .ok p
      ∧ (("main", "loop"), 2) ∈ Cgprof.entries [] p callerElf := by
  obtain ⟨hruns, hidle⟩ := callerEvents_rests
  obtain ⟨w, hw⟩ := callerEvents_exits
  have hrun := runFrom_outcome _ _ hruns
  have hapart : Apart (outcome (installed 2 1 true) callerEvents).1 :=
    apart_of_idle hrun hidle (by decide)
  have hflush : FlushesAfterOpening (installed 2 1 true) callerEvents :=
    (flushesAfterOpening_iff rfl _ _ _ _ ⟨[], [], rfl⟩ hrun).mpr (by decide)
  obtain ⟨p, hp, hentries⟩ := call_graph_exact hrun (by decide) rfl rfl hflush
    (fun v hv => Thread.eq_idle (hidle v hv)) (by decide) (by decide) hapart hw [] [] [] callerElf
  have hdirect : ∃ tr ∈ (outcome (installed 2 1 true) callerEvents).1.machine.translations,
      (0x10, 0x20) ∈ directPairs (Arch.fromName "riscv64") tr.tb := by
    decide
  obtain ⟨tr, htr, hin⟩ := hdirect
  refine ⟨w, p, hw, hp, (hentries ("main", "loop") 2).mpr ⟨Or.inl ⟨tr, htr, _, hin, ?_⟩, ?_⟩⟩
  · decide
  · decide

end QemuProfiler.Threads

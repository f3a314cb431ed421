/-
  QemuProfiler.Threads.Reports
  ────────────────────────────
  **WHAT THE REPORTS SAY ABOUT A RUN.**

    • `ranges_in_text` — the ranges of a text profile are the blocks that were
      executed, with the number of their executions, in every interleaving and
      in either storage mode;
    • `dump_lists_hottest` — the branches that a dump lists are the hottest of
      the guest, with their exact counts;
    • `dump_tells_end` — the last line of a dump tells an exit from a kill.
-/
import QemuProfiler.Convert.Dump
import QemuProfiler.Threads.ExecCount
import QemuProfiler.Threads.Killed
import QemuProfiler.Threads.Pipeline

namespace QemuProfiler.Threads

open QemuProfiler.Lib QemuProfiler.Plugin QemuProfiler.Qemu QemuProfiler.Edges QemuProfiler.Format
open QemuProfiler.Convert hiding fileMagic FileHeader tierName

/-! ## §1. Ranges. -/

/-- The ranges that a text profile lists. -/
def rangesIn : Commands → Text → Option (List OffsetEntry)
  | .autofdo, text => (Autofdo.read text).map fun r => r.1
  | .gccAutofdo, text => (GccAutofdo.read text).map fun r => r.1
  | _, _ => none

/-- The conversions that list ranges. -/
def listsRanges : Commands → Bool
  | .autofdo | .gccAutofdo => true
  | _ => false

/-- How often the block of a key was executed. -/
def timesRun (out : List Action) (k : TbKey) : Nat :=
  (executionsOf out).countP fun x => x.2.tb.key = k

/-- The range of a block. -/
def rangeOf (base : UInt64) (ends : TbKey → UInt64) (out : List Action) (k : TbKey) : OffsetEntry :=
  (k.startAddr - base, ends k - base, UInt64.ofNat (timesRun out k))

theorem rangesIn_content {command : Commands} (hcommand : listsRanges command = true)
    (world : World) (profile : Profile) (elf : ElfIndex) :
    rangesIn command (command.format.content world profile elf)
      = some (rangesOf (baseOf profile elf) profile) := by
  cases command with
  | autofdo =>
      show (Autofdo.read (Autofdo.emit profile elf)).map _ = _
      rw [Autofdo.read_emit]
      rfl
  | gccAutofdo =>
      show (GccAutofdo.read (GccAutofdo.emit profile elf)).map _ = _
      rw [GccAutofdo.read_emit]
      rfl
  | _ => exact absurd hcommand (by decide)

section Runs

variable {config : PluginConfig} {tier3 sysemu : Bool} {arch : String} {host : HostInfo}
  {evs : List Event} {s : System} {out : List Action}

/-- The end of a key's block. -/
def endOf (s : PluginState) (k : TbKey) : UInt64 := ((s.tbMap.lookup k).map TbMeta.endAddr).getD 0

/-- Every execution of a key is of a block with its end. -/
theorem endOf_executed
    (h : runFrom (System.init config tier3 sysemu arch host) evs = some (s, out)) :
    ∀ x ∈ executionsOf out, endOf s.machine.plugin x.2.tb.key = x.2.tbMeta.endAddr := by
  intro x hx
  have hinv := runFrom_inv h
  obtain ⟨e, hlook, he⟩ := lookup_of_code (hinv.known x.2 (Or.inl (hinv.executed x hx).1))
  unfold endOf
  rw [hlook]
  exact congrArg TbCode.endAddr he

/-- The exec count of an entry. -/
theorem execSum_entry
    (h : runFrom (System.init config tier3 sysemu arch host) evs = some (s, out))
    {o : ExitOrders} {e : TbMeta} (he : e ∈ tbMetas o s.machine.plugin) :
    execSum s.machine e.execCount = UInt64.ofNat (timesRun out (metaKey e)) :=
  execSum_key h (code_of_lookup (lookup_metaKey (runFrom_inv h).codes he))

/-- **The ranges of the file** are the executed blocks. -/
theorem rangesOf_run
    (h : runFrom (System.init config tier3 sysemu arch host) evs = some (s, out)) {o : ExitOrders}
    {written : List (Edge × UInt64)} {p : Profile}
    (hp : ExitProfile o s.machine.plugin (execSum s.machine) written p) (base : UInt64) :
    ∃ keys : List TbKey, keys.Nodup
      ∧ (∀ k, k ∈ keys ↔ UInt64.ofNat (timesRun out k) ≠ 0)
      ∧ rangesOf base p = keys.map (rangeOf base (endOf s.machine.plugin) out) := by
  have hcodes := (runFrom_inv h).codes
  refine ⟨((tbMetas o s.machine.plugin).filter
    fun e => execSum s.machine e.execCount ≠ 0).map metaKey, ?_, ?_, ?_⟩
  · exact (nodup_metaKey hcodes o).sublist (List.filter_sublist.map metaKey)
  · intro k
    rw [List.mem_map]
    constructor
    · rintro ⟨e, he, rfl⟩
      obtain ⟨hin, hne⟩ := List.mem_filter.mp he
      rw [← execSum_entry h hin]
      simpa using hne
    · intro hne
      -- the key was executed, so it has an entry
      have hpos : 0 < timesRun out k := by
        rw [Nat.pos_iff_ne_zero]
        intro hzero
        rw [hzero] at hne
        exact hne rfl
      obtain ⟨x, hx, hkey⟩ := List.countP_pos_iff.mp hpos
      rw [decide_eq_true_eq] at hkey
      obtain ⟨e, he, hmeta⟩ := List.mem_map.mp (executed_metaKey h o x hx)
      rw [hkey] at hmeta
      refine ⟨e, List.mem_filter.mpr ⟨he, ?_⟩, hmeta⟩
      rw [execSum_entry h he, hmeta]
      simpa using hne
  · unfold rangesOf
    rw [hp.tbExecs, exitTbEntries, List.map_map, List.filter_map, List.map_map, List.map_map]
    refine List.map_congr_left fun e he => ?_
    have hin := (List.mem_filter.mp he).1
    have hend : endOf s.machine.plugin (metaKey e) = e.endAddr := by
      unfold endOf
      rw [lookup_metaKey hcodes hin]
      rfl
    show (e.startAddr - base, e.endAddr - base, execSum s.machine e.execCount)
      = (e.startAddr - base, endOf s.machine.plugin (metaKey e) - base,
        UInt64.ofNat (timesRun out (metaKey e)))
    rw [execSum_entry h hin, hend]

end Runs

section Texts

variable {boolParse : String → Option Bool} {tier3 : Bool} {info : QemuInfo}
  {argv : List (List UInt8)} {host : HostInfo} {evs : List (Event ⊕ Runtime)} {s : System}
  {out : List (Action ⊕ Seen)} {world : World} {command : Commands}
  {input binary output : String}

/-- **BLOCK COUNTS OF A TEXT PROFILE ARE THOSE OF THE GUEST.**  Install the
plugin with any arguments that select tier 1 or above, let the threads run in
any interleaving — with retranslations, flushes of the code cache, abandoned
blocks and threads in the middle of a callback at exit — and convert the file
of the exit: the text has one range for each executed block, with its end and
the number of its executions modulo 2^64. -/
theorem ranges_in_text
    (h : runWith info.versionCur (systemOf (qemuPluginInstall boolParse tier3 info argv) host) evs
      = some (s, out))
    (htier : 1 ≤ (lastSettings boolParse (argv.map fromUtf8Lossy)).tier)
    {o : ExitOrders} {w : ProfileWriter}
    (hexit : pluginExit o s.machine.plugin (execSum s.machine) = some w)
    (hinput : world.openFile input = .ok w.writer) {elf : ElfIndex}
    (hloaded : elfIndexFromFile world binary = .ok elf)
    (houtput : Writable world output) (hcommand : listsRanges command = true) :
    ∃ (text : Text) (keys : List TbKey) (ends : TbKey → UInt64),
      (main world command input binary output).written = [(output, text)]
        ∧ rangesIn command text
          = some (keys.map (rangeOf (baseFor host elf) ends (ownOf out)))
        ∧ keys.Nodup
        ∧ (∀ k, k ∈ keys ↔ UInt64.ofNat (timesRun (ownOf out) k) ≠ 0)
        ∧ ∀ x ∈ executionsOf (ownOf out), ends x.2.tb.key = x.2.tbMeta.endAddr := by
  obtain ⟨s₀, t, p, hrun, rfl, hparse, hp⟩ := exitProfile_runWith h hexit world.branchOrder
    world.fallThroughOrder
  obtain ⟨p', hparse', hhead⟩ := header_leavesFile h (.exited hexit) world.branchOrder
    world.fallThroughOrder
  obtain rfl : p = p' := Except.ok.inj (hparse.symm.trans hparse')
  have hbase : baseOf p elf = baseFor host elf := by
    unfold baseOf
    rw [hhead]
    rfl
  have hone : command.format.minTier = 1 := by
    cases command <;> first | rfl | exact absurd hcommand (by decide)
  have hmin : command.format.minTier ≤ p.header.tier := by
    rw [hone, hhead]
    exact htier
  have hwritten := main_writable ((nativeParse_file hinput).trans hparse) hmin hloaded houtput
  obtain ⟨keys, hnodup, hkeys, hranges⟩ := rangesOf_run hrun hp (baseFor host elf)
  refine ⟨command.format.content world p elf, keys, endOf s₀.machine.plugin, hwritten, ?_, hnodup, hkeys, endOf_executed hrun⟩
  rw [rangesIn_content hcommand, hbase, hranges]

end Texts

theorem ranges_in_text_returning :
    ∃ (w : ProfileWriter) (elf : ElfIndex) (text : Text) (ranges : List OffsetEntry) (e : UInt64),
      pluginExit listOrders (outcome (installed 2 1 true) returningEvents).1.machine.plugin
          (execSum (outcome (installed 2 1 true) returningEvents).1.machine) = some w
        ∧ (main (worldOf w.writer) .autofdo "a.prof" "a.out" "a.txt").written = [("a.txt", text)]
        ∧ rangesIn .autofdo text = some ranges
        ∧ (0x10 - baseFor exampleHost elf, e, 2) ∈ ranges := by
  obtain ⟨w, hw⟩ := returningEvents_exits
  obtain ⟨elf, helf, _⟩ := worldOf_loads w.writer "a.out"
  have hinput : (worldOf w.writer).openFile "a.prof" = .ok w.writer := rfl
  obtain ⟨htier, _⟩ := streamingSettings
  obtain ⟨text, keys, ends, hwritten, hranges, _, hkeys, _⟩ :=
    ranges_in_text returningEvents_runWith (by rw [htier]; decide) hw hinput helf
      (worldOf_writable _ _) (show listsRanges .autofdo = true from rfl)
  rw [ownOf_map_inl] at hranges hkeys
  have htimes : timesRun (outcome (installed 2 1 true) returningEvents).2 ⟨0x10, 2⟩ = 2 := by
    decide
  refine ⟨w, elf, text, _, ends ⟨0x10, 2⟩ - baseFor exampleHost elf, hw, hwritten, hranges,
    List.mem_map.mpr ⟨⟨0x10, 2⟩, (hkeys _).mpr ?_, ?_⟩⟩
  · rw [htimes]
    decide
  · unfold rangeOf
    rw [htimes]
    rfl

/-! ## §2. Dumps. -/

/-- There are no more pairs than entries. -/
theorem pairCount_le_length {α : Type} (who : α → Nat) (n : Nat) (p : α → α → Bool) {l : List α}
    (hl : ∀ a ∈ l, who a < n) : pairCount who n p l ≤ l.length := by
  rw [pairCount_eq_withPast who n p l hl]
  calc _ ≤ (withPast l).length := List.countP_le_length
    _ = ((withPast l).map Prod.snd).length := (List.length_map _).symm
    _ = l.length := by rw [map_snd_withPast]

/-- How often a branch was taken. -/
def timesTaken (n : Nat) (entries : List ExecRecord) (k : UInt64 × UInt64) : Nat :=
  pairCount ExecRecord.vcpu n (takes k.1 k.2) entries

section Dumps

variable {boolParse : String → Option Bool} {tier3 : Bool} {info : QemuInfo}
  {argv : List (List UInt8)} {host : HostInfo} {evs : List (Event ⊕ Runtime)} {s : System}
  {out : List (Action ⊕ Seen)} {world : World} {input : String}

/-- **A DUMP LISTS THE GUEST'S HOTTEST BRANCHES.**  The section of the branches
counts all that were taken in a streaming run, and gives up to 20 of them with
their exact counts; no branch that it leaves out was taken more often than one
that it lists. -/
theorem dump_lists_hottest {n : Nat} {entries : List ExecRecord} {w : ProfileWriter}
    (h : Streamed host n entries w) (hfit : entries.length < 2 ^ 64)
    (hinput : world.openFile input = .ok w.writer) (wallTime : UInt64 → String) :
    ∃ (before after : List String) (listed rest : List EdgeRecord),
      runDump world wallTime input = .ok (before
          ++ ("\nBranch Edges: " ++ toString (listed ++ rest).length)
            :: (listed.zipIdx.map (fun e => edgeLine e.2 e.1)
              ++ (if 0 < rest.length then ["  ... and " ++ toString rest.length ++ " more"] else []))
          ++ after)
        ∧ listed.length = min 20 (listed ++ rest).length
        ∧ ((listed ++ rest).map EdgeRecord.key).Nodup
        ∧ (∀ k, k ∈ (listed ++ rest).map EdgeRecord.key ↔ 0 < timesTaken n entries k)
        ∧ (∀ e ∈ listed ++ rest, e.count.toNat = timesTaken n entries e.key)
        ∧ ∀ a ∈ listed, ∀ b ∈ rest, timesTaken n entries b.key ≤ timesTaken n entries a.key := by
  obtain ⟨p, hparse, hp⟩ := h.profile world.branchOrder world.fallThroughOrder
  obtain ⟨listed, rest, hperm, hlen, hmax, hlines⟩ :=
    hottest_split EdgeRecord.count edgeLine p.branchEdges
  -- fewer than 2^64 executions, so no count has wrapped
  have hcount : ∀ e ∈ listed ++ rest, e.count.toNat = timesTaken n entries e.key := by
    intro e he
    rw [hp.counts e (hperm.mem_iff.mp he)]
    exact UInt64.toNat_ofNat_of_lt'
      (Nat.lt_of_le_of_lt (pairCount_le_length _ n _ hp.vcpus) hfit)
  refine ⟨headerLines p.header
      ++ ("\nMetadata:" :: (p.metadata.iter world.mapOrder).map fun kv =>
          "  " ++ kv.1 ++ "=" ++ kv.2)
      ++ (("\nSymbols: " ++ toString p.symbols.length) :: p.symbols.map symbolLine)
      ++ tbSection p,
    ["\nFall-Through Edges: " ++ toString p.fallThroughEdges.length]
      ++ lengthLine "\nDirect Calls: " p.directCalls
      ++ lengthLine "Indirect Calls: " p.indirectCalls
      ++ lengthLine "TB Resources: " p.tbResources
      ++ lengthLine "Discontinuities: " p.disconEvents
      ++ footerLines wallTime p.footer, listed, rest, ?_, ?_, ?_, ?_, hcount, ?_⟩
  · rw [runDump_ok ((nativeParse_file hinput).trans hparse), hperm.length_eq, ← hlines]
    unfold dumpLines edgeSection
    simp only [List.append_assoc]
  · rw [hlen, hperm.length_eq]
    rfl
  · exact (hperm.map EdgeRecord.key).nodup_iff.mpr hp.nodup
  · intro k
    rw [(hperm.map EdgeRecord.key).mem_iff]
    exact hp.keys k.1 k.2
  · intro a ha b hb
    rw [← hcount a (List.mem_append_left _ ha), ← hcount b (List.mem_append_right _ hb)]
    exact UInt64.le_iff_toNat_le.mp (hmax a ha b hb)

theorem getLast?_dumpLines (world : World) (wallTime : UInt64 → String) (profile : Profile) :
    (dumpLines world wallTime profile).getLast?
      = (footerLines wallTime profile.footer).getLast? := by
  unfold dumpLines
  rw [List.getLast?_append_of_ne_nil]
  cases profile.footer <;> simp [footerLines]

theorem dump_lists_hottest_returning :
    ∃ (w : ProfileWriter) (before after : List String) (listed rest : List EdgeRecord)
      (e : EdgeRecord),
      pluginExit listOrders (outcome (streamingPlugin exampleHost) returningEvents).1.machine.plugin
          (execSum (outcome (streamingPlugin exampleHost) returningEvents).1.machine) = some w
        ∧ runDump (worldOf w.writer) (fun _ => "0.001") "a.prof" = .ok (before
          ++ ("\nBranch Edges: " ++ toString (listed ++ rest).length)
            :: (listed.zipIdx.map (fun e => edgeLine e.2 e.1)
              ++ (if 0 < rest.length then ["  ... and " ++ toString rest.length ++ " more"] else []))
          ++ after)
        ∧ e ∈ listed ++ rest ∧ e.key = (0x14, 0x40) ∧ e.count.toNat = 2 := by
  obtain ⟨hruns, hidle, hcomplete⟩ := returningEvents_rests
  obtain ⟨w, hw⟩ := returningEvents_exits
  have hstreamed : Streamed exampleHost 2 _ w := streamed_of_schedule rfl hruns (by decide)
    (by decide) hidle hcomplete hw
  have hinput : (worldOf w.writer).openFile "a.prof" = .ok w.writer := rfl
  obtain ⟨before, after, listed, rest, hlines, _, _, hkeys, hcounts, _⟩ :=
    dump_lists_hottest hstreamed (by decide) hinput fun _ => "0.001"
  have htaken : timesTaken 2 (entriesOf (notesOf (streamingPlugin exampleHost) returningEvents))
      (0x14, 0x40) = 2 := by
    decide
  obtain ⟨e, he, hkey⟩ := List.mem_map.mp ((hkeys (0x14, 0x40)).mpr (by rw [htaken]; decide))
  exact ⟨w, before, after, listed, rest, e, hw, hlines, he, hkey,
    by rw [hcounts e he, hkey, htaken]⟩

/-- **A DUMP TELLS HOW THE RUN ENDED.**  Whatever the arguments and the
interleaving: a dump of the log that a killed emulator leaves, cut anywhere
behind the header, ends with the line about the missing footer; a dump of the
file of an exit ends with the totals: the number of blocks, and the number of
executions of all vCPUs. -/
theorem dump_tells_end
    (h : runWith info.versionCur (systemOf (qemuPluginInstall boolParse tier3 info argv) host) evs
      = some (s, out)) (wallTime : UInt64 → String) :
    (∀ w n, s.machine.plugin.writer = some w → 64 ≤ n →
        world.openFile input = .ok (w.writer.take n) →
        ∃ lines, runDump world wallTime input = .ok lines
          ∧ lines.getLast? = some missingFooter)
      ∧ ∀ o w, pluginExit o s.machine.plugin (execSum s.machine) = some w →
        world.openFile input = .ok w.writer →
        ∃ lines footer, runDump world wallTime input = .ok lines
          ∧ lines.getLast? = some (totalsLine wallTime footer)
          ∧ footer.totalTbCount = UInt64.ofNat s.machine.plugin.tbMap.items.length
          ∧ footer.totalExecCount = UInt64.ofNat (executionsOf (ownOf out)).length := by
  -- a cut log, then a complete one
  constructor
  · intro w n hw hn hinput
    obtain ⟨s₀, t, hrun, rfl⟩ := observed h
    have hlog := ((runFrom_writerInv hrun).opened w hw).1
    obtain ⟨p, _, hparse, honly, _⟩ :=
      parse_take_logOf hlog world.branchOrder world.fallThroughOrder n hn
    refine ⟨_, runDump_ok ((nativeParse_file hinput).trans hparse) wallTime, ?_⟩
    rw [getLast?_dumpLines, honly.footer]
    rfl
  · intro o w hexit hinput
    obtain ⟨s₀, t, p, hrun, rfl, hparse, hp⟩ := exitProfile_runWith h hexit world.branchOrder
      world.fallThroughOrder
    obtain ⟨footer, hfooter, htbs, _⟩ := hp.footer
    obtain ⟨footer', hfooter', hexecs⟩ := (countsExecutions_exit hrun hp).total
    obtain rfl : footer = footer' := Option.some.inj (hfooter.symm.trans hfooter')
    refine ⟨_, footer, runDump_ok ((nativeParse_file hinput).trans hparse) wallTime, ?_, ?_,
      hexecs⟩
    · rw [getLast?_dumpLines, hfooter]
      rfl
    · rw [htbs, exitTbEntries, List.length_map, (tbMetas_perm o _).length_eq, List.length_map]
      rfl

end Dumps

theorem dump_tells_end_returning :
    ∃ (opened w : ProfileWriter) (lines lines' : List String) (footer : Footer),
      (outcome (installed 2 1 true) returningEvents).1.machine.plugin.writer = some opened
        ∧ runDump (worldOf (opened.writer.take 70)) (fun _ => "0.001") "a.prof" = .ok lines
        ∧ lines.getLast? = some missingFooter
        ∧ pluginExit listOrders (outcome (installed 2 1 true) returningEvents).1.machine.plugin
          (execSum (outcome (installed 2 1 true) returningEvents).1.machine) = some w
        ∧ runDump (worldOf w.writer) (fun _ => "0.001") "a.prof" = .ok lines'
        ∧ lines'.getLast? = some (totalsLine (fun _ => "0.001") footer)
        ∧ footer.totalTbCount = 2 ∧ footer.totalExecCount = 4 := by
  obtain ⟨opened, hopened⟩ := returningEvents_opens
  obtain ⟨w, hw⟩ := returningEvents_exits
  have hcut : (worldOf (opened.writer.take 70)).openFile "a.prof"
      = .ok (opened.writer.take 70) := rfl
  have hinput : (worldOf w.writer).openFile "a.prof" = .ok w.writer := rfl
  obtain ⟨lines, hlines, hlast⟩ :=
    (dump_tells_end returningEvents_runWith fun _ => "0.001").1 opened 70 hopened (by decide) hcut
  obtain ⟨lines', footer, hlines', hlast', htbs, hexecs⟩ :=
    (dump_tells_end returningEvents_runWith fun _ => "0.001").2 listOrders w hw hinput
  refine ⟨opened, w, lines, lines', footer, hopened, hlines, hlast, hw, hlines', hlast', ?_, ?_⟩
  · rw [htbs]
    decide
  · rw [hexecs, ownOf_map_inl]
    decide

end QemuProfiler.Threads

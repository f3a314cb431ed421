/-
  QemuProfiler.Threads.Pipeline
  ─────────────────────────────
  **FROM THE COMMAND LINE OF THE EMULATOR TO A TEXT PROFILE.**

  The plugin is installed with some arguments, the threads run in any
  interleaving, and the file they leave is converted.

    • `command_on_file` — which conversions succeed is decided by the last
      usable tier among the arguments,
    • `advice_followed` — a refused conversion names an argument; after a run
      with that argument added it is not refused for its tier any more,
    • `counts_in_text` — what the text profile of a streaming run says about a
      branch is how often the guest took it.
-/
import QemuProfiler.Convert.Main
import QemuProfiler.Convert.TextRoundTrip
import QemuProfiler.Threads.FallThroughs
import QemuProfiler.Threads.Opened
import QemuProfiler.Threads.RunFile

namespace QemuProfiler.Threads

open QemuProfiler.Lib QemuProfiler.Plugin QemuProfiler.Qemu QemuProfiler.Edges QemuProfiler.Format
open QemuProfiler.Convert hiding fileMagic FileHeader tierName

/-! ## §1. The file of a run. -/

/-- What a run can leave: the log cut behind its header when the emulator is
killed, or the log that the exit handler completes. -/
inductive LeavesFile (s : System) : List UInt8 → Prop where
  | killed {w : ProfileWriter} {n : Nat} (hw : s.machine.plugin.writer = some w) (hn : 64 ≤ n) :
      LeavesFile s (w.writer.take n)
  | exited {o : ExitOrders} {w : ProfileWriter}
      (hexit : pluginExit o s.machine.plugin (execSum s.machine) = some w) :
      LeavesFile s w.writer

section Runs

variable {boolParse : String → Option Bool} {tier3 : Bool} {info : QemuInfo}
  {argv : List (List UInt8)} {host : HostInfo} {evs : List (Event ⊕ Runtime)} {s : System}
  {out : List (Action ⊕ Seen)} {file : List UInt8}

/-- The header a converter finds. -/
theorem header_leavesFile
    (h : runWith info.versionCur (systemOf (qemuPluginInstall boolParse tier3 info argv) host) evs
      = some (s, out)) (hfile : LeavesFile s file) (ρb ρf : IterOrder) :
    ∃ p, parse ρb ρf file = .ok p
      ∧ p.header = headerFor (lastSettings boolParse (argv.map fromUtf8Lossy))
          info.systemEmulation host := by
  cases hfile with
  | killed hw hn =>
      obtain ⟨p, hp, hhead, _⟩ := killed_identity h ρb ρf hw hn
      exact ⟨p, hp, hhead⟩
  | exited hexit =>
      obtain ⟨p, hp, hhead, _⟩ := exited_identity h ρb ρf hexit
      exact ⟨p, hp, hhead⟩

variable {world : World} {command : Commands} {input binary output : String}

theorem nativeParse_file (hinput : world.openFile input = .ok file) :
    nativeParse world input = parse world.branchOrder world.fallThroughOrder file := by
  unfold nativeParse
  rw [hinput]
  rfl

/-! ## §2. The tier decides. -/

/-- A tier below what the command needs. -/
theorem refused_on_file
    (h : runWith info.versionCur (systemOf (qemuPluginInstall boolParse tier3 info argv) host) evs
      = some (s, out)) (hfile : LeavesFile s file) (hinput : world.openFile input = .ok file)
    (hlow : (lastSettings boolParse (argv.map fromUtf8Lossy)).tier < command.format.minTier) :
    main world command input binary output
      = ⟨["error: " ++ (tierText command.format
            (lastSettings boolParse (argv.map fromUtf8Lossy)).tier
          ++ tierAdvice command.format.minTier)], [], 1⟩ := by
  obtain ⟨p, hp, hhead⟩ := header_leavesFile h hfile world.branchOrder world.fallThroughOrder
  have htier : p.header.tier = (lastSettings boolParse (argv.map fromUtf8Lossy)).tier :=
    congrArg (fun header => header.tier) hhead
  rw [main_lowTier ((nativeParse_file hinput).trans hp) (htier.trans_lt hlow), htier]

/-- Otherwise the binary and the output decide. -/
theorem converted_on_file
    (h : runWith info.versionCur (systemOf (qemuPluginInstall boolParse tier3 info argv) host) evs
      = some (s, out)) (hfile : LeavesFile s file) (hinput : world.openFile input = .ok file)
    (htier : command.format.minTier ≤ (lastSettings boolParse (argv.map fromUtf8Lossy)).tier) :
    (main world command input binary output).exitCode = 0
      ↔ Equipped world command.format input binary output := by
  obtain ⟨p, hp, hhead⟩ := header_leavesFile h hfile world.branchOrder world.fallThroughOrder
  have htier' : command.format.minTier ≤ p.header.tier := by
    rw [hhead]
    exact htier
  exact main_equipped ((nativeParse_file hinput).trans hp) htier'

/-- **WHAT A COMMAND DOES WITH THE FILE OF A RUN**, whether the emulator exited
or was killed: it succeeds exactly when the last usable tier among the
arguments is what it needs, the binary can be loaded, and the output can be
created and takes the text.  Then it writes that one file, whole.  It leaves a
file behind exactly when it comes to create one: a failure to write it is the
only one after that. -/
theorem command_on_file
    (h : runWith info.versionCur (systemOf (qemuPluginInstall boolParse tier3 info argv) host) evs
      = some (s, out)) (hfile : LeavesFile s file) (hinput : world.openFile input = .ok file) :
    ((main world command input binary output).exitCode = 0
        ↔ command.format.minTier ≤ ((values "tier=" (argv.map fromUtf8Lossy)).filterMap
            parseTier).getLastD 1
          ∧ Equipped world command.format input binary output)
      ∧ ((main world command input binary output).exitCode = 0 →
        ∃ profile elf, nativeParse world input = .ok profile
          ∧ elfIndexFromFile world binary = .ok elf
          ∧ (main world command input binary output).written
            = [(output, command.format.content world profile elf)])
      ∧ (command.format.minTier ≤ ((values "tier=" (argv.map fromUtf8Lossy)).filterMap
            parseTier).getLastD 1
          ∧ (∃ elf, elfIndexFromFile world binary = .ok elf)
          ∧ world.createFile output = .ok ()
        ↔ (main world command input binary output).written.map Prod.fst = [output])
      ∧ ((main world command input binary output).written.map Prod.fst = [output]
        ∨ (main world command input binary output).written = []) := by
  obtain ⟨p, hp, hhead⟩ := header_leavesFile h hfile world.branchOrder world.fallThroughOrder
  have hparsed : nativeParse world input = .ok p := (nativeParse_file hinput).trans hp
  have htier : p.header.tier
      = ((values "tier=" (argv.map fromUtf8Lossy)).filterMap parseTier).getLastD 1 := by
    rw [hhead]
    rfl
  -- the tier in the header is the one the plugin was given
  rw [← htier]
  refine ⟨?_, ?_, ?_, ?_⟩
  · by_cases hmin : command.format.minTier ≤ p.header.tier
    · rw [main_equipped hparsed hmin]
      exact ⟨fun hequipped => ⟨hmin, hequipped⟩, fun hok => hok.2⟩
    · rw [main_lowTier hparsed (UInt8.not_le.mp hmin)]
      exact ⟨fun hone => absurd hone (by simp), fun hok => absurd hok.1 hmin⟩
  · intro hzero
    rcases main_cases world command input binary output with
      ⟨profile, elf, hall, ⟨_, heq⟩ | ⟨failure, _, heq⟩⟩ | ⟨_, hstatus⟩
    · refine ⟨profile, elf, hall.parsed, hall.loaded, ?_⟩
      rw [heq]
    · rw [heq] at hzero
      exact absurd hzero (by simp)
    · exact absurd hzero hstatus
  · constructor
    · rintro ⟨hmin, ⟨elf, hloaded⟩, hcreated⟩
      exact main_names ⟨hparsed, hmin, hloaded, hcreated⟩
    · intro hnames
      rcases main_cases world command input binary output with
        ⟨profile, elf, hall, _⟩ | ⟨hnone, _⟩
      · obtain rfl : p = profile := Except.ok.inj (hparsed.symm.trans hall.parsed)
        exact ⟨hall.tier, ⟨elf, hall.loaded⟩, hall.created⟩
      · rw [hnone] at hnames
        exact absurd hnames (by simp)
  · rcases main_cases world command input binary output with
      ⟨profile, elf, hall, _⟩ | ⟨hnone, _⟩
    · exact .inl (main_names hall)
    · exact .inr hnone

/-! ## §3. Following the advice. -/

theorem values_concat (key : String) (args : List String) (arg : String) :
    values key (args ++ [arg]) = values key args ++ (stripPrefix key arg).toList := by
  unfold values
  rw [List.filterMap_append]
  cases hval : stripPrefix key arg <;> simp [hval]

/-- A tier at the end replaces the others and nothing else. -/
theorem lastSettings_tier (boolParse : String → Option Bool) (args : List String) {val : String}
    {t : UInt8} (ht : parseTier val = some t) :
    lastSettings boolParse (args ++ ["tier=" ++ val])
      = { lastSettings boolParse args with tier := t } := by
  have hother : ∀ key ∈ optionKeys, key ≠ "tier=" →
      values key (args ++ ["tier=" ++ val]) = values key args := by
    intro key hkey hne
    have hnone : stripPrefix key ("tier=" ++ val) = none :=
      stripPrefix_others (show "tier=" ∈ optionKeys by decide) (stripPrefix_append "tier=" val)
        key hkey (Ne.symm hne)
    rw [values_concat, hnone]
    exact List.append_nil _
  have htier : values "tier=" (args ++ ["tier=" ++ val]) = values "tier=" args ++ [val] := by
    rw [values_concat, stripPrefix_append]
    rfl
  unfold lastSettings
  rw [hother "output=" (by decide) (by decide), hother "top_n=" (by decide) (by decide),
      hother "stream=" (by decide) (by decide), hother "binary=" (by decide) (by decide), htier,
      List.filterMap_append]
  simp [ht]

/-- The plugin knows the names that the converter uses. -/
theorem parseTier_advice (command : Commands) :
    parseTier (Convert.tierName command.format.minTier) = some command.format.minTier := by
  cases command <;> decide

/-- The argument that a command needs. -/
def neededArgument (command : Commands) : String :=
  "tier=" ++ Convert.tierName command.format.minTier

/-- **THE ADVICE OF A REFUSED CONVERSION WORKS.**  When a command refuses the
file of a run for its tier, its message ends with the argument that is missing;
and the file of any later run whose arguments have it at their end is refused
no more: all settings but the tier are the same, and the command fails only if
the binary cannot be loaded or the output not be created or written. -/
theorem advice_followed
    (h : runWith info.versionCur (systemOf (qemuPluginInstall boolParse tier3 info argv) host) evs
      = some (s, out)) (hfile : LeavesFile s file) (hinput : world.openFile input = .ok file)
    (hlow : (lastSettings boolParse (argv.map fromUtf8Lossy)).tier < command.format.minTier) :
    (∃ text, main world command input binary output
        = ⟨["error: " ++ (text ++ ("Re-run the plugin with " ++ neededArgument command ++ "."))],
            [], 1⟩)
      ∧ ∀ {host' : HostInfo} {evs' : List (Event ⊕ Runtime)} {s' : System}
          {out' : List (Action ⊕ Seen)} {file' : List UInt8} {world' : World} {input' : String},
        runWith info.versionCur (systemOf (qemuPluginInstall boolParse tier3 info
            (argv ++ [asBytes (neededArgument command)])) host') evs' = some (s', out') →
        LeavesFile s' file' → world'.openFile input' = .ok file' →
        lastSettings boolParse ((argv ++ [asBytes (neededArgument command)]).map fromUtf8Lossy)
            = { lastSettings boolParse (argv.map fromUtf8Lossy) with
                tier := command.format.minTier }
          ∧ ((main world' command input' binary output).exitCode = 0
            ↔ Equipped world' command.format input' binary output) := by
  constructor
  · have hadvice : tierAdvice command.format.minTier
        = "Re-run the plugin with " ++ neededArgument command ++ "." := by
      cases command <;> decide
    refine ⟨tierText command.format (lastSettings boolParse (argv.map fromUtf8Lossy)).tier, ?_⟩
    rw [refused_on_file h hfile hinput hlow, hadvice]
  · intro host' evs' s' out' file' world' input' h' hfile' hinput'
    have hsettings : lastSettings boolParse
          ((argv ++ [asBytes (neededArgument command)]).map fromUtf8Lossy)
        = { lastSettings boolParse (argv.map fromUtf8Lossy) with
            tier := command.format.minTier } := by
      rw [List.map_append, List.map_singleton, fromUtf8Lossy_asBytes]
      exact lastSettings_tier boolParse _ (parseTier_advice command)
    refine ⟨hsettings, converted_on_file h' hfile' hinput' ?_⟩
    rw [hsettings]
    exact UInt8.le_refl _

/-! ## §4. Counts. -/

/-- The profile of the exit, of a run with runtime events. -/
theorem exitProfile_runWith {config : PluginConfig} {sysemu : Bool} {arch : String}
    {apiVersion : Int}
    (h : runWith apiVersion (System.init config tier3 sysemu arch host) evs = some (s, out))
    {o : ExitOrders} {w : ProfileWriter}
    (hexit : pluginExit o s.machine.plugin (execSum s.machine) = some w) (ρb ρf : IterOrder) :
    ∃ s₀ t p, runFrom (System.init config tier3 sysemu arch host) (ownOf evs)
        = some (s₀, ownOf out)
      ∧ s = s₀.withTables t ∧ parse ρb ρf w.writer = .ok p
      ∧ ExitProfile o s₀.machine.plugin (execSum s₀.machine)
          ((loggedOf (ownOf out)).map ofTriple) p := by
  obtain ⟨s₀, t, hrun, rfl⟩ := observed h
  obtain ⟨w₀, hw₀, _⟩ := Option.map_eq_some_iff.mp ((pluginExit_eq _ _ _).symm.trans hexit)
  obtain ⟨w', p, hexit', hparse, hp⟩ := parse_exit o (execSum (s₀.withTables t).machine) hw₀
    ((runFrom_writerInv hrun).opened w₀ hw₀).1 ρb ρf
  rw [hexit, Option.some.injEq] at hexit'
  refine ⟨s₀, t, p, hrun, rfl, ?_, ?_⟩
  · rw [hexit']
    exact hparse
  · -- tier 3's tables are no part of it
    exact ⟨hp.tbExecs, hp.branchEdges, hp.directCalls, hp.indirectCalls, hp.footer⟩

/-- The branch of a record. -/
def branchOf : Bolt.Record → Option OffsetEntry
  | .branch e _ => some e
  | .fallThrough _ => none

/-- The branches that a text profile lists. -/
def branchesIn : Commands → Text → Option (List OffsetEntry)
  | .bolt, text => (Bolt.read text).map fun records => records.filterMap branchOf
  | .autofdo, text => (Autofdo.read text).map fun r => r.2
  | .gccAutofdo, text => (GccAutofdo.read text).map fun r => r.2.2
  | _, _ => none

/-- The conversions that list branches. -/
def listsBranches : Commands → Bool
  | .bolt | .autofdo | .gccAutofdo => true
  | _ => false

/-- Such a text lists the branches of the profile. -/
theorem branchesIn_content (hcommand : listsBranches command = true) (profile : Profile)
    (elf : ElfIndex) :
    branchesIn command (command.format.content world profile elf)
      = some (offsetsOf (baseOf profile elf) profile.branchEdges) := by
  cases command with
  | bolt =>
      have hbranch : ∀ es : List OffsetEntry,
          (es.map (Bolt.Record.branch · 0)).filterMap branchOf = es := by
        intro es
        rw [List.filterMap_map]
        exact List.filterMap_some
      have hfall : ∀ es : List OffsetEntry,
          (es.map Bolt.Record.fallThrough).filterMap branchOf = [] := by
        intro es
        rw [List.filterMap_map, List.filterMap_eq_nil_iff]
        intro e _
        rfl
      show (Bolt.read (Bolt.emit profile elf)).map _ = _
      rw [Bolt.read_emit, Option.map_some, List.filterMap_append, hbranch, hfall, List.append_nil]
  | autofdo =>
      show (Autofdo.read (Autofdo.emit profile elf)).map _ = _
      rw [Autofdo.read_emit]
      rfl
  | gccAutofdo =>
      show (GccAutofdo.read (GccAutofdo.emit profile elf)).map _ = _
      rw [GccAutofdo.read_emit]
      rfl
  | _ => exact absurd hcommand (by decide)

/-- What a profile is converted relative to. -/
def baseFor (host : HostInfo) (elf : ElfIndex) : UInt64 :=
  if host.startCode ≠ 0 then host.startCode else elf.loadAddr

/-- Offsets name an edge as well as addresses do. -/
theorem mem_offsetsOf (base f t : UInt64) (edges : List EdgeRecord) :
    (f - base, t - base) ∈ (offsetsOf base edges).map (fun e => (e.1, e.2.1))
      ↔ (f, t) ∈ edges.map EdgeRecord.key := by
  unfold offsetsOf
  rw [List.map_map, List.mem_map, List.mem_map]
  constructor
  · rintro ⟨e, he, heq⟩
    obtain ⟨hf, ht⟩ := Prod.mk.inj heq
    exact ⟨e, he, Prod.ext (sub_left_injective hf) (sub_left_injective ht)⟩
  · rintro ⟨e, he, heq⟩
    obtain ⟨hf, ht⟩ := Prod.mk.inj heq
    refine ⟨e, he, ?_⟩
    rw [← hf, ← ht]
    rfl

theorem nodup_offsetsOf (base : UInt64) {edges : List EdgeRecord}
    (h : (edges.map EdgeRecord.key).Nodup) :
    ((offsetsOf base edges).map fun e => (e.1, e.2.1)).Nodup := by
  have hmap : (offsetsOf base edges).map (fun e => (e.1, e.2.1))
      = (edges.map EdgeRecord.key).map fun k => (k.1 - base, k.2 - base) := by
    unfold offsetsOf
    rw [List.map_map, List.map_map]
    rfl
  rw [hmap]
  refine h.map fun k k' heq => ?_
  obtain ⟨hf, ht⟩ := Prod.mk.inj heq
  exact Prod.ext (sub_left_injective hf) (sub_left_injective ht)

/-- `w` is the file of a run in streaming mode that came to rest: the log was
opened before the first flush, and the executions `entries` on `n` vCPUs all
completed. -/
inductive Streamed (host : HostInfo) (n : Nat) (entries : List ExecRecord) :
    ProfileWriter → Prop where
  | intro {boolParse : String → Option Bool} {tier3 : Bool} {info : QemuInfo}
      {argv : List (List UInt8)} {evs : List (Event ⊕ Runtime)} {s : System}
      {out : List (Action ⊕ Seen)} {o : ExitOrders} {w : ProfileWriter}
      (h : runWith info.versionCur (systemOf (qemuPluginInstall boolParse tier3 info argv) host)
        evs = some (s, out))
      (htier : 1 ≤ (lastSettings boolParse (argv.map fromUtf8Lossy)).tier)
      (hstreaming : (lastSettings boolParse (argv.map fromUtf8Lossy)).streaming = true)
      (hopen : host.outputOpens = true)
      (hflush : FlushesAfterOpening
        (systemOf (qemuPluginInstall boolParse tier3 info argv) host) (ownOf evs))
      (hidle : ∀ v < s.machine.numVcpus, s.threads v = .idle)
      (hcomplete : ∀ r ∈ entriesOf (notesOf
        (systemOf (qemuPluginInstall boolParse tier3 info argv) host) (ownOf evs)),
        r.complete = true)
      (hexit : pluginExit o s.machine.plugin (execSum s.machine) = some w)
      (hn : s.machine.numVcpus = n)
      (hentries : entriesOf (notesOf
        (systemOf (qemuPluginInstall boolParse tier3 info argv) host) (ownOf evs)) = entries) :
      Streamed host n entries w

/-- The profile of such a file lists the branches that were taken. -/
structure StreamedProfile (host : HostInfo) (n : Nat) (entries : List ExecRecord) (p : Profile) :
    Prop where
  tier : 1 ≤ p.header.tier
  loadAddr : p.header.loadAddr = host.startCode
  nodup : (p.branchEdges.map EdgeRecord.key).Nodup
  keys : ∀ f t, (f, t) ∈ p.branchEdges.map EdgeRecord.key
    ↔ 0 < pairCount ExecRecord.vcpu n (takes f t) entries
  counts : ∀ e ∈ p.branchEdges, e.count
    = UInt64.ofNat (pairCount ExecRecord.vcpu n (takes e.fromAddr e.toAddr) entries)
  vcpus : ∀ r ∈ entries, r.vcpu < n

theorem Streamed.profile {n : Nat} {entries : List ExecRecord} {w : ProfileWriter}
    (h : Streamed host n entries w) (ρb ρf : IterOrder) :
    ∃ p, parse ρb ρf w.writer = .ok p ∧ StreamedProfile host n entries p := by
  obtain @⟨boolParse, tier3, info, argv, evs, s, out, o, _, h, htier, hstreaming, hopen, hflush,
    hidle, hcomplete, hexit, rfl, rfl⟩ := h
  have hconfig : (qemuPluginInstall boolParse tier3 info argv).state.config
      = (lastSettings boolParse (argv.map fromUtf8Lossy)).toPluginConfig := config_install
  obtain ⟨s₀, t, p, hrun, rfl, hparse, hp⟩ := exitProfile_runWith h hexit ρb ρf
  obtain ⟨p', hparse', hhead⟩ := header_leavesFile h (.exited hexit) ρb ρf
  obtain rfl : p = p' := Except.ok.inj (hparse.symm.trans hparse')
  have htierConfig : 1 ≤ (qemuPluginInstall boolParse tier3 info argv).state.config.tier := by
    rw [hconfig]
    exact htier
  have hstreamConfig :
      (qemuPluginInstall boolParse tier3 info argv).state.config.streaming = true := by
    rw [hconfig]
    exact hstreaming
  obtain ⟨hkeys, hcounts⟩ := branchEdges_streaming hrun htierConfig hstreamConfig hopen hflush
    hidle hcomplete hp
  have hvcpus := vcpu_entriesOf hrun
  exact ⟨p, hparse, hhead ▸ htier, hhead ▸ rfl, hp.branchEdges.nodup, hkeys, hcounts, hvcpus⟩

/-- **The text** of such a file. -/
theorem Streamed.text {n : Nat} {entries : List ExecRecord} {w : ProfileWriter}
    (h : Streamed host n entries w) (hinput : world.openFile input = .ok w.writer)
    {elf : ElfIndex} (hloaded : elfIndexFromFile world binary = .ok elf)
    (houtput : Writable world output) (hcommand : listsBranches command = true) :
    ∃ text branches, (main world command input binary output).written = [(output, text)]
      ∧ branchesIn command text = some branches
      ∧ (branches.map fun e => (e.1, e.2.1)).Nodup
      ∧ (∀ f t, (f - baseFor host elf, t - baseFor host elf)
            ∈ branches.map (fun e => (e.1, e.2.1))
          ↔ 0 < pairCount ExecRecord.vcpu n (takes f t) entries)
      ∧ ∀ e ∈ branches, e.2.2
          = UInt64.ofNat (pairCount ExecRecord.vcpu n
              (takes (e.1 + baseFor host elf) (e.2.1 + baseFor host elf)) entries) := by
  obtain ⟨p, hparse, hp⟩ := h.profile world.branchOrder world.fallThroughOrder
  have hbase : baseOf p elf = baseFor host elf := by
    unfold baseOf
    rw [hp.loadAddr]
    rfl
  have hmin : command.format.minTier ≤ p.header.tier := by
    have hone : command.format.minTier = 1 := by
      cases command <;> first | rfl | exact absurd hcommand (by decide)
    rw [hone]
    exact hp.tier
  have hwritten := main_writable ((nativeParse_file hinput).trans hparse) hmin hloaded houtput
  refine ⟨command.format.content world p elf, offsetsOf (baseFor host elf) p.branchEdges,
    hwritten, ?_, nodup_offsetsOf _ hp.nodup, ?_, ?_⟩
  · rw [branchesIn_content hcommand, hbase]
  · intro f t
    rw [mem_offsetsOf]
    exact hp.keys f t
  · intro e he
    obtain ⟨edge, hedge, rfl⟩ := List.mem_map.mp he
    show edge.count = UInt64.ofNat (pairCount _ _ (takes (edge.fromAddr - _ + _)
      (edge.toAddr - _ + _)) _)
    rw [UInt64.sub_add_cancel, UInt64.sub_add_cancel]
    exact hp.counts edge hedge

/-- **THE COUNTS OF A TEXT PROFILE ARE THOSE OF THE GUEST.**  Install the plugin
with streaming on, let the threads run in any interleaving in which the log is
opened before the first flush and all callbacks and executions complete, and
convert the file of the exit: the text lists each branch that was taken between
consecutive executions of some vCPU, once, relative to the load address, with
the number of times it was taken. -/
theorem counts_in_text
    (h : runWith info.versionCur (systemOf (qemuPluginInstall boolParse tier3 info argv) host) evs
      = some (s, out))
    (htier : 1 ≤ (lastSettings boolParse (argv.map fromUtf8Lossy)).tier)
    (hstreaming : (lastSettings boolParse (argv.map fromUtf8Lossy)).streaming = true)
    (hopen : host.outputOpens = true)
    (hflush : FlushesAfterOpening
      (systemOf (qemuPluginInstall boolParse tier3 info argv) host) (ownOf evs))
    (hidle : ∀ v < s.machine.numVcpus, s.threads v = .idle)
    (hcomplete : ∀ r ∈ entriesOf (notesOf
      (systemOf (qemuPluginInstall boolParse tier3 info argv) host) (ownOf evs)),
      r.complete = true)
    {o : ExitOrders} {w : ProfileWriter}
    (hexit : pluginExit o s.machine.plugin (execSum s.machine) = some w)
    (hinput : world.openFile input = .ok w.writer) {elf : ElfIndex}
    (hloaded : elfIndexFromFile world binary = .ok elf)
    (houtput : Writable world output) (hcommand : listsBranches command = true) :
    ∃ text branches, (main world command input binary output).written = [(output, text)]
      ∧ branchesIn command text = some branches
      ∧ (branches.map fun e => (e.1, e.2.1)).Nodup
      ∧ (∀ f t, (f - baseFor host elf, t - baseFor host elf)
            ∈ branches.map (fun e => (e.1, e.2.1))
          ↔ 0 < pairCount ExecRecord.vcpu s.machine.numVcpus (takes f t)
            (entriesOf (notesOf
              (systemOf (qemuPluginInstall boolParse tier3 info argv) host) (ownOf evs))))
      ∧ ∀ e ∈ branches, e.2.2
          = UInt64.ofNat (pairCount ExecRecord.vcpu s.machine.numVcpus
              (takes (e.1 + baseFor host elf) (e.2.1 + baseFor host elf))
              (entriesOf (notesOf
                (systemOf (qemuPluginInstall boolParse tier3 info argv) host) (ownOf evs)))) :=
  (Streamed.intro h htier hstreaming hopen hflush hidle hcomplete hexit rfl rfl).text hinput
    hloaded houtput hcommand

end Runs

/-! ## §5. Worlds with one profile. -/

/-- A binary without symbols and sections. -/
def strippedImage : ElfImage where
  elf := { syms := [], dynsyms := [], strtab := fun _ => none, dynstrtab := fun _ => none
           programHeaders := [] }
  eiData := 1
  sectionHeaders := []
  shdrStrtab := fun _ => none
  data := []
  data_lt := by decide
  syms_lt := by decide

/-- The profile is `file`, and all files can be created and written. -/
def worldOf (file : List UInt8) : World where
  openFile := fun _ => .ok file
  readFile := fun _ => .ok []
  createFile := fun _ => .ok ()
  writeFile := fun _ _ => .ok ()
  parseElf := fun _ => .ok strippedImage
  branchOrder := []
  fallThroughOrder := []
  mapOrder := []

theorem worldOf_writable (file : List UInt8) (output : String) : Writable (worldOf file) output :=
  ⟨rfl, fun _ => rfl⟩

theorem worldOf_loads (file : List UInt8) (binary : String) :
    ∃ elf, elfIndexFromFile (worldOf file) binary = .ok elf ∧ elf.loadAddr = 0 := by
  have hload : Checked.fromFile .release strippedImage
      = .ok ⟨ElfIndex.fromFile strippedImage.elf, none⟩ := by
    have hfits : Build.release = .debug → Checked.LastFits (symbolMap strippedImage.elf) :=
      fun h => nomatch h
    rw [Checked.fromFile_of_fits hfits]
    rfl
  exact ⟨_, elfIndexFromFile_ok rfl rfl hload, rfl⟩

/-- With a profile that can be read nothing is missing in such a world. -/
theorem worldOf_equipped {file : List UInt8} {p : Profile} (hparse : parse [] [] file = .ok p)
    (format : OutputFormat) (input binary output : String) :
    Equipped (worldOf file) format input binary output := by
  obtain ⟨elf, hloaded, _⟩ := worldOf_loads file binary
  exact ⟨p, elf, (nativeParse_file rfl).trans hparse, hloaded, rfl, rfl⟩

/-- A board without tier 3. -/
def plainInfo : QemuInfo := ⟨asBytes "riscv64", false, 6⟩

/-- What the arguments make of it. -/
theorem systemOf_plain {args : List String} {a : Arguments} {printed : List String}
    (hread : readArguments onOff args = (a, printed)) (host : HostInfo) :
    systemOf (qemuPluginInstall onOff false plainInfo (args.map asBytes)) host
      = System.init a.toPluginConfig false false "riscv64" host := by
  have hargs : (args.map asBytes).map fromUtf8Lossy = args := by
    rw [List.map_map]
    refine (List.map_congr_left fun arg _ => ?_).trans (List.map_id args)
    exact fromUtf8Lossy_asBytes arg
  unfold qemuPluginInstall systemOf plainInfo
  rw [hargs, hread, fromUtf8Lossy_asBytes]
  rfl

/-- The profile is `file`, and no output can be written. -/
def fullDisk (file : List UInt8) : World :=
  { worldOf file with writeFile := fun _ _ => .error (.flush "No space left on device" []) }

theorem command_on_file_mmio :
    ∃ w, pluginExit listOrders (outcomeWith 6 board mmioEvents).1.machine.plugin
        (execSum (outcomeWith 6 board mmioEvents).1.machine) = some w
      ∧ (main (worldOf w.writer) .cgprof "a.prof" "a.out" "a.txt").exitCode = 0
      ∧ (main (fullDisk w.writer) .cgprof "a.prof" "a.out" "a.txt").exitCode ≠ 0
      ∧ (main (fullDisk w.writer) .cgprof "a.prof" "a.out" "a.txt").written.map Prod.fst
        = ["a.txt"] := by
  obtain ⟨w, hw⟩ := mmioEvents_exits
  have hrun : runWith boardInfo.versionCur (systemOf (qemuPluginInstall (fun _ => none) true
        boardInfo boardArguments) exampleHost) mmioEvents
      = some ((outcomeWith 6 board mmioEvents).1, (outcomeWith 6 board mmioEvents).2) := by
    rw [systemOf_board]
    exact mmioEvents_run
  obtain ⟨p, hparse, _⟩ := header_leavesFile hrun (.exited hw) [] []
  have htier : Commands.cgprof.format.minTier
      ≤ ((values "tier=" (boardArguments.map fromUtf8Lossy)).filterMap parseTier).getLastD 1 := by
    rw [read_boardArguments]
    decide
  obtain ⟨elf, hloaded, _⟩ := worldOf_loads w.writer "a.out"
  have hloaded' : elfIndexFromFile (fullDisk w.writer) "a.out" = .ok elf := hloaded
  have hdone : (main (worldOf w.writer) .cgprof "a.prof" "a.out" "a.txt").exitCode = 0 ↔ _ :=
    (command_on_file hrun (.exited hw) rfl).1
  have hfull : ((main (fullDisk w.writer) .cgprof "a.prof" "a.out" "a.txt").exitCode = 0 ↔ _) ∧ _ :=
    command_on_file hrun (.exited hw) rfl
  refine ⟨w, hw, hdone.mpr ⟨htier, worldOf_equipped hparse _ _ _ _⟩, ?_,
    hfull.2.2.1.mp ⟨htier, ⟨elf, hloaded'⟩, rfl⟩⟩
  intro hzero
  obtain ⟨_, p', elf', _, _, _, hwritten⟩ := hfull.1.mp hzero
  exact nomatch hwritten

/-- A thread translates one block. -/
def hotEvents : List (Event ⊕ Runtime) :=
  ([.vcpuInit 0, .translate 0 (nopBlock 0x10 0)] ++ sections 0 6 : List Event).map .inl

theorem systemOf_hot :
    systemOf (qemuPluginInstall onOff false plainInfo (["tier=hotness"].map asBytes)) exampleHost
      = installed 0 65536 false := by
  have hread : readArguments onOff ["tier=hotness"]
      = ({ Arguments.default with tier := 0 }, []) := by
    decide
  exact systemOf_plain hread exampleHost

theorem systemOf_edges :
    systemOf (qemuPluginInstall onOff false plainInfo
        (["tier=hotness"].map asBytes ++ [asBytes "tier=edges"])) exampleHost
      = installed 1 65536 false := by
  have hread : readArguments onOff ["tier=hotness", "tier=edges"]
      = ({ Arguments.default with tier := 1 }, []) := by
    decide
  exact systemOf_plain hread exampleHost

theorem hotEvents_exits (tier : UInt8) (htier : tier = 0 ∨ tier = 1) :
    (runWith 6 (installed tier 65536 false) hotEvents).isSome = true
      ∧ ∃ w, pluginExit listOrders
          (outcomeWith 6 (installed tier 65536 false) hotEvents).1.machine.plugin
          (execSum (outcomeWith 6 (installed tier 65536 false) hotEvents).1.machine) = some w := by
  rcases htier with rfl | rfl
  · refine ⟨by decide, Option.isSome_iff_exists.mp ?_⟩
    unfold pluginExit
    rw [Option.isSome_map]
    decide
  · refine ⟨by decide, Option.isSome_iff_exists.mp ?_⟩
    unfold pluginExit
    rw [Option.isSome_map]
    decide

theorem advice_followed_hot :
    ∃ w w' : ProfileWriter, ∃ text,
      main (worldOf w.writer) .bolt "a.prof" "a.out" "a.txt"
          = ⟨["error: " ++ (text ++ "Re-run the plugin with tier=edges.")], [], 1⟩
        ∧ pluginExit listOrders
            (outcomeWith 6 (installed 1 65536 false) hotEvents).1.machine.plugin
            (execSum (outcomeWith 6 (installed 1 65536 false) hotEvents).1.machine) = some w'
        ∧ (main (worldOf w'.writer) .bolt "b.prof" "a.out" "a.txt").exitCode = 0 := by
  obtain ⟨hruns, w, hw⟩ := hotEvents_exits 0 (.inl rfl)
  obtain ⟨hruns', w', hw'⟩ := hotEvents_exits 1 (.inr rfl)
  have hrun : runWith plainInfo.versionCur (systemOf (qemuPluginInstall onOff false plainInfo
        (["tier=hotness"].map asBytes)) exampleHost) hotEvents
      = some ((outcomeWith 6 (installed 0 65536 false) hotEvents).1,
        (outcomeWith 6 (installed 0 65536 false) hotEvents).2) := by
    rw [systemOf_hot]
    exact runWith_outcomeWith hruns
  have hrun' : runWith plainInfo.versionCur (systemOf (qemuPluginInstall onOff false plainInfo
        (["tier=hotness"].map asBytes ++ [asBytes "tier=edges"])) exampleHost) hotEvents
      = some ((outcomeWith 6 (installed 1 65536 false) hotEvents).1,
        (outcomeWith 6 (installed 1 65536 false) hotEvents).2) := by
    rw [systemOf_edges]
    exact runWith_outcomeWith hruns'
  have hlow : (lastSettings onOff ((["tier=hotness"].map asBytes).map fromUtf8Lossy)).tier
      < Commands.bolt.format.minTier := by
    simp only [List.map_cons, List.map_nil, fromUtf8Lossy_asBytes]
    decide
  have hinput : (worldOf w.writer).openFile "a.prof" = .ok w.writer := rfl
  have hinput' : (worldOf w'.writer).openFile "b.prof" = .ok w'.writer := rfl
  have hadvice : (∃ text, main (worldOf w.writer) .bolt "a.prof" "a.out" "a.txt" = _) ∧ _ :=
    advice_followed hrun (.exited hw) hinput hlow
  obtain ⟨⟨text, htext⟩, hagain⟩ := hadvice
  obtain ⟨p', hparse', _⟩ := header_leavesFile hrun' (.exited hw') [] []
  exact ⟨w, w', text, htext, hw',
    (hagain hrun' (.exited hw') hinput').2.mpr (worldOf_equipped hparse' _ _ _ _)⟩

/-- A streaming run of two vCPUs, by its arguments. -/
def streamingArguments : List String := ["tier=calls", "top_n=1", "stream=on"]

/-- What the plugin starts from under these arguments. -/
def streamingPlugin (host : HostInfo) : System :=
  System.init { PluginConfig.default with tier := 2, topN := 1, streaming := true }
    false false "riscv64" host

theorem systemOf_streaming (host : HostInfo) :
    systemOf (qemuPluginInstall onOff false plainInfo (streamingArguments.map asBytes)) host
      = streamingPlugin host := by
  have hread : readArguments onOff streamingArguments
      = ({ Arguments.default with tier := 2, topN := 1, streaming := true }, []) := by
    decide
  exact systemOf_plain hread host

theorem streamingSettings :
    (lastSettings onOff ((streamingArguments.map asBytes).map fromUtf8Lossy)).tier = 2
      ∧ (lastSettings onOff ((streamingArguments.map asBytes).map fromUtf8Lossy)).streaming
        = true := by
  simp only [streamingArguments, List.map_cons, List.map_nil, fromUtf8Lossy_asBytes]
  decide

/-- The file of a schedule under these arguments. -/
theorem streamed_of_schedule {host : HostInfo} {evs : List Event} {n : Nat}
    (hopens : host.outputOpens = true)
    (hruns : (runFrom (streamingPlugin host) evs).isSome = true)
    (hlost : lostOf (outcome (streamingPlugin host) evs).2 = [])
    (hn : (outcome (streamingPlugin host) evs).1.machine.numVcpus = n)
    (hidle : ∀ v < n, ((outcome (streamingPlugin host) evs).1.threads v).isIdle = true)
    (hcomplete : ∀ r ∈ entriesOf (notesOf (streamingPlugin host) evs), r.complete = true)
    {w : ProfileWriter}
    (hexit : pluginExit listOrders (outcome (streamingPlugin host) evs).1.machine.plugin
      (execSum (outcome (streamingPlugin host) evs).1.machine) = some w) :
    Streamed host n (entriesOf (notesOf (streamingPlugin host) evs)) w := by
  have hplain := runFrom_outcome _ _ hruns
  have hrun : runWith plainInfo.versionCur (systemOf (qemuPluginInstall onOff false plainInfo
        (streamingArguments.map asBytes)) host) (evs.map Sum.inl)
      = some ((outcome (streamingPlugin host) evs).1,
        (outcome (streamingPlugin host) evs).2.map Sum.inl) := by
    rw [systemOf_streaming]
    exact unobserved_run (observer 6) _ _ _ _ hplain
  obtain ⟨htier, hstreaming⟩ := streamingSettings
  refine .intro hrun (by rw [htier]; decide) hstreaming hopens ?_
    (fun v hv => Thread.eq_idle (hidle v (hn ▸ hv))) ?_ hexit hn ?_
  · rw [systemOf_streaming, ownOf_map_inl]
    exact (flushesAfterOpening_iff hopens _ _ _ _ ⟨[], [], rfl⟩ hplain).mpr hlost
  · rw [systemOf_streaming, ownOf_map_inl]
    exact hcomplete
  · rw [systemOf_streaming, ownOf_map_inl]

/-- The two returns, under these arguments. -/
theorem returningEvents_runWith :
    runWith plainInfo.versionCur (systemOf (qemuPluginInstall onOff false plainInfo
        (streamingArguments.map asBytes)) exampleHost) (returningEvents.map Sum.inl)
      = some ((outcome (installed 2 1 true) returningEvents).1,
        (outcome (installed 2 1 true) returningEvents).2.map Sum.inl) := by
  rw [systemOf_streaming]
  exact unobserved_run (observer 6) _ _ _ _ (runFrom_outcome _ _ returningEvents_rests.1)

theorem counts_in_text_returning :
    ∃ (w : ProfileWriter) (elf : ElfIndex) (text : Text) (branches : List OffsetEntry),
      pluginExit listOrders (outcome (installed 2 1 true) returningEvents).1.machine.plugin
          (execSum (outcome (installed 2 1 true) returningEvents).1.machine) = some w
        ∧ (main (worldOf w.writer) .bolt "a.prof" "a.out" "a.txt").written = [("a.txt", text)]
        ∧ branchesIn .bolt text = some branches
        ∧ (0x14 - baseFor exampleHost elf, 0x40 - baseFor exampleHost elf)
          ∈ branches.map (fun e => (e.1, e.2.1)) := by
  obtain ⟨hruns, hidle, hcomplete⟩ := returningEvents_rests
  obtain ⟨w, hw⟩ := returningEvents_exits
  have hplain := runFrom_outcome _ _ hruns
  obtain ⟨htier, hstreaming⟩ := streamingSettings
  obtain ⟨elf, helf, _⟩ := worldOf_loads w.writer "a.out"
  have hinput : (worldOf w.writer).openFile "a.prof" = .ok w.writer := rfl
  have hflush : FlushesAfterOpening (installed 2 1 true) returningEvents :=
    (flushesAfterOpening_iff rfl _ _ _ _ ⟨[], [], rfl⟩ hplain).mpr (by decide)
  obtain ⟨text, branches, hwritten, hbranches, _, hkeys, _⟩ :=
    counts_in_text returningEvents_runWith (by rw [htier]; decide) hstreaming rfl
      (by rw [systemOf_streaming, ownOf_map_inl]; exact hflush)
      (fun v hv => Thread.eq_idle (hidle v hv))
      (by rw [systemOf_streaming, ownOf_map_inl]; exact hcomplete)
      hw hinput helf (worldOf_writable _ _)
      (show listsBranches .bolt = true from rfl)
  refine ⟨w, elf, text, branches, hw, hwritten, hbranches, (hkeys 0x14 0x40).mpr ?_⟩
  rw [systemOf_streaming, ownOf_map_inl]
  decide

end QemuProfiler.Threads

/-
  QemuProfiler.Convert.Main
  ─────────────────────────
  **THE COMMANDS** of `tcg-prof-convert` (`convert/src/main.rs`): parse the
  profile, check its tier, load the binary, create the output and write it.

    • `main_cases` — a command has all it needs and writes its whole file, or
      its status says that it did not; a file is left behind only by a failure
      to write it,
    • `main_lowTier` — a profile of too low a tier is refused with an advice.

  Files, `goblin::elf::Elf::parse` and the iteration orders of hash maps are
  the `World` of a command.
-/
import QemuProfiler.Convert.Cgprof
import QemuProfiler.Convert.ElfSafety
import QemuProfiler.Convert.Emitters
import QemuProfiler.Convert.Temporal
import QemuProfiler.Format.Acceptance

namespace QemuProfiler.Convert

open QemuProfiler.Lib

/-! ## §1. Tiers. -/

/-- Human-readable name for a tier number. -/
def tierName (tier : UInt8) : String :=
  match tier with
  | 0 => "hotness"
  | 1 => "edges"
  | 2 => "calls"
  | 3 => "resources"
  | _ => "unknown"

/-- What to do about a tier that is too low. -/
def tierAdvice (minTier : UInt8) : String :=
  "Re-run the plugin with tier=" ++ tierName minTier ++ "."

/-- Check that a profile meets the minimum tier of a format. -/
def requireTier (profile : Profile) (minTier : UInt8) (formatName : String) :
    Except ParseError Unit :=
  if profile.header.tier < minTier then
    .error (.message (formatName ++ " conversion requires at least tier " ++ toString minTier.toNat
      ++ " (" ++ tierName minTier ++ ") but profile was collected at tier "
      ++ toString profile.header.tier.toNat ++ " (" ++ tierName profile.header.tier ++ "). "
      ++ tierAdvice minTier))
  else .ok ()

/-! ## §2. The stages. -/

/-- A created file that could not be written: the error of a line or of the
flush at the end, and what the file was left with. -/
inductive WriteFailure where
  | write (e : String) (left : Text)
  | flush (e : String) (left : Text)

def WriteFailure.text : WriteFailure → String
  | .write e _ => "write: " ++ e
  | .flush e _ => "flush: " ++ e

def WriteFailure.left : WriteFailure → Text
  | .write _ left => left
  | .flush _ left => left

/-- What a command finds outside.  A failure is the text of its error. -/
structure World where
  /-- `File::open`, with the content. -/
  openFile : String → Except String (List UInt8)
  /-- `fs::read`. -/
  readFile : String → Except String (List UInt8)
  /-- `File::create`. -/
  createFile : String → Except String Unit
  /-- The `writeln!` calls on a created file and the flush after them. -/
  writeFile : String → Text → Except WriteFailure Unit
  /-- `Elf::parse`. -/
  parseElf : List UInt8 → Except String ElfImage
  branchOrder : IterOrder
  fallThroughOrder : IterOrder
  /-- The order of the map an emitter fills. -/
  mapOrder : IterOrder

/-- `result.map_err(|e| format!(..))?`. -/
def mapErr {α : Type} (r : Except String α) (text : String → String) : Except ParseError α :=
  match r with
  | .ok a => .ok a
  | .error e => .error (.message (text e))

/-- `native::parse`. -/
def nativeParse (world : World) (path : String) : Except ParseError Profile := do
  let file ← mapErr (world.openFile path) fun e => "open: " ++ e
  parse world.branchOrder world.fallThroughOrder file

/-- `ElfIndex::from_file`; a slice out of bounds panics. -/
def elfIndexFromFile (world : World) (path : String) : Except ParseError ElfIndex := do
  let data ← mapErr (world.readFile path) fun e => "read " ++ path ++ ": " ++ e
  let image ← mapErr (world.parseElf data) fun e => "parse ELF: " ++ e
  match Checked.fromFile .release image with
  | .ok loaded => .ok loaded.toElfIndex
  | .error _ => .error .panicked

/-! ## §3. The commands. -/

/-- An output format: what it asks of a profile, and what it makes of it. -/
structure OutputFormat where
  name : String
  minTier : UInt8
  /-- Printed when the tier suffices. -/
  warning : Profile → List String
  content : World → Profile → ElfIndex → Text
  /-- Printed at the end, before the path. -/
  summary : World → Profile → ElfIndex → String

/-- What a command did. -/
structure Outcome where
  stderr : List String
  written : List (String × Text)
  exitCode : Nat

/-- The body that the conversions share, up to the creation of the output:
the warnings, and the failure or the text and the last line. -/
def convert (world : World) (format : OutputFormat) (input binary output : String) :
    List String × Except ParseError (Text × String) :=
  match nativeParse world input with
  | .error e => ([], .error e)
  | .ok profile =>
      match requireTier profile format.minTier format.name with
      | .error e => ([], .error e)
      | .ok _ =>
          (format.warning profile, do
            let elf ← elfIndexFromFile world binary
            mapErr (world.createFile output) fun e => "create " ++ output ++ ": " ++ e
            return (format.content world profile elf, format.summary world profile elf ++ output))

def bolt : OutputFormat where
  name := "BOLT"
  minTier := 1
  warning := fun _ => []
  content := fun _ => Bolt.emit
  summary := fun _ profile _ =>
    "bolt: wrote " ++ toString (profile.branchEdges.length + profile.fallThroughEdges.length)
      ++ " records (" ++ toString profile.branchEdges.length ++ " B + "
      ++ toString profile.fallThroughEdges.length ++ " F) to "

/-- Ranges and branches, counted. -/
def rangeSummary (name : String) (profile : Profile) (elf : ElfIndex) : String :=
  name ++ ": wrote " ++ toString (rangesOf (baseOf profile elf) profile).length ++ " ranges + "
    ++ toString profile.branchEdges.length ++ " branches to "

def autofdo : OutputFormat where
  name := "AutoFDO"
  minTier := 1
  warning := fun _ => []
  content := fun _ => Autofdo.emit
  summary := fun _ => rangeSummary "autofdo"

def gccAutofdo : OutputFormat where
  name := "GCC AutoFDO"
  minTier := 1
  warning := fun _ => []
  content := fun _ => GccAutofdo.emit
  summary := fun _ => rangeSummary "gcc-autofdo"

def cgprof : OutputFormat where
  name := "CGSort"
  minTier := 1
  warning := fun profile =>
    if profile.header.tier < 2 then
      ["warning: CGSort works best with tier calls (2); profile has tier "
        ++ toString profile.header.tier.toNat ++ " (" ++ tierName profile.header.tier
        ++ "). Direct/indirect call data will be missing; only cross-function branch edges "
        ++ "will be used."]
    else []
  content := fun world => Cgprof.emit world.mapOrder
  summary := fun world profile elf =>
    "cgprof: wrote " ++ toString (Cgprof.entries world.mapOrder profile elf).length
      ++ " call graph edges to "

def temporal : OutputFormat where
  name := "Temporal"
  minTier := 0
  warning := fun _ => []
  content := fun world => Temporal.emit world.mapOrder
  summary := fun world profile elf =>
    "temporal: wrote " ++ toString (Temporal.funcs world.mapOrder profile elf).length
      ++ " functions in execution order to "

/-- The conversions of the command line; `cgsort` is an alias. -/
inductive Commands where
  | bolt
  | autofdo
  | cgprof
  | cgsort
  | gccAutofdo
  | temporal
  deriving DecidableEq, Repr

def Commands.format : Commands → OutputFormat
  | .bolt => Convert.bolt
  | .autofdo => Convert.autofdo
  | .cgprof | .cgsort => Convert.cgprof
  | .gccAutofdo => Convert.gccAutofdo
  | .temporal => Convert.temporal

section Conversions

variable (world : World) (input binary output : String)

def runBolt : List String × Except ParseError (Text × String) :=
  convert world bolt input binary output

def runAutofdo : List String × Except ParseError (Text × String) :=
  convert world autofdo input binary output

def runGccAutofdo : List String × Except ParseError (Text × String) :=
  convert world gccAutofdo input binary output

def runCgprof : List String × Except ParseError (Text × String) :=
  convert world cgprof input binary output

def runTemporal : List String × Except ParseError (Text × String) :=
  convert world temporal input binary output

end Conversions

/-- The writing of the created output and the end of `main`: a failure is
reported, a panic has its own status. -/
def finish (world : World) (output : String)
    (r : List String × Except ParseError (Text × String)) : Outcome :=
  match r.2 with
  | .ok (content, line) =>
      match world.writeFile output content with
      | .ok _ => ⟨r.1 ++ [line], [(output, content)], 0⟩
      | .error failure => ⟨r.1 ++ ["error: " ++ failure.text], [(output, failure.left)], 1⟩
  | .error (.message text) => ⟨r.1 ++ ["error: " ++ text], [], 1⟩
  | .error .panicked => ⟨r.1, [], 101⟩
  | .error .outOfFuel => ⟨r.1, [], 101⟩ -- never: `convertible_or_error`

def main (world : World) (command : Commands) (input binary output : String) : Outcome :=
  finish world output (match command with
    | .bolt => runBolt world input binary output
    | .autofdo => runAutofdo world input binary output
    | .gccAutofdo => runGccAutofdo world input binary output
    | .cgprof | .cgsort => runCgprof world input binary output
    | .temporal => runTemporal world input binary output)

/-! ## §4. What a command does. -/

theorem main_eq (world : World) (command : Commands) (input binary output : String) :
    main world command input binary output
      = finish world output (convert world command.format input binary output) := by
  cases command <;> rfl

theorem mapErr_ok {α : Type} {r : Except String α} {text : String → String} {a : α} :
    mapErr r text = .ok a ↔ r = .ok a := by
  cases r <;> simp [mapErr]

theorem elfIndexFromFile_ok {world : World} {path : String} {data : List UInt8} {image : ElfImage}
    {loaded : LoadedElf} (hread : world.readFile path = .ok data)
    (hparse : world.parseElf data = .ok image)
    (hload : Checked.fromFile .release image = .ok loaded) :
    elfIndexFromFile world path = .ok loaded.toElfIndex := by
  have hread' : ∀ text, mapErr (world.readFile path) text = .ok data := fun _ => mapErr_ok.mpr hread
  have hparse' : ∀ text, mapErr (world.parseElf data) text = .ok image :=
    fun _ => mapErr_ok.mpr hparse
  unfold elfIndexFromFile
  rw [hread', Format.ok_bind, hparse', Format.ok_bind, hload]

theorem mapErr_error {α : Type} {r : Except String α} {text : String → String} {e : ParseError}
    (h : mapErr r text = .error e) : e ≠ .outOfFuel := by
  cases r with
  | ok a => exact absurd h (by simp [mapErr])
  | error cause =>
      rw [← Except.error.inj h]
      exact nofun

/-- A stage fails, or the rest does. -/
theorem bind_error {α β : Type} {stage : Except ParseError α} {rest : α → Except ParseError β}
    {e : ParseError} (h : (stage >>= rest) = .error e) :
    stage = .error e ∨ ∃ a, stage = .ok a ∧ rest a = .error e := by
  cases stage with
  | error e' => exact .inl (congrArg Except.error (Except.error.inj h))
  | ok a => exact .inr ⟨a, rfl, h⟩

theorem nativeParse_error {world : World} {path : String} {e : ParseError}
    (h : nativeParse world path = .error e) : e ≠ .outOfFuel := by
  rcases bind_error h with hopen | ⟨file, _, hparse⟩
  · exact mapErr_error hopen
  · rintro rfl
    exact Format.parse_ne_error _ _ file (by simp) hparse

theorem elfIndexFromFile_error {world : World} {path : String} {e : ParseError}
    (h : elfIndexFromFile world path = .error e) : e ≠ .outOfFuel := by
  rcases bind_error h with hread | ⟨data, _, h⟩
  · exact mapErr_error hread
  rcases bind_error h with hparse | ⟨image, _, h⟩
  · exact mapErr_error hparse
  cases hload : Checked.fromFile .release image with
  | ok loaded => exact absurd h (by simp [hload])
  | error e' =>
      rw [hload] at h
      rw [← Except.error.inj h]
      exact nofun

/-- The text of a tier that is too low. -/
def tierText (format : OutputFormat) (tier : UInt8) : String :=
  format.name ++ " conversion requires at least tier " ++ toString format.minTier.toNat ++ " ("
    ++ tierName format.minTier ++ ") but profile was collected at tier " ++ toString tier.toNat
    ++ " (" ++ tierName tier ++ "). "

theorem requireTier_eq (profile : Profile) (format : OutputFormat) :
    requireTier profile format.minTier format.name
      = if profile.header.tier < format.minTier then
          .error (.message (tierText format profile.header.tier ++ tierAdvice format.minTier))
        else .ok () := rfl

/-- The profile can be read and the tier suffices, the binary can be loaded and
the output created. -/
structure Convertible (world : World) (format : OutputFormat) (input binary output : String)
    (profile : Profile) (elf : ElfIndex) : Prop where
  parsed : nativeParse world input = .ok profile
  tier : format.minTier ≤ profile.header.tier
  loaded : elfIndexFromFile world binary = .ok elf
  created : world.createFile output = .ok ()

/-- All that a command needs besides a tier: a profile, a binary, and an output
that can be created and takes the text. -/
def Equipped (world : World) (format : OutputFormat) (input binary output : String) : Prop :=
  ∃ profile elf, nativeParse world input = .ok profile
    ∧ elfIndexFromFile world binary = .ok elf ∧ world.createFile output = .ok ()
    ∧ world.writeFile output (format.content world profile elf) = .ok ()

/-- An output that can be created and takes any text. -/
structure Writable (world : World) (output : String) : Prop where
  created : world.createFile output = .ok ()
  written : ∀ text, world.writeFile output text = .ok ()

section Commands

variable {world : World} {command : Commands} {input binary output : String} {profile : Profile}
  {elf : ElfIndex}

/-- The conversion of a profile whose tier suffices. -/
theorem convert_tier {format : OutputFormat} (hparsed : nativeParse world input = .ok profile)
    (htier : format.minTier ≤ profile.header.tier) :
    convert world format input binary output
      = (format.warning profile, do
          let elf ← elfIndexFromFile world binary
          mapErr (world.createFile output) fun e => "create " ++ output ++ ": " ++ e
          return (format.content world profile elf,
            format.summary world profile elf ++ output)) := by
  unfold convert
  rw [hparsed]
  dsimp only
  rw [requireTier_eq, if_neg (UInt8.not_lt.mpr htier)]

/-- A conversion that comes to the creation of its output. -/
theorem convert_convertible {format : OutputFormat}
    (h : Convertible world format input binary output profile elf) :
    convert world format input binary output
      = (format.warning profile,
          .ok (format.content world profile elf, format.summary world profile elf ++ output)) := by
  have hcreate : ∀ text, mapErr (world.createFile output) text = .ok () :=
    fun text => mapErr_ok.mpr h.created
  rw [convert_tier h.parsed h.tier, h.loaded, Format.ok_bind, hcreate]
  rfl

/-- **A conversion** writes its one file and exits with 0. -/
theorem main_written (h : Convertible world command.format input binary output profile elf)
    (hwritten : world.writeFile output (command.format.content world profile elf) = .ok ()) :
    main world command input binary output
      = ⟨command.format.warning profile ++ [command.format.summary world profile elf ++ output],
          [(output, command.format.content world profile elf)], 0⟩ := by
  rw [main_eq, convert_convertible h]
  unfold finish
  dsimp only
  rw [hwritten]

/-- **A failure to write** is an error, and the file stays behind. -/
theorem main_unwritten (h : Convertible world command.format input binary output profile elf)
    {failure : WriteFailure}
    (hfailed : world.writeFile output (command.format.content world profile elf)
      = .error failure) :
    main world command input binary output
      = ⟨command.format.warning profile ++ ["error: " ++ failure.text], [(output, failure.left)],
          1⟩ := by
  rw [main_eq, convert_convertible h]
  unfold finish
  dsimp only
  rw [hfailed]

/-- **A tier that is too low** is an error that says what to do. -/
theorem main_lowTier (hparsed : nativeParse world input = .ok profile)
    (hlow : profile.header.tier < command.format.minTier) :
    main world command input binary output
      = ⟨["error: " ++ (tierText command.format profile.header.tier
          ++ tierAdvice command.format.minTier)], [], 1⟩ := by
  rw [main_eq]
  unfold convert
  rw [hparsed]
  dsimp only
  rw [requireTier_eq, if_pos hlow]
  rfl

theorem finish_error {r : List String × Except ParseError (Text × String)} {e : ParseError}
    (h : r.2 = .error e) :
    (finish world output r).written = [] ∧ (finish world output r).exitCode ≠ 0 := by
  unfold finish
  rw [h]
  cases e <;> exact ⟨rfl, by simp⟩

/-- A conversion comes to the creation of its output, or it fails with an error
of the program. -/
theorem convertible_or_error (world : World) (format : OutputFormat)
    (input binary output : String) :
    (∃ profile elf, Convertible world format input binary output profile elf)
      ∨ ∃ e, (convert world format input binary output).2 = .error e ∧ e ≠ .outOfFuel := by
  cases hparsed : nativeParse world input with
  | error e =>
      right
      refine ⟨e, ?_, nativeParse_error hparsed⟩
      unfold convert
      rw [hparsed]
  | ok profile =>
      by_cases hlow : profile.header.tier < format.minTier
      · right
        refine ⟨.message (tierText format profile.header.tier ++ tierAdvice format.minTier), ?_,
          nofun⟩
        unfold convert
        rw [hparsed]
        dsimp only
        rw [requireTier_eq, if_pos hlow]
      · have htier : format.minTier ≤ profile.header.tier := UInt8.not_lt.mp hlow
        rw [convert_tier hparsed htier]
        cases hloaded : elfIndexFromFile world binary with
        | error e => exact .inr ⟨e, rfl, elfIndexFromFile_error hloaded⟩
        | ok elf =>
            cases hcreated : world.createFile output with
            | error e => exact .inr ⟨.message ("create " ++ output ++ ": " ++ e), rfl, nofun⟩
            | ok u => exact .inl ⟨profile, elf, hparsed, htier, hloaded, hcreated⟩

/-- **ALL OR NOTHING.**  A command either has all it needs, and then it writes
its file or says by its status that it could not; or it creates no file at all
and says so by its status. -/
theorem main_cases (world : World) (command : Commands) (input binary output : String) :
    (∃ profile elf, Convertible world command.format input binary output profile elf
        ∧ ((world.writeFile output (command.format.content world profile elf) = .ok ()
            ∧ main world command input binary output
              = ⟨command.format.warning profile
                  ++ [command.format.summary world profile elf ++ output],
                [(output, command.format.content world profile elf)], 0⟩)
          ∨ ∃ failure,
            world.writeFile output (command.format.content world profile elf) = .error failure
              ∧ main world command input binary output
                = ⟨command.format.warning profile ++ ["error: " ++ failure.text],
                  [(output, failure.left)], 1⟩))
      ∨ ((main world command input binary output).written = []
        ∧ (main world command input binary output).exitCode ≠ 0) := by
  rcases convertible_or_error world command.format input binary output with
    ⟨profile, elf, hall⟩ | ⟨e, he, _⟩
  · left
    refine ⟨profile, elf, hall, ?_⟩
    cases hwrite : world.writeFile output (command.format.content world profile elf) with
    | ok u => exact .inl ⟨rfl, main_written hall hwrite⟩
    | error failure => exact .inr ⟨failure, rfl, main_unwritten hall hwrite⟩
  · right
    rw [main_eq]
    exact finish_error he

/-- Either way the output is the one file there is. -/
theorem main_names (h : Convertible world command.format input binary output profile elf) :
    (main world command input binary output).written.map Prod.fst = [output] := by
  cases hwrite : world.writeFile output (command.format.content world profile elf) with
  | ok u =>
      rw [main_written h hwrite]
      rfl
  | error failure =>
      rw [main_unwritten h hwrite]
      rfl

/-- When the profile can be read and its tier suffices, the rest decides. -/
theorem main_equipped (hparsed : nativeParse world input = .ok profile)
    (htier : command.format.minTier ≤ profile.header.tier) :
    (main world command input binary output).exitCode = 0
      ↔ Equipped world command.format input binary output := by
  constructor
  · intro hzero
    rcases main_cases world command input binary output with
      ⟨profile', elf, hall, ⟨hwritten, _⟩ | ⟨failure, _, heq⟩⟩ | ⟨_, hstatus⟩
    · exact ⟨profile', elf, hall.parsed, hall.loaded, hall.created, hwritten⟩
    · rw [heq] at hzero
      exact absurd hzero (by simp)
    · exact absurd hzero hstatus
  · rintro ⟨profile', elf, hparsed', hloaded, hcreated, hwritten⟩
    obtain rfl : profile = profile' := Except.ok.inj (hparsed.symm.trans hparsed')
    rw [main_written ⟨hparsed, htier, hloaded, hcreated⟩ hwritten]

/-- A command with an output to write to, from the profile to its text. -/
theorem main_writable (hparsed : nativeParse world input = .ok profile)
    (htier : command.format.minTier ≤ profile.header.tier)
    (hloaded : elfIndexFromFile world binary = .ok elf) (houtput : Writable world output) :
    (main world command input binary output).written
      = [(output, command.format.content world profile elf)] := by
  rw [main_written ⟨hparsed, htier, hloaded, houtput.created⟩ (houtput.written _)]

end Commands

end QemuProfiler.Convert

/-
  QemuProfiler.Plugin.Install
  ───────────────────────────
  **INSTALLING THE PLUGIN** (`qemu_plugin_install` of `plugin/src/lib.rs`,
  `parse_tier` and `tier_name` of `plugin/src/state.rs`): the arguments, what
  is printed about them, the state and the registered callbacks.

    • `readArguments_eq` — every setting has the last usable value given for
      it, whatever else is between, and each unknown tier is reported,
    • `readArguments_render` — a configuration written as arguments, in any
      order and among any others, is read back.

  `qemu_plugin_bool_parse` of the emulator is the argument `boolParse`.
-/
import QemuProfiler.Lib.Options
import QemuProfiler.Lib.Text
import QemuProfiler.Lib.Utf8Lossy
import QemuProfiler.Plugin.State

namespace QemuProfiler.Plugin

open QemuProfiler.Lib

/-! ## §1. Tiers. -/

/-- Human-readable tier name for a given tier number. -/
def tierName (tier : UInt8) : String :=
  match tier with
  | 0 => "hotness"
  | 1 => "edges"
  | 2 => "calls"
  | 3 => "resources"
  | _ => "unknown"

/-- Parse a tier name or number. -/
def parseTier (s : String) : Option UInt8 :=
  if s = "hotness" ∨ s = "0" then some 0
  else if s = "edges" ∨ s = "1" then some 1
  else if s = "calls" ∨ s = "2" then some 2
  else if s = "resources" ∨ s = "3" then some 3
  else none

/-- The names of the tiers are what the arguments take. -/
theorem parseTier_tierName {t : UInt8} (h : t ≤ 3) : parseTier (tierName t) = some t := by
  have hcases : t = 0 ∨ t = 1 ∨ t = 2 ∨ t = 3 := by
    have hle : t.toNat ≤ 3 := UInt8.le_iff_toNat_le.mp h
    rcases (show t.toNat = 0 ∨ t.toNat = 1 ∨ t.toNat = 2 ∨ t.toNat = 3 by omega) with
      hn | hn | hn | hn
    · exact Or.inl (UInt8.toNat_inj.mp hn)
    · exact Or.inr (Or.inl (UInt8.toNat_inj.mp hn))
    · exact Or.inr (Or.inr (Or.inl (UInt8.toNat_inj.mp hn)))
    · exact Or.inr (Or.inr (Or.inr (UInt8.toNat_inj.mp hn)))
  rcases hcases with rfl | rfl | rfl | rfl <;> decide

/-- `str::parse::<usize>()`: a sign `+` is allowed, nothing else is. -/
def parseUsize (s : String) : Option UInt64 :=
  match s.toList with
  | '+' :: digits => readU64 10 digits
  | digits => readU64 10 digits

theorem parseUsize_decText (n : UInt64) : parseUsize (String.ofList (decText n)) = some n := by
  have hplus : '+' ∉ decText n := not_mem_decText n (by decide)
  unfold parseUsize
  rw [String.toList_ofList]
  split
  · rename_i digits heq
    rw [heq] at hplus
    exact absurd List.mem_cons_self hplus
  · exact readU64_decText n

/-! ## §2. The arguments. -/

/-- The configuration with the path of the log. -/
@[ext] structure Arguments extends PluginConfig where
  outputPath : String
  deriving DecidableEq, Repr

def Arguments.default : Arguments :=
  { PluginConfig.default with outputPath := "tcg_prof.prof" }

def unknownTier (val : String) : String :=
  "qemu-pgo: unknown tier '" ++ val ++ "', expected hotness|edges|calls|resources or 0-3\n"

/-- The loop body, with what it printed so far. -/
def readArgument (boolParse : String → Option Bool) (r : Arguments × List String)
    (arg : String) : Arguments × List String :=
  match stripPrefix "tier=" arg with
  | some val =>
      match parseTier val with
      | some t => ({ r.1 with tier := t }, r.2)
      | none => (r.1, r.2 ++ [unknownTier val])
  | none =>
    match stripPrefix "output=" arg with
    | some val => ({ r.1 with outputPath := val }, r.2)
    | none =>
      match stripPrefix "top_n=" arg with
      | some val =>
          match parseUsize val with
          | some n => ({ r.1 with topN := n }, r.2)
          | none => r
      | none =>
        match stripPrefix "stream=" arg with
        -- `b` is false, and stays so when parsing fails
        | some val => ({ r.1 with streaming := (boolParse val).getD false }, r.2)
        | none =>
          match stripPrefix "binary=" arg with
          | some val => ({ r.1 with binaryPath := some val }, r.2)
          | none => r

def readArguments (boolParse : String → Option Bool) (args : List String) :
    Arguments × List String :=
  args.foldl (readArgument boolParse) (Arguments.default, [])

/-! ## §3. Every setting by itself. -/

def optionKeys : List String := ["tier=", "output=", "top_n=", "stream=", "binary="]

/-- The other keys do not have the argument of one. -/
theorem stripPrefix_others {key arg val : String} (hkey : key ∈ optionKeys)
    (h : stripPrefix key arg = some val) :
    ∀ other ∈ optionKeys, key ≠ other → stripPrefix other arg = none := by
  have hapart : ∀ k ∈ optionKeys, ∀ k' ∈ optionKeys, k ≠ k' → Apart k k' := by decide
  intro other hother hne
  exact stripPrefix_unique (hapart key hkey other hother hne) h

section Settings

variable (boolParse : String → Option Bool)

/-- What one argument does to each setting, and what is printed about it. -/
def afterArgument (r : Arguments × List String) (arg : String) : Arguments × List String :=
  ({ tier := ((stripPrefix "tier=" arg).bind parseTier).getD r.1.tier
     outputPath := (stripPrefix "output=" arg).getD r.1.outputPath
     topN := ((stripPrefix "top_n=" arg).bind parseUsize).getD r.1.topN
     streaming := ((stripPrefix "stream=" arg).map fun v =>
       (boolParse v).getD false).getD r.1.streaming
     binaryPath := ((stripPrefix "binary=" arg).map some).getD r.1.binaryPath },
    r.2 ++ ((stripPrefix "tier=" arg).filter fun v => (parseTier v).isNone).toList.map
      unknownTier)

/-- **ONE ARGUMENT** sets at most one thing: the keys are tried in turn, and
only one can match. -/
theorem readArgument_eq (r : Arguments × List String) (arg : String) :
    readArgument boolParse r arg = afterArgument boolParse r arg := by
  unfold readArgument afterArgument
  cases htier : stripPrefix "tier=" arg with
  | some val =>
      have hnone := stripPrefix_others (by decide) htier
      rw [hnone "output=" (by decide) (by decide), hnone "top_n=" (by decide) (by decide),
          hnone "stream=" (by decide) (by decide), hnone "binary=" (by decide) (by decide)]
      cases hval : parseTier val <;> simp [hval, Option.filter]
  | none =>
    cases houtput : stripPrefix "output=" arg with
    | some val =>
        have hnone := stripPrefix_others (by decide) houtput
        rw [hnone "top_n=" (by decide) (by decide), hnone "stream=" (by decide) (by decide),
            hnone "binary=" (by decide) (by decide)]
        simp
    | none =>
      cases htopN : stripPrefix "top_n=" arg with
      | some val =>
          have hnone := stripPrefix_others (by decide) htopN
          rw [hnone "stream=" (by decide) (by decide), hnone "binary=" (by decide) (by decide)]
          cases hval : parseUsize val <;> simp [hval]
      | none =>
        cases hstream : stripPrefix "stream=" arg with
        | some val =>
            rw [stripPrefix_others (by decide) hstream "binary=" (by decide) (by decide)]
            simp
        | none => cases stripPrefix "binary=" arg <;> simp

/-- A setting that one argument overwrites has the last value written. -/
theorem view_readArguments {β : Type} (view : Arguments × List String → β)
    (write : String → Option β)
    (h : ∀ r arg, view (afterArgument boolParse r arg) = (write arg).getD (view r))
    (args : List String) :
    view (readArguments boolParse args)
      = (args.filterMap write).getLastD (view (Arguments.default, [])) := by
  apply foldl_last view write
  intro r arg
  rw [readArgument_eq, h]

/-- What is printed about the arguments. -/
theorem printed_readArguments (args : List String) :
    (readArguments boolParse args).2
      = ((values "tier=" args).filter fun v => (parseTier v).isNone).map unknownTier := by
  have hflat : (readArguments boolParse args).2
      = args.flatMap fun arg => ((stripPrefix "tier=" arg).filter fun v =>
          (parseTier v).isNone).toList.map unknownTier := by
    refine (foldl_appends Prod.snd _ (fun r arg => ?_) args _).trans (List.nil_append _)
    rw [readArgument_eq]
    rfl
  rw [hflat]
  clear hflat
  unfold values
  induction args with
  | nil => rfl
  | cons arg args ih =>
      rw [List.flatMap_cons, ih]
      cases hs : stripPrefix "tier=" arg with
      | none => rw [List.filterMap_cons_none hs]; rfl
      | some val =>
          rw [List.filterMap_cons_some hs, List.filter_cons, Option.filter_some]
          cases (parseTier val).isNone <;> rfl

/-- The last usable value of every key, else the default. -/
def lastSettings (args : List String) : Arguments :=
  { tier := ((values "tier=" args).filterMap parseTier).getLastD 1
    outputPath := (values "output=" args).getLastD "tcg_prof.prof"
    topN := ((values "top_n=" args).filterMap parseUsize).getLastD 65536
    streaming := ((values "stream=" args).map fun v => (boolParse v).getD false).getLastD false
    binaryPath := (values "binary=" args).getLast? }

/-- **THE ARGUMENTS, SETTING BY SETTING**: the last usable value of the key,
else the default; and a message for each value of `tier=` that is none. -/
theorem readArguments_eq (args : List String) :
    readArguments boolParse args
      = (lastSettings boolParse args,
        ((values "tier=" args).filter fun v => (parseTier v).isNone).map unknownTier) := by
  have htier := view_readArguments boolParse (fun r => r.1.tier)
    (fun arg => (stripPrefix "tier=" arg).bind parseTier) (fun _ _ => rfl) args
  have houtput := view_readArguments boolParse (fun r => r.1.outputPath)
    (stripPrefix "output=") (fun _ _ => rfl) args
  have htopN := view_readArguments boolParse (fun r => r.1.topN)
    (fun arg => (stripPrefix "top_n=" arg).bind parseUsize) (fun _ _ => rfl) args
  have hstream := view_readArguments boolParse (fun r => r.1.streaming)
    (fun arg => (stripPrefix "stream=" arg).map fun v => (boolParse v).getD false)
    (fun _ _ => rfl) args
  have hbinary := view_readArguments boolParse (fun r => r.1.binaryPath)
    (fun arg => (stripPrefix "binary=" arg).map some) (fun _ _ => rfl) args
  -- a path is given with its `some`, and the default is none
  have hsome : ∀ l : List String, (l.map some).getLastD none = l.getLast? := by
    intro l
    rw [List.getLastD_eq_getLast?, List.getLast?_map]
    cases l.getLast? <;> rfl
  rw [← List.filterMap_filterMap] at htier htopN
  rw [← List.map_filterMap] at hstream hbinary
  refine Prod.ext ?_ (printed_readArguments boolParse args)
  exact Arguments.ext htier htopN hstream (hbinary.trans (hsome _)) houtput

end Settings

/-! ## §4. A configuration as arguments. -/

/-- The arguments for a configuration; `boolText` is how a flag is spelled. -/
def Arguments.render (boolText : Bool → String) (a : Arguments) : List String :=
  ["tier=" ++ tierName a.tier, "output=" ++ a.outputPath,
    "top_n=" ++ String.ofList (decText a.topN), "stream=" ++ boolText a.streaming]
    ++ (a.binaryPath.map ("binary=" ++ ·)).toList

/-- One argument with its key. -/
theorem values_cons_own (key val : String) (args : List String) :
    values key ((key ++ val) :: args) = val :: values key args :=
  List.filterMap_cons_some (stripPrefix_append key val)

theorem values_cons_other {key other : String} (hkey : key ∈ optionKeys)
    (hother : other ∈ optionKeys) (hne : other ≠ key) (val : String) (args : List String) :
    values key ((other ++ val) :: args) = values key args :=
  List.filterMap_cons_none
    (stripPrefix_others hother (stripPrefix_append other val) key hkey hne)

/-- The values of the rendered arguments. -/
theorem values_render (boolText : Bool → String) (a : Arguments) :
    values "tier=" (a.render boolText) = [tierName a.tier]
      ∧ values "output=" (a.render boolText) = [a.outputPath]
      ∧ values "top_n=" (a.render boolText) = [String.ofList (decText a.topN)]
      ∧ values "stream=" (a.render boolText) = [boolText a.streaming]
      ∧ values "binary=" (a.render boolText) = a.binaryPath.toList := by
  have hnil : ∀ key, values key [] = [] := fun _ => rfl
  unfold Arguments.render
  cases a.binaryPath with
  | none =>
      simp (disch := decide) only [Option.map_none, Option.toList_none, List.append_nil,
        values_cons_own, values_cons_other, hnil, and_self]
  | some path =>
      simp (disch := decide) only [Option.map_some, Option.toList_some, List.cons_append,
        List.nil_append, values_cons_own, values_cons_other, hnil, and_self]

/-- **A CONFIGURATION IS READ BACK** from its arguments in any order, with
arguments of no key among them. -/
theorem readArguments_render {boolParse : String → Option Bool} {boolText : Bool → String}
    (hbool : ∀ b, boolParse (boolText b) = some b) {a : Arguments} (htier : a.tier ≤ 3)
    {args : List String}
    (hperm : (args.filter (isOption optionKeys)).Perm (a.render boolText)) :
    readArguments boolParse args = (a, []) := by
  obtain ⟨h₁, h₂, h₃, h₄, h₅⟩ := values_render boolText a
  have hpath : a.binaryPath.toList.length ≤ 1 := by cases a.binaryPath <;> simp
  have htier' := parseTier_tierName htier
  have hgetLast : a.binaryPath.toList.getLast? = a.binaryPath := by cases a.binaryPath <;> rfl
  rw [readArguments_eq]
  unfold lastSettings
  rw [values_of_perm (show "tier=" ∈ optionKeys by decide) hperm (by simp [h₁]),
      values_of_perm (show "output=" ∈ optionKeys by decide) hperm (by simp [h₂]),
      values_of_perm (show "top_n=" ∈ optionKeys by decide) hperm (by simp [h₃]),
      values_of_perm (show "stream=" ∈ optionKeys by decide) hperm (by simp [h₄]),
      values_of_perm (show "binary=" ∈ optionKeys by decide) hperm (by rw [h₅]; exact hpath),
      h₁, h₂, h₃, h₄, h₅]
  simp [htier', parseUsize_decText, hbool, hgetLast]

/-- The spellings of a flag. -/
def onOff (s : String) : Option Bool :=
  if s = "on" ∨ s = "yes" ∨ s = "true" ∨ s = "y" then some true
  else if s = "off" ∨ s = "no" ∨ s = "false" ∨ s = "n" then some false
  else none

def onOffText (b : Bool) : String := if b then "on" else "off"

theorem readArguments_render_shuffled :
    readArguments onOff ["stream=on", "colour=red", "top_n=16", "binary=/bin/ls", "tier=calls",
        "output=a.prof"]
      = (⟨⟨2, 16, true, some "/bin/ls"⟩, "a.prof"⟩, []) :=
  readArguments_render (show ∀ b, onOff (onOffText b) = some b by decide) (by decide) (by decide)

/-! ## §5. Installation. -/

/-- What the plugin reads of the emulator's description. -/
structure QemuInfo where
  targetName : List UInt8
  systemEmulation : Bool
  /-- The API version of the emulator. -/
  versionCur : Int

/-- The callbacks that installation can register. -/
inductive Registration where
  | vcpuTbTrans
  | vcpuInit
  | pluginExit
  | flushCb
  | disconCb
  deriving DecidableEq, Repr

structure Installed where
  state : PluginState
  outputPath : String
  printed : List String
  registered : List Registration

/-- The line that tells the settings. -/
def banner (a : Arguments) (arch : String) : String :=
  "qemu-pgo: tier=" ++ tierName a.tier ++ " output=" ++ a.outputPath ++ " top_n="
    ++ String.ofList (decText a.topN) ++ " stream=" ++ toString a.streaming ++ " arch=" ++ arch
    ++ "\n"

/-- Plugin entry point. -/
def qemuPluginInstall (boolParse : String → Option Bool) (tier3 : Bool) (info : QemuInfo)
    (argv : List (List UInt8)) : Installed :=
  let config := readArguments boolParse (argv.map fromUtf8Lossy)
  let arch := fromUtf8Lossy info.targetName
  { state := PluginState.new config.1.toPluginConfig tier3 info.systemEmulation arch
    outputPath := config.1.outputPath
    printed := config.2 ++ [banner config.1 arch]
    registered := [.vcpuTbTrans, .vcpuInit, .pluginExit, .flushCb]
      ++ (if tier3 && (config.1.tier ≥ 3 && info.versionCur ≥ 6) then [.disconCb] else []) }

/-- **INSTALLATION, BY THE ARGUMENTS.**  The plugin starts with the last usable
value of each setting, else its default; it prints a message for each tier it
does not know and then its settings; and discontinuities are registered when
the tier that comes out and the emulator's version call for them. -/
theorem qemuPluginInstall_eq (boolParse : String → Option Bool) (tier3 : Bool) (info : QemuInfo)
    (argv : List (List UInt8)) :
    qemuPluginInstall boolParse tier3 info argv
      = { state := PluginState.new (lastSettings boolParse (argv.map fromUtf8Lossy)).toPluginConfig
            tier3 info.systemEmulation (fromUtf8Lossy info.targetName)
          outputPath := (values "output=" (argv.map fromUtf8Lossy)).getLastD "tcg_prof.prof"
          printed := ((values "tier=" (argv.map fromUtf8Lossy)).filter
              fun v => (parseTier v).isNone).map unknownTier
            ++ [banner (lastSettings boolParse (argv.map fromUtf8Lossy))
              (fromUtf8Lossy info.targetName)]
          registered := [.vcpuTbTrans, .vcpuInit, .pluginExit, .flushCb]
            ++ (if tier3 = true ∧ 3 ≤ ((values "tier=" (argv.map fromUtf8Lossy)).filterMap
                parseTier).getLastD 1 ∧ 6 ≤ info.versionCur then [.disconCb] else []) } := by
  unfold qemuPluginInstall
  dsimp only
  rw [readArguments_eq]
  have hregistered : (tier3 && (decide ((lastSettings boolParse (argv.map fromUtf8Lossy)).tier ≥ 3)
        && decide (info.versionCur ≥ 6))) = true
      ↔ tier3 = true ∧ 3 ≤ ((values "tier=" (argv.map fromUtf8Lossy)).filterMap
          parseTier).getLastD 1 ∧ 6 ≤ info.versionCur := by
    rw [Bool.and_eq_true, Bool.and_eq_true, decide_eq_true_eq, decide_eq_true_eq]
    rfl
  simp only [hregistered]
  rfl

end QemuProfiler.Plugin

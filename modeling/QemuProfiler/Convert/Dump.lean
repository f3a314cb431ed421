/-
  QemuProfiler.Convert.Dump
  ─────────────────────────
  THE LISTING of `tcg-prof-convert dump` (`run_dump` in `convert/src/main.rs`),
  one entry for each `println!`.

  How the wall time in seconds is printed is a parameter (`{:.3}` of a
  floating-point number).
-/
import QemuProfiler.Convert.Main
import QemuProfiler.Lib.SortTies

namespace QemuProfiler.Convert

open QemuProfiler.Lib

/-! ## §1. Numbers. -/

/-- `{:x}` -/
def hex (x : UInt64) : String := String.ofList (hexText x)

/-- `{}` -/
def dec (x : UInt64) : String := String.ofList (decText x)

/-- `{:3}` -/
def padded (n : Nat) : String :=
  String.ofList (List.replicate (3 - (Nat.toDigits 10 n).length) ' ' ++ Nat.toDigits 10 n)

/-! ## §2. The parts of the listing. -/

/-- How many entries are listed one by one. -/
def dumpLimit : Nat := 20

/-- The entries with the greatest counts, and how many there are besides. -/
def hottest {α : Type} (count : α → UInt64) (line : Nat → α → String) (entries : List α) :
    List String :=
  let sorted := sortDesc count entries
  ((sorted.take dumpLimit).zipIdx.map fun e => line e.2 e.1)
    ++ (if sorted.length > dumpLimit then
          ["  ... and " ++ toString (sorted.length - dumpLimit) ++ " more"]
        else [])

def tbLine (i : Nat) (tb : TbExec) : String :=
  "  [" ++ padded i ++ "] 0x" ++ hex tb.startAddr ++ "-0x" ++ hex tb.endAddr ++ " n_insns="
    ++ toString tb.nInsns.toNat ++ " exec=" ++ dec tb.execCount ++ " first_seen="
    ++ dec tb.firstSeenSeq

def edgeLine (i : Nat) (e : EdgeRecord) : String :=
  "  [" ++ padded i ++ "] 0x" ++ hex e.fromAddr ++ " -> 0x" ++ hex e.toAddr ++ " count="
    ++ dec e.count

def symbolLine (sym : SymbolRecord) : String :=
  "  [" ++ toString sym.symId.toNat ++ "] 0x" ++ hex sym.addr ++ " " ++ sym.name

def headerLines (h : FileHeader) : List String :=
  ["Header:",
    "  version=" ++ toString h.formatVersion.toNat ++ " tier=" ++ toString h.tier.toNat ++ " ("
      ++ tierName h.tier ++ ") ptr_size=" ++ toString h.pointerSize.toNat ++ " flags=0x"
      ++ hex h.flags.toUInt64,
    "  load_addr=0x" ++ hex h.loadAddr ++ " text=[0x" ++ hex h.textStart ++ ", 0x" ++ hex h.textEnd
      ++ ") entry=0x" ++ hex h.entryAddr,
    "  sysemu=" ++ toString (h.flags &&& Plugin.flagSysemu != 0) ++ " streaming="
      ++ toString (h.flags &&& Plugin.flagStreaming != 0)]

/-- A line for a section that is not empty. -/
def lengthLine {α : Type} (title : String) (entries : List α) : List String :=
  if entries.isEmpty then [] else [title ++ toString entries.length]

def tbSection (profile : Profile) : List String :=
  ("\nTB Execs: " ++ toString profile.tbExecs.length)
    :: hottest TbExec.execCount tbLine profile.tbExecs

def edgeSection (profile : Profile) : List String :=
  ("\nBranch Edges: " ++ toString profile.branchEdges.length)
    :: hottest EdgeRecord.count edgeLine profile.branchEdges

/-- The line of a footer. -/
def totalsLine (wallTime : UInt64 → String) (footer : Footer) : String :=
  "  clean_exit=" ++ toString footer.cleanExit ++ " total_tbs=" ++ dec footer.totalTbCount
    ++ " total_edges=" ++ dec footer.totalEdgeRecords ++ " total_exec="
    ++ dec footer.totalExecCount ++ " wall_time=" ++ wallTime footer.wallTimeNs ++ "s"

def missingFooter : String := "\nFooter: MISSING (crash or incomplete write)"

def footerLines (wallTime : UInt64 → String) : Option Footer → List String
  | some footer => ["\nFooter:", totalsLine wallTime footer]
  | none => [missingFooter]

/-! ## §3. The listing. -/

/-- What `run_dump` prints of a profile. -/
def dumpLines (world : World) (wallTime : UInt64 → String) (profile : Profile) : List String :=
  headerLines profile.header
    ++ ("\nMetadata:" :: (profile.metadata.iter world.mapOrder).map fun kv =>
          "  " ++ kv.1 ++ "=" ++ kv.2)
    ++ (("\nSymbols: " ++ toString profile.symbols.length) :: profile.symbols.map symbolLine)
    ++ tbSection profile
    ++ edgeSection profile
    ++ ["\nFall-Through Edges: " ++ toString profile.fallThroughEdges.length]
    ++ lengthLine "\nDirect Calls: " profile.directCalls
    ++ lengthLine "Indirect Calls: " profile.indirectCalls
    ++ lengthLine "TB Resources: " profile.tbResources
    ++ lengthLine "Discontinuities: " profile.disconEvents
    ++ footerLines wallTime profile.footer

/-- `run_dump` -/
def runDump (world : World) (wallTime : UInt64 → String) (input : String) :
    Except ParseError (List String) := do
  let profile ← nativeParse world input
  return dumpLines world wallTime profile

theorem runDump_ok {world : World} {input : String} {profile : Profile}
    (h : nativeParse world input = .ok profile) (wallTime : UInt64 → String) :
    runDump world wallTime input = .ok (dumpLines world wallTime profile) := by
  unfold runDump
  rw [h]
  rfl

/-- **The entries listed**: at most 20, and none that is left out has more. -/
theorem hottest_split {α : Type} (count : α → UInt64) (line : Nat → α → String)
    (entries : List α) :
    ∃ listed rest : List α, (listed ++ rest).Perm entries
      ∧ listed.length = min dumpLimit entries.length
      ∧ (∀ a ∈ listed, ∀ b ∈ rest, count b ≤ count a)
      ∧ hottest count line entries
        = listed.zipIdx.map (fun e => line e.2 e.1)
          ++ (if 0 < rest.length then ["  ... and " ++ toString rest.length ++ " more"]
            else []) := by
  have hperm := sortDesc_perm count entries
  refine ⟨(sortDesc count entries).take dumpLimit, (sortDesc count entries).drop dumpLimit, ?_, ?_,
    key_le_of_drop_sortDesc count entries dumpLimit, ?_⟩
  · rw [List.take_append_drop]
    exact hperm
  · rw [List.length_take, hperm.length_eq]
  · unfold hottest
    dsimp only
    rw [List.length_drop]
    congr 1
    by_cases hmore : (sortDesc count entries).length > dumpLimit
    · rw [if_pos hmore, if_pos (by omega)]
    · rw [if_neg hmore, if_neg (by omega)]

end QemuProfiler.Convert

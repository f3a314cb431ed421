/-
  QemuProfiler.Convert.Emitters
  ─────────────────────────────
  The emitters of address-based text profiles (`bolt.rs`, `autofdo.rs` and
  `gcc_autofdo.rs` of `convert/src`): the content of the file each one writes,
  when creating and writing it succeeds.
-/
import QemuProfiler.Convert.ElfIndex
import QemuProfiler.Convert.Native
import QemuProfiler.Lib.Text

namespace QemuProfiler.Convert

open QemuProfiler.Lib

/-- The runtime base: the load address of the profile, else of the binary. -/
def baseOf (profile : Profile) (elf : ElfIndex) : UInt64 :=
  if profile.header.loadAddr ≠ 0 then profile.header.loadAddr else elf.loadAddr

/-- Two offsets from the base, and a count. -/
abbrev OffsetEntry := UInt64 × UInt64 × UInt64

/-- One range per executed TB, weighted by `exec_count`. -/
def rangesOf (base : UInt64) (profile : Profile) : List OffsetEntry :=
  (profile.tbExecs.filter fun tb => tb.execCount ≠ 0).map fun tb =>
    (tb.startAddr - base, tb.endAddr - base, tb.execCount)

/-- Edges as offsets. -/
def offsetsOf (base : UInt64) (edges : List EdgeRecord) : List OffsetEntry :=
  edges.map fun edge => (edge.fromAddr - base, edge.toAddr - base, edge.count)

/-- `{:x}-{:x}:{}`. -/
def rangeLine (e : OffsetEntry) : Text :=
  hexText e.1 ++ '-' :: (hexText e.2.1 ++ ':' :: decText e.2.2)

/-- `{:x}->{:x}:{}`. -/
def branchLine (e : OffsetEntry) : Text :=
  hexText e.1 ++ '-' :: '>' :: (hexText e.2.1 ++ ':' :: decText e.2.2)

namespace Bolt

/-- `B {:x} {:x} {} 0`: QEMU does not model misprediction. -/
def branchRecord (e : OffsetEntry) : Text :=
  'B' :: ' ' :: (hexText e.1 ++ ' ' :: (hexText e.2.1 ++ ' ' :: (decText e.2.2 ++ [' ', '0'])))

/-- `F {:x} {:x} {}`. -/
def fallThroughRecord (e : OffsetEntry) : Text :=
  'F' :: ' ' :: (hexText e.1 ++ ' ' :: (hexText e.2.1 ++ ' ' :: decText e.2.2))

/-- BOLT pre-aggregated profile. -/
def emit (profile : Profile) (elf : ElfIndex) : Text :=
  let base := baseOf profile elf
  unlines (("E cycles".toList :: (offsetsOf base profile.branchEdges).map branchRecord)
    ++ (offsetsOf base profile.fallThroughEdges).map fallThroughRecord)

end Bolt

namespace Autofdo

/-- llvm-profgen unsymbolized profile. -/
def emit (profile : Profile) (elf : ElfIndex) : Text :=
  let base := baseOf profile elf
  let ranges := rangesOf base profile
  let branches := offsetsOf base profile.branchEdges
  unlines (sectionLines rangeLine ranges ++ sectionLines branchLine branches)

end Autofdo

namespace GccAutofdo

/-- GCC AutoFDO text profile. -/
def emit (profile : Profile) (elf : ElfIndex) : Text :=
  let base := baseOf profile elf
  let ranges := rangesOf base profile
  let branches := offsetsOf base profile.branchEdges
  unlines (sectionLines rangeLine ranges
    -- address entries: QEMU profiles at TB granularity, so the section is empty
    ++ ("0".toList :: sectionLines branchLine branches))

end GccAutofdo

end QemuProfiler.Convert

/-
  QemuProfiler.Convert.ElfIndex
  ─────────────────────────────
  The symbol index (`convert/src/elf_index.rs`): look-ups by address.

  The ordered map from addresses to symbols is the list of its values; the
  map is keyed by the symbols' own addresses, so the list is strictly
  increasing, and the index carries the proof of that.
-/
import QemuProfiler.Lib.SortedIndex
import Mathlib.Data.UInt

namespace QemuProfiler.Convert

open QemuProfiler.Lib

/-- Symbol information from ELF. -/
structure Symbol where
  name : String
  addr : UInt64
  size : UInt64
  deriving DecidableEq, Repr

/-- Index of ELF symbols for address-to-symbol lookups. -/
structure ElfIndex where
  /-- Symbols by address. -/
  symbols : List Symbol
  /-- Load address of the text segment. -/
  loadAddr : UInt64
  /-- One symbol per address, in the order of the addresses. -/
  sorted : symbols.Pairwise fun a b => a.addr < b.addr

namespace ElfIndex

/-- Look up the symbol containing the given address: the one with the largest
address at or before it, if its range (mod 2^64) reaches that far. -/
def symbolAt (elf : ElfIndex) (addr : UInt64) : Option Symbol :=
  (lastAtOrBefore Symbol.addr elf.symbols addr).filter fun sym => addr < sym.addr + sym.size

/-- Look up the symbol name for an address. -/
def nameAt (elf : ElfIndex) (addr : UInt64) : String :=
  ((elf.symbolAt addr).map Symbol.name).getD "[unknown]"

/-- An index with no symbols. -/
def empty (loadAddr : UInt64) : ElfIndex := ⟨[], loadAddr, List.Pairwise.nil⟩

end ElfIndex

end QemuProfiler.Convert

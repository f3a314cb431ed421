/-
  QemuProfiler.Plugin.Resources
  ─────────────────────────────
  The runtime part of tier 3 (`plugin/src/tier3.rs`): the callbacks for memory
  accesses and discontinuities, and what they are registered on.

  Both write a table of their own under its lock, so each is one section.
-/
import QemuProfiler.Lib.Utf8Lossy
import QemuProfiler.Plugin.Instrument

namespace QemuProfiler.Plugin

open QemuProfiler.Lib

namespace Tier3

/-! ## §1. Memory accesses. -/

/-- What the emulator knows of the physical address of an access. -/
structure HwAddr where
  isIo : Bool
  /-- The bytes of the device's name, if it has one. -/
  deviceName : Option (List UInt8)
  deriving DecidableEq, Repr

/-- The device an access is recorded for: MMIO to a device with a name. -/
def deviceOf (hwaddr : Option HwAddr) : Option String :=
  match hwaddr with
  | none => none
  | some hwaddr => if hwaddr.isIo then hwaddr.deviceName.map fromUtf8Lossy else none

/-- `if !entry.contains(&name) { entry.push(name) }`. -/
def pushNew (entry : List String) (name : String) : List String :=
  if name ∈ entry then entry else entry ++ [name]

/-- **An entry lists every device once, in the order of first access.** -/
theorem foldl_pushNew (names : List String) :
    names.foldl pushNew [] = names.reverse.dedup.reverse := by
  induction names using List.reverseRecOn with
  | nil => rfl
  | append_singleton names name ih =>
      rw [List.foldl_append, ih, List.reverse_append]
      show pushNew names.reverse.dedup.reverse name = (name :: names.reverse).dedup.reverse
      unfold pushNew
      by_cases hin : name ∈ names.reverse
      · rw [if_pos (List.mem_reverse.mpr (List.mem_dedup.mpr hin)), List.dedup_cons_of_mem hin]
      · rw [if_neg fun h => hin (List.mem_dedup.mp (List.mem_reverse.mp h)),
            List.dedup_cons_of_notMem hin, List.reverse_cons]

/-- Memory access callback; its user data is the start of the TB. -/
def memAccessCb (hwaddr : Option HwAddr) (state : PluginState) (tbAddr : UInt64) : PluginState :=
  match deviceOf hwaddr with
  | none => state
  | some name =>
      { state with
        deviceAccesses := state.deviceAccesses.insert tbAddr
          (pushNew ((state.deviceAccesses.lookup tbAddr).getD []) name) }

/-- A callback on every instruction, with the start of the TB as user data. -/
def instrumentMemCb (tb : QemuTb) (tbStart : UInt64) : List UInt64 := tb.insns.map fun _ => tbStart

/-- The memory callbacks that `vcpu_tb_trans` registers, one for each
instruction: in system emulation only. -/
def memCbs (state : PluginState) (tb : QemuTb) : List UInt64 :=
  if state.tier3 && state.config.tier ≥ 3 then
    if state.sysemu then instrumentMemCb tb tb.vaddr else []
  else []

/-! ## §2. Discontinuities. -/

/-- Discontinuity callback: interrupts, exceptions and hostcalls. -/
def disconCb (state : PluginState) (disconType : UInt32) (fromPc toPc : UInt64) : PluginState :=
  { state with disconEvents := state.disconEvents.bump (disconType, fromPc, toPc) 1 }

/-- `qemu_plugin_install` registers it from version 6 of the plugin API on. -/
def disconRegistered (state : PluginState) (apiVersion : Int) : Bool :=
  state.tier3 && (state.config.tier ≥ 3 && apiVersion ≥ 6)

end Tier3

end QemuProfiler.Plugin

/-
  QemuProfiler.Threads.Schedules
  ──────────────────────────────
  **NEITHER THE SCHEDULE NOR THE LOAD ADDRESS MATTERS.**

  Two streaming runs in which every vCPU goes through the same blocks — under
  whatever interleaving, with whatever flush threshold and tier, and with the
  program loaded wherever the host put it — lead to text profiles that list the
  same branches with the same counts, in some order (`schedule_independent`).

  The link from the runs to their texts is `Streamed.text`; what is left is
  that the counts depend on the path of each vCPU alone, and that they move
  with the paths.
-/
import QemuProfiler.Threads.Pipeline

namespace QemuProfiler.Threads

open QemuProfiler.Lib QemuProfiler.Plugin QemuProfiler.Qemu QemuProfiler.Edges QemuProfiler.Format
open QemuProfiler.Convert hiding fileMagic FileHeader tierName

/-! ## §1. Paths. -/

/-- A block in the guest's memory. -/
structure Block where
  startAddr : UInt64
  endAddr : UInt64
  fallThroughAddr : UInt64
deriving DecidableEq

def blockOf (r : ExecRecord) : Block :=
  ⟨r.tr.tbMeta.startAddr, r.tr.tbMeta.endAddr, r.tr.tbMeta.fallThroughAddr⟩

/-- The block of a program that is loaded `d` bytes further up. -/
def Block.moved (d : UInt64) (b : Block) : Block :=
  ⟨b.startAddr + d, b.endAddr + d, b.fallThroughAddr + d⟩

/-- Where vCPU `v` went. -/
def pathOf (v : Nat) (entries : List ExecRecord) : List Block :=
  (ofParty ExecRecord.vcpu v entries).map blockOf

/-- Whether control goes from `f` to `t` between two blocks. -/
def leads (f t : UInt64) (a b : Block) : Bool :=
  a.endAddr = f ∧ f ≠ 0 ∧ b.startAddr = t ∧ t ≠ a.fallThroughAddr

theorem pairs_map {α β : Type} (g : α → β) (l : List α) :
    pairs (l.map g) = (pairs l).map fun ab => (g ab.1, g ab.2) := by
  unfold pairs
  rw [← List.map_tail, List.zip_map]
  rfl

theorem mem_of_mem_pairs {α : Type} {l : List α} {ab : α × α} (h : ab ∈ pairs l) :
    ab.1 ∈ l ∧ ab.2 ∈ l := by
  obtain ⟨ha, hb⟩ := List.of_mem_zip h
  exact ⟨ha, List.mem_of_mem_tail hb⟩

/-- Only the paths decide how often a branch is taken. -/
theorem pairCount_takes (f t : UInt64) (n : Nat) (entries : List ExecRecord) :
    pairCount ExecRecord.vcpu n (takes f t) entries
      = ((List.range n).map fun v => (pairs (pathOf v entries)).countP
          fun ab => leads f t ab.1 ab.2).sum := by
  unfold pairCount pathOf
  refine congrArg List.sum (List.map_congr_left fun v _ => ?_)
  rw [pairs_map, List.countP_map]
  rfl

/-- A branch moves with its blocks, if no end becomes the address that stands
for no block. -/
theorem leads_moved {d : UInt64} {a : Block} (hzero : a.endAddr + d = 0 ↔ a.endAddr = 0)
    (f t : UInt64) (b : Block) :
    leads (f + d) (t + d) (a.moved d) (b.moved d) = leads f t a b := by
  unfold leads Block.moved
  refine decide_eq_decide.mpr ?_
  rw [UInt64.add_left_inj, UInt64.add_left_inj, Ne, Ne, Ne, Ne, UInt64.add_left_inj]
  constructor
  · rintro ⟨rfl, hne, rfl, hfall⟩
    exact ⟨rfl, fun h => hne (hzero.mpr h), rfl, hfall⟩
  · rintro ⟨rfl, hne, rfl, hfall⟩
    exact ⟨rfl, fun h => hne (hzero.mp h), rfl, hfall⟩

/-- The counts of a run that went through the same blocks elsewhere. -/
theorem pairCount_moved {n : Nat} {d : UInt64} {entries entries' : List ExecRecord}
    (hpaths : ∀ v < n, pathOf v entries' = (pathOf v entries).map (Block.moved d))
    (hzero : ∀ v < n, ∀ b ∈ pathOf v entries, b.endAddr + d = 0 ↔ b.endAddr = 0) (f t : UInt64) :
    pairCount ExecRecord.vcpu n (takes (f + d) (t + d)) entries'
      = pairCount ExecRecord.vcpu n (takes f t) entries := by
  rw [pairCount_takes, pairCount_takes]
  refine congrArg List.sum (List.map_congr_left fun v hv => ?_)
  have hv' : v < n := List.mem_range.mp hv
  rw [hpaths v hv', pairs_map, List.countP_map]
  refine List.countP_congr fun ab hab => ?_
  have hmoved : leads (f + d) (t + d) (ab.1.moved d) (ab.2.moved d) = leads f t ab.1 ab.2 :=
    leads_moved (hzero v hv' ab.1 (mem_of_mem_pairs hab).1) f t ab.2
  show leads (f + d) (t + d) (ab.1.moved d) (ab.2.moved d) = true ↔ _
  rw [hmoved]

/-! ## §2. Two runs. -/

/-- A list of counted pairs is decided by its keys and their counts. -/
theorem mem_of_counts {branches branches' : List OffsetEntry} {base : UInt64}
    {taken : UInt64 → UInt64 → Prop} {c : UInt64 → UInt64 → UInt64}
    (hkeys : ∀ f t, (f - base, t - base) ∈ branches.map (fun e => (e.1, e.2.1)) ↔ taken f t)
    (hkeys' : ∀ f t, (f - base, t - base) ∈ branches'.map (fun e => (e.1, e.2.1)) ↔ taken f t)
    (hcounts : ∀ e ∈ branches, e.2.2 = c (e.1 + base) (e.2.1 + base))
    (hcounts' : ∀ e ∈ branches', e.2.2 = c (e.1 + base) (e.2.1 + base)) :
    ∀ e ∈ branches, e ∈ branches' := by
  intro e he
  have hback : (e.1 + base - base, e.2.1 + base - base) = (e.1, e.2.1) :=
    Prod.ext (UInt64.add_sub_cancel _ _) (UInt64.add_sub_cancel _ _)
  have hin : (e.1, e.2.1) ∈ branches'.map (fun e => (e.1, e.2.1)) := by
    rw [← hback, hkeys', ← hkeys, hback]
    exact List.mem_map.mpr ⟨e, he, rfl⟩
  obtain ⟨e', he', hkey⟩ := List.mem_map.mp hin
  obtain ⟨h₁, h₂⟩ := Prod.mk.inj hkey
  have h₃ : e'.2.2 = e.2.2 := by
    rw [hcounts e he, hcounts' e' he', h₁, h₂]
  have heq : e' = e := Prod.ext h₁ (Prod.ext h₂ h₃)
  rw [← heq]
  exact he'

section Runs

variable {host₁ host₂ : HostInfo} {n : Nat} {entries₁ entries₂ : List ExecRecord}
  {w₁ w₂ : ProfileWriter} {world₁ world₂ : World} {command₁ command₂ : Commands}
  {input₁ input₂ binary₁ binary₂ output₁ output₂ : String}

/-- **NEITHER THE SCHEDULE NOR THE LOAD ADDRESS MATTERS.**  Take two streaming
runs whose vCPUs go through the same blocks, each vCPU in its own order, the
second one in a program that is loaded `d` bytes further up, and convert the
files they leave at exit, each to any of the formats that list branches.
However the threads were interleaved, whatever the flush thresholds and tiers
were, and whatever order the hash tables were read in: both texts list the same
branches with the same counts. -/
theorem schedule_independent {d : UInt64} {elf : ElfIndex}
    (hbase : baseFor host₂ elf = baseFor host₁ elf + d)
    (h₁ : Streamed host₁ n entries₁ w₁) (h₂ : Streamed host₂ n entries₂ w₂)
    (hpaths : ∀ v < n, pathOf v entries₂ = (pathOf v entries₁).map (Block.moved d))
    (hzero : ∀ v < n, ∀ b ∈ pathOf v entries₁, b.endAddr + d = 0 ↔ b.endAddr = 0)
    (hinput₁ : world₁.openFile input₁ = .ok w₁.writer)
    (hinput₂ : world₂.openFile input₂ = .ok w₂.writer)
    (hloaded₁ : elfIndexFromFile world₁ binary₁ = .ok elf)
    (hloaded₂ : elfIndexFromFile world₂ binary₂ = .ok elf)
    (houtput₁ : Writable world₁ output₁) (houtput₂ : Writable world₂ output₂)
    (hcommand₁ : listsBranches command₁ = true) (hcommand₂ : listsBranches command₂ = true) :
    ∃ text₁ text₂ branches₁ branches₂,
      (main world₁ command₁ input₁ binary₁ output₁).written = [(output₁, text₁)]
        ∧ (main world₂ command₂ input₂ binary₂ output₂).written = [(output₂, text₂)]
        ∧ branchesIn command₁ text₁ = some branches₁
        ∧ branchesIn command₂ text₂ = some branches₂
        ∧ branches₁.Perm branches₂ := by
  obtain ⟨text₁, branches₁, hwritten₁, hin₁, hnodup₁, hkeys₁, hcounts₁⟩ :=
    h₁.text hinput₁ hloaded₁ houtput₁ hcommand₁
  obtain ⟨text₂, branches₂, hwritten₂, hin₂, hnodup₂, hkeys₂, hcounts₂⟩ :=
    h₂.text hinput₂ hloaded₂ houtput₂ hcommand₂
  refine ⟨text₁, text₂, branches₁, branches₂, hwritten₁, hwritten₂, hin₁, hin₂, ?_⟩
  -- the second text, at the addresses of the first run
  have hmoved := pairCount_moved hpaths hzero
  rw [hbase] at hkeys₂ hcounts₂
  have hoffset : ∀ x : UInt64, x + d - (baseFor host₁ elf + d) = x - baseFor host₁ elf := by
    intro x
    rw [add_sub_add_right_eq_sub]
  have hkeys₂' : ∀ f t, (f - baseFor host₁ elf, t - baseFor host₁ elf)
        ∈ branches₂.map (fun e => (e.1, e.2.1))
      ↔ 0 < pairCount ExecRecord.vcpu n (takes f t) entries₁ := by
    intro f t
    rw [← hmoved, ← hkeys₂, hoffset, hoffset]
  have hcounts₂' : ∀ e ∈ branches₂, e.2.2
      = UInt64.ofNat (pairCount ExecRecord.vcpu n
          (takes (e.1 + baseFor host₁ elf) (e.2.1 + baseFor host₁ elf)) entries₁) := by
    intro e he
    rw [hcounts₂ e he, ← UInt64.add_assoc, ← UInt64.add_assoc, hmoved]
  rw [List.perm_ext_iff_of_nodup (List.Nodup.of_map _ hnodup₁) (List.Nodup.of_map _ hnodup₂)]
  intro e
  let count := fun f t => UInt64.ofNat (pairCount ExecRecord.vcpu n (takes f t) entries₁)
  constructor
  · exact mem_of_counts (c := count) hkeys₁ hkeys₂' hcounts₁ hcounts₂' e
  · exact mem_of_counts (c := count) hkeys₂' hkeys₁ hcounts₂' hcounts₁ e

end Runs

/-! ## §3. Two vCPUs that return. -/

/-- A program at `0x1000`. -/
def movedHost : HostInfo := { exampleHost with startCode := 0x1000 }

/-- The blocks of `returningEvents`, `0x1000` bytes further up; one vCPU runs
after the other. -/
def sequentialEvents : List Event :=
  [.vcpuInit 0, .vcpuInit 1, .translate 0 (retBlock 0x1010)] ++ sections 0 6
    ++ [.translate 1 (nopBlock 0x1040 0)] ++ sections 1 4
    ++ [.exec 1 0 2 ⟨[], 0⟩] ++ sections 1 8 ++ [.exec 1 1 1 ⟨[], 0⟩] ++ sections 1 10
    ++ [.exec 0 0 2 ⟨[], 0⟩] ++ sections 0 8 ++ [.exec 0 1 1 ⟨[], 0⟩] ++ sections 0 10

theorem sequentialEvents_rests :
    (runFrom (streamingPlugin movedHost) sequentialEvents).isSome = true
      ∧ (∀ v < 2,
        ((outcome (streamingPlugin movedHost) sequentialEvents).1.threads v).isIdle = true)
      ∧ ∀ r ∈ entriesOf (notesOf (streamingPlugin movedHost) sequentialEvents),
        r.complete = true := by
  decide

theorem sequentialEvents_exits :
    ∃ w, pluginExit listOrders
      (outcome (streamingPlugin movedHost) sequentialEvents).1.machine.plugin
      (execSum (outcome (streamingPlugin movedHost) sequentialEvents).1.machine) = some w := by
  refine Option.isSome_iff_exists.mp ?_
  unfold pluginExit
  rw [Option.isSome_map]
  decide

theorem schedule_independent_returning :
    ∃ (w₁ w₂ : ProfileWriter) (text₁ text₂ : Text) (branches₁ branches₂ : List OffsetEntry),
      pluginExit listOrders (outcome (streamingPlugin exampleHost) returningEvents).1.machine.plugin
          (execSum (outcome (streamingPlugin exampleHost) returningEvents).1.machine) = some w₁
        ∧ pluginExit listOrders
          (outcome (streamingPlugin movedHost) sequentialEvents).1.machine.plugin
          (execSum (outcome (streamingPlugin movedHost) sequentialEvents).1.machine) = some w₂
        ∧ (main (worldOf w₁.writer) .bolt "a.prof" "a.out" "a.txt").written = [("a.txt", text₁)]
        ∧ (main (worldOf w₂.writer) .autofdo "b.prof" "a.out" "b.txt").written
          = [("b.txt", text₂)]
        ∧ branchesIn .bolt text₁ = some branches₁ ∧ branchesIn .autofdo text₂ = some branches₂
        ∧ branches₁.Perm branches₂ := by
  obtain ⟨hruns₁, hidle₁, hcomplete₁⟩ := returningEvents_rests
  obtain ⟨hruns₂, hidle₂, hcomplete₂⟩ := sequentialEvents_rests
  obtain ⟨w₁, hw₁⟩ := returningEvents_exits
  obtain ⟨w₂, hw₂⟩ := sequentialEvents_exits
  have h₁ : Streamed exampleHost 2 _ w₁ := streamed_of_schedule rfl hruns₁ (by decide)
    (by decide) hidle₁ hcomplete₁ hw₁
  have h₂ : Streamed movedHost 2 _ w₂ := streamed_of_schedule rfl hruns₂ (by decide)
    (by decide) hidle₂ hcomplete₂ hw₂
  obtain ⟨elf, helf, haddr⟩ := worldOf_loads w₁.writer "a.out"
  have helf₂ : elfIndexFromFile (worldOf w₂.writer) "a.out" = .ok elf := helf
  have hbase : baseFor movedHost elf = baseFor exampleHost elf + 0x1000 := by
    unfold baseFor
    rw [haddr]
    decide
  have hin₁ : (worldOf w₁.writer).openFile "a.prof" = .ok w₁.writer := rfl
  have hin₂ : (worldOf w₂.writer).openFile "b.prof" = .ok w₂.writer := rfl
  obtain ⟨text₁, text₂, branches₁, branches₂, hall⟩ :=
    schedule_independent hbase h₁ h₂ (by decide) (by decide) hin₁ hin₂ helf helf₂
      (worldOf_writable _ _) (worldOf_writable _ _)
      (show listsBranches .bolt = true from rfl) (show listsBranches .autofdo = true from rfl)
  exact ⟨w₁, w₂, text₁, text₂, branches₁, branches₂, hw₁, hw₂, hall⟩

end QemuProfiler.Threads

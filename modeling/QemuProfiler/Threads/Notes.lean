/-
  QemuProfiler.Threads.Notes
  ──────────────────────────
  **WHAT AN OBSERVER SEES** of an interleaved run: which translations the
  vCPUs enter, and the calls of `record_edge` and `record_indirect_call` with
  what a prune throws away.

    • `step_sections` — a step, with the section it runs,
    • `Ready`, `ready_run` — every translation carries its registrations and
      every vCPU has its slots, in every reachable state.
-/
import QemuProfiler.Lib.Watch
import QemuProfiler.Threads.Local

namespace QemuProfiler.Threads

open QemuProfiler.Lib QemuProfiler.Plugin QemuProfiler.Qemu QemuProfiler.Edges

/-! ## §1. Notes. -/

inductive Note where
  /-- A vCPU entered a translation; what it records is noted separately. -/
  | entered (r : ExecRecord)
  /-- `record_edge` was called. -/
  | edge (v : Nat) (e : Edge)
  /-- `record_indirect_call` was called. -/
  | call (v : Nat) (c : UInt64 × UInt64)
  /-- A prune truncated entries. -/
  | dropped (entries : List (Edge × UInt64))

/-- The notes of a section. -/
def sectionNotes (env : Env) (v : Nat) (m : Machine) (th : Thread) : List Note :=
  ((th.edgesNow v m).flatMap fun e => [.edge v e, .dropped (droppedOf m.plugin ⟨env, v, e⟩)])
    ++ (th.callsNow v m).map (.call v)

/-- The notes of a step. -/
def note (s : System) : Event → List Note
  | .exec v tid started env =>
      match s.machine.translations[tid]? with
      | none => []
      | some tr =>
          .entered ⟨v, tr, started, Emitted.none⟩
            :: sectionNotes env v s.machine (.ops (opsOf tr started))
  | .run v env => sectionNotes env v s.machine (s.threads v)
  | _ => []

theorem note_exec {s : System} {tid : Nat} {tr : Translation}
    (htr : s.machine.translations[tid]? = some tr) (v started : Nat) (env : Env) :
    note s (.exec v tid started env)
      = [.entered ⟨v, tr, started, Emitted.none⟩]
        ++ sectionNotes env v s.machine (.ops (opsOf tr started)) := by
  simp only [note, htr, List.cons_append, List.nil_append]

/-- The notes of a run. -/
def notesOf (s : System) (evs : List Event) : List Note := watch step note s evs

/-- The executions. -/
def entriesOf (notes : List Note) : List ExecRecord :=
  notes.filterMap fun
    | .entered r => some r
    | _ => none

/-- The recorded edges, by vCPU. -/
def recordedEdges (notes : List Note) : List (Nat × Edge) :=
  notes.filterMap fun
    | .edge v e => some (v, e)
    | _ => none

/-- The recorded calls, by vCPU. -/
def recordedCalls (notes : List Note) : List (Nat × (UInt64 × UInt64)) :=
  notes.filterMap fun
    | .call v c => some (v, c)
    | _ => none

/-- What the prunes threw away. -/
def prunedEntries (notes : List Note) : List (Edge × UInt64) :=
  notes.flatMap fun
    | .dropped entries => entries
    | _ => []

/-- The edges recorded by one vCPU, in order. -/
def edgesOf (v : Nat) (notes : List Note) : List Edge :=
  (ofParty Prod.fst v (recordedEdges notes)).map Prod.snd

/-- The calls recorded by one vCPU, in order. -/
def callsOf (v : Nat) (notes : List Note) : List (UInt64 × UInt64) :=
  (ofParty Prod.fst v (recordedCalls notes)).map Prod.snd

@[simp] theorem entriesOf_append (notes notes' : List Note) :
    entriesOf (notes ++ notes') = entriesOf notes ++ entriesOf notes' :=
  List.filterMap_append

@[simp] theorem recordedEdges_append (notes notes' : List Note) :
    recordedEdges (notes ++ notes') = recordedEdges notes ++ recordedEdges notes' :=
  List.filterMap_append

@[simp] theorem recordedCalls_append (notes notes' : List Note) :
    recordedCalls (notes ++ notes') = recordedCalls notes ++ recordedCalls notes' :=
  List.filterMap_append

@[simp] theorem prunedEntries_append (notes notes' : List Note) :
    prunedEntries (notes ++ notes') = prunedEntries notes ++ prunedEntries notes' :=
  List.flatMap_append

theorem edgesOf_append (v : Nat) (notes notes' : List Note) :
    edgesOf v (notes ++ notes') = edgesOf v notes ++ edgesOf v notes' := by
  unfold edgesOf ofParty
  rw [recordedEdges_append, List.filter_append, List.map_append]

theorem callsOf_append (v : Nat) (notes notes' : List Note) :
    callsOf v (notes ++ notes') = callsOf v notes ++ callsOf v notes' := by
  unfold callsOf ofParty
  rw [recordedCalls_append, List.filter_append, List.map_append]

/-! ## §2. The notes of a section. -/

section Sections

variable (env : Env) (v : Nat) (m : Machine) (th : Thread)

theorem entriesOf_section : entriesOf (sectionNotes env v m th) = [] := by
  unfold entriesOf sectionNotes
  rw [List.filterMap_append, List.filterMap_eq_nil_iff.mpr, List.nil_append,
      List.filterMap_eq_nil_iff.mpr]
  · intro n hn
    obtain ⟨c, _, rfl⟩ := List.mem_map.mp hn
    rfl
  · intro n hn
    obtain ⟨e, _, hn⟩ := List.mem_flatMap.mp hn
    simp only [List.mem_cons, List.not_mem_nil, or_false] at hn
    rcases hn with rfl | rfl <;> rfl

theorem recordedEdges_section :
    recordedEdges (sectionNotes env v m th) = (th.edgesNow v m).map fun e => (v, e) := by
  unfold sectionNotes
  rw [recordedEdges_append]
  have hcalls : recordedEdges ((th.callsNow v m).map (Note.call v)) = [] := by
    unfold recordedEdges
    rw [List.filterMap_eq_nil_iff]
    intro n hn
    obtain ⟨c, _, rfl⟩ := List.mem_map.mp hn
    rfl
  rw [hcalls, List.append_nil]
  induction th.edgesNow v m with
  | nil => rfl
  | cons e es ih =>
      rw [List.flatMap_cons, recordedEdges_append, ih]
      rfl

theorem recordedCalls_section :
    recordedCalls (sectionNotes env v m th) = (th.callsNow v m).map fun c => (v, c) := by
  unfold sectionNotes
  rw [recordedCalls_append]
  have hedges : recordedCalls ((th.edgesNow v m).flatMap fun e =>
      [Note.edge v e, .dropped (droppedOf m.plugin ⟨env, v, e⟩)]) = [] := by
    unfold recordedCalls
    rw [List.filterMap_eq_nil_iff]
    intro n hn
    obtain ⟨e, _, hn⟩ := List.mem_flatMap.mp hn
    simp only [List.mem_cons, List.not_mem_nil, or_false] at hn
    rcases hn with rfl | rfl <;> rfl
  rw [hedges, List.nil_append]
  unfold recordedCalls
  rw [List.filterMap_map]
  exact congrFun List.filterMap_eq_map _

theorem prunedEntries_section :
    prunedEntries (sectionNotes env v m th)
      = (th.edgesNow v m).flatMap fun e => droppedOf m.plugin ⟨env, v, e⟩ := by
  unfold sectionNotes
  rw [prunedEntries_append]
  have hcalls : prunedEntries ((th.callsNow v m).map (Note.call v)) = [] := by
    unfold prunedEntries
    rw [List.flatMap_eq_nil_iff]
    intro n hn
    obtain ⟨c, _, rfl⟩ := List.mem_map.mp hn
    rfl
  rw [hcalls, List.append_nil]
  induction th.edgesNow v m with
  | nil => rfl
  | cons e es ih =>
      rw [List.flatMap_cons, List.flatMap_cons, prunedEntries_append, ih]
      congr 1
      exact List.append_nil _

/-- A section notes what its own vCPU records. -/
theorem edgesOf_section (u : Nat) :
    edgesOf u (sectionNotes env v m th) = if u = v then th.edgesNow v m else [] := by
  unfold edgesOf ofParty
  rw [recordedEdges_section, List.filter_map, List.map_map]
  by_cases huv : u = v
  · rw [if_pos huv, List.filter_eq_self.mpr fun e _ => by simp [huv]]
    exact List.map_id _
  · rw [if_neg huv, List.filter_eq_nil_iff.mpr fun e _ => by simp [Ne.symm huv]]
    rfl

theorem callsOf_section (u : Nat) :
    callsOf u (sectionNotes env v m th) = if u = v then th.callsNow v m else [] := by
  unfold callsOf ofParty
  rw [recordedCalls_section, List.filter_map, List.map_map]
  by_cases huv : u = v
  · rw [if_pos huv, List.filter_eq_self.mpr fun e _ => by simp [huv]]
    exact List.map_id _
  · rw [if_neg huv, List.filter_eq_nil_iff.mpr fun e _ => by simp [Ne.symm huv]]
    rfl

end Sections

/-! ## §3. Steps, section by section. -/

/-- Thread `v` ran its next section. -/
def afterRun (env : Env) (v : Nat) (s : System) : System :=
  ⟨(advance env v s.machine (s.threads v)).1,
    Function.update s.threads v (advance env v s.machine (s.threads v)).2.1⟩

/-- The thread of vCPU `v` is given something to do. -/
def System.give (s : System) (v : Nat) (th : Thread) : System :=
  ⟨s.machine, Function.update s.threads v th⟩

theorem Thread.eq_idle {th : Thread} (h : th.isIdle = true) : th = .idle := by
  cases th with
  | idle => rfl
  | _ => exact absurd h (by simp [Thread.isIdle])

/-- **A STEP, WITH ITS SECTION.**  Entering a translation gives the thread its
registrations and runs the first of them. -/
theorem step_sections {s s' : System} {e : Event} {acts : List Action}
    (h : step s e = some (s', acts)) :
    (∃ v plugin, e = .vcpuInit v ∧ s.machine.plugin.ensureVcpuState (v + 1) = some plugin
        ∧ s' = ⟨{ s.machine with
            plugin := plugin, numVcpus := max s.machine.numVcpus (v + 1) }, s.threads⟩
        ∧ acts = [])
      ∨ (∃ v tb, e = .translate v tb ∧ v < s.machine.numVcpus ∧ s.threads v = .idle
        ∧ s' = s.give v (.loadFlag tb) ∧ acts = [])
      ∨ (e = .flush
        ∧ s' = ⟨{ s.machine with liveFrom := s.machine.translations.length }, s.threads⟩
        ∧ acts = [])
      ∨ (∃ v tid started env tr, e = .exec v tid started env
        ∧ s.machine.translations[tid]? = some tr ∧ v < s.machine.numVcpus ∧ s.threads v = .idle
        ∧ started ≤ tr.tb.insns.length
        ∧ s' = afterRun env v (s.give v (.ops (opsOf tr started)))
        ∧ acts = .executed v tr :: (advance env v s.machine (.ops (opsOf tr started))).2.2)
      ∨ (∃ v env, e = .run v env ∧ v < s.machine.numVcpus ∧ s' = afterRun env v s
        ∧ acts = (advance env v s.machine (s.threads v)).2.2) := by
  cases e with
  | vcpuInit v =>
      simp only [step] at h
      cases hp : s.machine.plugin.ensureVcpuState (v + 1) with
      | none => simp [hp] at h
      | some plugin =>
          simp only [hp, Option.some.injEq, Prod.mk.injEq] at h
          exact Or.inl ⟨v, plugin, rfl, hp, h.1.symm, h.2.symm⟩
  | translate v tb =>
      simp only [step] at h
      by_cases hok : v < s.machine.numVcpus ∧ (s.threads v).isIdle = true
      · simp only [if_pos hok, Option.some.injEq, System.afterSection, Prod.mk.injEq] at h
        exact Or.inr (Or.inl ⟨v, tb, rfl, hok.1, Thread.eq_idle hok.2, h.1.symm, h.2.symm⟩)
      · rw [if_neg hok] at h
        exact absurd h (by simp)
  | flush =>
      simp only [step, Option.some.injEq, Prod.mk.injEq] at h
      exact Or.inr (Or.inr (Or.inl ⟨rfl, h.1.symm, h.2.symm⟩))
  | exec v tid started env =>
      simp only [step] at h
      cases htr : s.machine.translations[tid]? with
      | none => simp [htr] at h
      | some tr =>
          simp only [htr] at h
          by_cases hok : v < s.machine.numVcpus ∧ (s.threads v).isIdle = true
              ∧ s.machine.liveFrom ≤ tid ∧ started ≤ tr.tb.insns.length
          · simp only [if_pos hok, Option.some.injEq, System.afterSection, Prod.mk.injEq] at h
            refine Or.inr (Or.inr (Or.inr (Or.inl ⟨v, tid, started, env, tr, rfl, htr, hok.1,
              Thread.eq_idle hok.2.1, hok.2.2.2, ?_, h.2.symm⟩)))
            -- given its registrations, and the first one run: two updates in one
            rw [← h.1]
            unfold afterRun System.give
            dsimp only
            rw [Function.update_self, Function.update_idem]
          · rw [if_neg hok] at h
            exact absurd h (by simp)
  | run v env =>
      simp only [step] at h
      by_cases hv : v < s.machine.numVcpus
      · simp only [if_pos hv, Option.some.injEq, System.afterSection, Prod.mk.injEq] at h
        exact Or.inr (Or.inr (Or.inr (Or.inr ⟨v, env, rfl, hv, h.1.symm, h.2.symm⟩)))
      · rw [if_neg hv] at h
        exact absurd h (by simp)

/-! ## §4. Registrations and slots. -/

/-- Configuration and number of slots are the same. -/
structure SameShape (s s' : PluginState) : Prop where
  config : s'.config = s.config
  targetArch : s'.targetArch = s.targetArch
  slots : s'.edgeAccumulators.length = s.edgeAccumulators.length
  callSlots : s'.indirectCalls.length = s.indirectCalls.length

theorem SameShape.refl (s : PluginState) : SameShape s s := ⟨rfl, rfl, rfl, rfl⟩

theorem shape_of_sameRecords {s s' : PluginState} (h : SameRecords s s') : SameShape s s' :=
  ⟨h.config, h.targetArch, congrArg List.length h.edgeAccumulators,
    congrArg List.length h.indirectCalls⟩

/-- **The local part of `record_edge`** leaves in the slots what the whole
call leaves there, and drains what the whole call flushes. -/
theorem recordLocal_eq (env : Env) (s : PluginState) (v : Nat) (e : Edge) :
    (s.recordLocal env v e.fromAddr e.toAddr).1
        = { s with edgeAccumulators := (Edges.step s ⟨env, v, e⟩).edgeAccumulators }
      ∧ ((s.recordLocal env v e.fromAddr e.toAddr).2).getD []
        = (flushedOf s ⟨env, v, e⟩).map toTriple := by
  unfold PluginState.recordLocal
  cases hget : s.edgeAccumulators[v]? with
  | none =>
      have hstep : Edges.step s ⟨env, v, e⟩ = s := step_none hget
      have hflushed : flushedOf s ⟨env, v, e⟩ = [] := (flushed_none hget).1
      rw [hstep, hflushed]
      exact ⟨rfl, rfl⟩
  | some acc =>
      have hstep : (Edges.step s ⟨env, v, e⟩).edgeAccumulators
          = s.edgeAccumulators.set v (accAfter s acc ⟨env, v, e⟩) := by
        rw [step_some hget]
      rw [hstep]
      unfold flushedOf accAfter
      rw [hget]
      dsimp only
      by_cases hf : flushes s acc ⟨env, v, e⟩ = true
      · rw [if_pos hf, if_pos hf]
        have hf' : (s.config.streaming
            && (acc.record env.iter e.fromAddr e.toAddr).shouldFlush s.config.topN) = true := hf
        rw [if_pos hf']
        exact ⟨rfl, (EdgeAccumulator.drain_eq env.iter _).1⟩
      · rw [if_neg hf, if_neg hf]
        have hf' : ¬ (s.config.streaming
            && (acc.record env.iter e.fromAddr e.toAddr).shouldFlush s.config.topN) = true := hf
        rw [if_neg hf']
        exact ⟨rfl, rfl⟩

/-- No section changes the configuration or the number of slots. -/
theorem advance_shape (env : Env) (v : Nat) (m : Machine) (th : Thread) :
    SameShape m.plugin (advance env v m th).1.plugin := by
  cases th with
  | exchangeFlag tb =>
      unfold advance
      dsimp only
      split <;> exact ⟨rfl, rfl, rfl, rfl⟩
  -- the other sections replace tables or the writer; a callback keeps the length of its list
  | storeWriter tb =>
      obtain ⟨writer, heq⟩ := openWriter_frame m.host m.plugin
      show SameShape m.plugin (openWriter m.host m.plugin)
      rw [heq]
      exact ⟨rfl, rfl, rfl, rfl⟩
  | internSymbol tb => exact shape_of_sameRecords (symbolOf_same m.plugin tb).1
  | mapTb tb symId =>
      exact shape_of_sameRecords (mapSection_spec symId m.nextScoreboard m.plugin tb).same
  | laterTiers tr => exact shape_of_sameRecords (laterTiers_spec m.plugin tr.tb).1
  | ops rest =>
      cases rest with
      | nil => exact SameShape.refl m.plugin
      | cons op rest =>
          obtain ⟨accs, n, heq, hlen, _⟩ := runOp_frame env v m rest op
          show SameShape m.plugin (runOp env v m rest op).1.plugin
          rw [heq]
          exact ⟨rfl, rfl, hlen, rfl⟩
  | pendingCall toAddr rest =>
      unfold advance
      dsimp only
      split
      · obtain ⟨maps, heq, hlen⟩ := recordCalls_frame v
          [((m.vcpus v).pendingIndirectCallsite, toAddr)] m.plugin
        show SameShape m.plugin (recordCalls v m.plugin
          [((m.vcpus v).pendingIndirectCallsite, toAddr)])
        rw [heq]
        exact ⟨rfl, rfl, rfl, hlen⟩
      · exact SameShape.refl m.plugin
  | _ => exact ⟨rfl, rfl, rfl, rfl⟩

/-- **What a vCPU needs to record**: translations carry the registrations of
the configuration, and there is a slot for every vCPU. -/
structure Ready (config : PluginConfig) (arch : Arch) (s : System) : Prop where
  config_eq : s.machine.plugin.config = config
  arch_eq : s.machine.plugin.targetArch = arch
  instrumented : ∀ tr, Made s tr → Instrumented s.machine.plugin tr
  slots : s.machine.numVcpus ≤ s.machine.plugin.edgeAccumulators.length
  callSlots : 2 ≤ config.tier → s.machine.numVcpus ≤ s.machine.plugin.indirectCalls.length

section Runs

variable {config : PluginConfig} {arch : Arch} {s : System} {out : List Action}

theorem Ready.tier_le (h : Ready config arch s) {tier : UInt8} (htier : tier ≤ config.tier) :
    tier ≤ s.machine.plugin.config.tier := by
  rw [h.config_eq]
  exact htier

/-- A translation that a section made carries its registrations. -/
theorem instrumented_of_translates {next : Nat} {p p' : PluginState} {tr : Translation}
    (hcodes : CodesApart p next) (ht : Translates next p tr.tb p' tr.instr tr.tbMeta) :
    Instrumented p tr := by
  obtain ⟨tb, tbMeta, instr⟩ := tr
  refine ⟨?_, (hcodes.keyed_entry ht).1⟩
  dsimp only at ht ⊢
  rw [ht.instr_eq, registers_eq]

/-- A section keeps what is needed. -/
theorem Ready.run (h : Ready config arch s) (env : Env) (v : Nat)
    (hmade : ∀ tr, Made (afterRun env v s) tr → Made s tr ∨ Instrumented s.machine.plugin tr)
    (hn : (advance env v s.machine (s.threads v)).1.numVcpus = s.machine.numVcpus) :
    Ready config arch (afterRun env v s) := by
  have hshape := advance_shape env v s.machine (s.threads v)
  refine ⟨hshape.config.trans h.config_eq, hshape.targetArch.trans h.arch_eq, ?_, ?_, ?_⟩
  · intro tr htr
    rcases hmade tr htr with hold | hnew
    · exact (h.instrumented tr hold).congr hshape.config.symm hshape.targetArch.symm
    · exact hnew.congr hshape.config.symm hshape.targetArch.symm
  · show (advance env v s.machine (s.threads v)).1.numVcpus ≤ _
    rw [hn]
    exact le_of_le_of_eq h.slots hshape.slots.symm
  · intro h2
    show (advance env v s.machine (s.threads v)).1.numVcpus ≤ _
    rw [hn]
    exact le_of_le_of_eq (h.callSlots h2) hshape.callSlots.symm

theorem Ready.vcpuInit (h : Ready config arch s) {v : Nat} {plugin : PluginState}
    (hp : s.machine.plugin.ensureVcpuState (v + 1) = some plugin) :
    Ready config arch ⟨{ s.machine with
      plugin := plugin, numVcpus := max s.machine.numVcpus (v + 1) }, s.threads⟩ := by
  obtain ⟨i, j, heq, hn, hn'⟩ := ensureVcpuState_eq hp
  have hconf : plugin.config = s.machine.plugin.config := by rw [heq]
  have harch : plugin.targetArch = s.machine.plugin.targetArch := by rw [heq]
  refine ⟨hconf.trans h.config_eq, harch.trans h.arch_eq, ?_, ?_, ?_⟩
  · intro tr hmade
    exact (h.instrumented tr hmade).congr hconf.symm harch.symm
  · have hlen : s.machine.plugin.edgeAccumulators.length ≤ plugin.edgeAccumulators.length := by
      rw [heq, List.length_append]
      omega
    exact max_le (h.slots.trans hlen) hn
  · intro h2
    have hlen : s.machine.plugin.indirectCalls.length ≤ plugin.indirectCalls.length := by
      rw [heq, List.length_append]
      omega
    exact max_le ((h.callSlots h2).trans hlen) (hn' (by rw [h.config_eq]; exact h2))

end Runs

/-- The first section of an execution is the tick of its scoreboard. -/
theorem afterRun_give_ops {s : System} {out : List Action} (hinv : Inv s out) {tr : Translation}
    (htr : tr ∈ s.machine.translations) (env : Env) (v started : Nat) :
    ∃ rest, NoTick rest
      ∧ opsOf tr started = .inline (.add (.execCount tr.tbMeta.execCount) 1) :: rest
      ∧ afterRun env v (s.give v (.ops (opsOf tr started)))
        = ⟨{ s.machine with
            execCounts := ticked s.machine.execCounts tr.tbMeta.execCount v },
          Function.update s.threads v (.ops rest)⟩ := by
  obtain ⟨rest, hrest, hops⟩ := hinv.ticksOnce tr (Or.inl htr) started
  refine ⟨rest, hrest, hops, ?_⟩
  unfold afterRun System.give
  dsimp only
  rw [Function.update_self, Function.update_idem, hops]
  rfl

/-- **EVERY RUN** keeps what the vCPUs need to record. -/
theorem ready_run {config : PluginConfig} {tier3 sysemu : Bool} {arch : String} {host : HostInfo}
    {evs : List Event} {s : System} {out : List Action}
    (h : runFrom (System.init config tier3 sysemu arch host) evs = some (s, out)) :
    Ready config (Arch.fromName arch) s := by
  refine runSteps_induction Threads.step (fun s _ => Ready config (Arch.fromName arch) s) _ ?_ ?_ h
  · refine ⟨rfl, rfl, ?_, Nat.zero_le _, fun _ => Nat.zero_le _⟩
    intro tr hmade
    rcases hmade with hin | ⟨v, hv⟩
    · exact absurd hin List.not_mem_nil
    · exact absurd hv (by simp [System.init])
  · intro s out e s' acts hreach hr hstep
    obtain ⟨evs, hreach⟩ := hreach
    have hinv := runFrom_inv hreach
    rcases step_sections hstep with ⟨v, plugin, _, hp, rfl, _⟩ | ⟨v, tb, _, _, hidle, rfl, _⟩
      | ⟨_, rfl, _⟩ | ⟨v, tid, started, env, tr, _, htr, _, _, _, rfl, _⟩ | ⟨v, env, _, _, rfl, _⟩
    · exact hr.vcpuInit hp
    · refine ⟨hr.config_eq, hr.arch_eq, ?_, hr.slots, hr.callSlots⟩
      intro tr hmade
      rcases hmade with hin | ⟨u, hu⟩
      · exact hr.instrumented tr (Or.inl hin)
      · rcases update_cases hu with ⟨_, hnew⟩ | ⟨_, hold⟩
        · exact absurd hnew (by simp)
        · exact hr.instrumented tr (Or.inr ⟨u, hold⟩)
    · exact ⟨hr.config_eq, hr.arch_eq, hr.instrumented, hr.slots, hr.callSlots⟩
    · -- entering a translation makes none
      obtain ⟨rest, _, _, heq⟩ := afterRun_give_ops hinv (List.mem_of_getElem? htr) env v started
      rw [heq]
      refine ⟨hr.config_eq, hr.arch_eq, ?_, hr.slots, hr.callSlots⟩
      intro tr' hmade
      rcases hmade with hin | ⟨u, hu⟩
      · exact hr.instrumented tr' (Or.inl hin)
      · rcases update_cases hu with ⟨_, hnew⟩ | ⟨_, hold⟩
        · exact absurd hnew (by simp)
        · exact hr.instrumented tr' (Or.inr ⟨u, hold⟩)
    · have heff := advance_effect env v s.machine (hinv.queues v)
      refine hr.run env v ?_ heff.frame.1
      intro tr hmade
      rcases made_cases heff hmade with hold | ht
      · exact Or.inl hold
      · exact Or.inr (instrumented_of_translates hinv.codes ht)

end QemuProfiler.Threads

/-
  QemuProfiler.Threads.EdgeTrace
  ──────────────────────────────
  **RECORDED EDGES AND CALLS IN EVERY INTERLEAVING.**

  A thread may be suspended between any two sections of its callbacks.  The
  machine in which every vCPU has finished what it is executing (`settled`)
  follows the trace as the uninterrupted one does, and what a vCPU recorded
  and what it has still to record together are what its own executions call
  for (`follows_run`):

    • `recorded_edges_interleaved` — the branches between them,
    • `recorded_calls_interleaved` — the indirect calls between them.

  A vCPU comes up in one step, here and in everything that rests on it: the
  races for its slot are left to `Threads.Slots`.
-/
import QemuProfiler.Qemu.CallTrace
import QemuProfiler.Threads.Notes

namespace QemuProfiler.Threads

open QemuProfiler.Lib QemuProfiler.Plugin QemuProfiler.Qemu QemuProfiler.Edges

/-! ## §1. Steps that enter nothing. -/

/-- The machine after every vCPU has finished what it is executing. -/
def settled (s : System) : Machine :=
  { s.machine with vcpus := fun v => (settle v s.machine (s.threads v).queue).vcpus v }

/-- **ONWARD**: no vCPU enters a translation; what was due before is noted, or
due after. -/
structure Onward (s s' : System) (notes : List Note) : Prop where
  settled : ∀ u, SameLocal u (settle u s.machine (s.threads u).queue)
    (settle u s'.machine (s'.threads u).queue)
  edges : ∀ u, dueEdges u s.machine (s.threads u).queue
    = edgesOf u notes ++ dueEdges u s'.machine (s'.threads u).queue
  calls : ∀ u, (s.threads u).dueCalls u s.machine
    = callsOf u notes ++ (s'.threads u).dueCalls u s'.machine
  entries : entriesOf notes = []
  shape : s'.machine.plugin.config = s.machine.plugin.config
    ∧ s'.machine.plugin.targetArch = s.machine.plugin.targetArch

/-- A thread that stays as it is, while local data stay. -/
theorem SameLocal.owedCalls {v : Nat} {m m' : Machine} (h : SameLocal v m m') (th : Thread) :
    th.owedCalls v m' = th.owedCalls v m := by
  cases th with
  | addFlushed edges toAddr rest => exact h.callAt toAddr
  | writeBatch edges toAddr rest => exact h.callAt toAddr
  | pendingCall toAddr rest => exact h.callAt toAddr
  | _ => rfl

theorem SameLocal.thread_dueCalls {v : Nat} {m m' : Machine} (h : SameLocal v m m') (th : Thread) :
    th.dueCalls v m' = th.dueCalls v m := by
  unfold Thread.dueCalls
  rw [h.owedCalls, h.dueCalls]

section Steps

variable {s s' : System}

/-- A step that notes nothing and changes no local data; a thread may go from
one part of a translation to another. -/
theorem onward_same (h : ∀ u, SameLocal u s.machine s'.machine)
    (harch : s'.machine.plugin.targetArch = s.machine.plugin.targetArch)
    (hq : ∀ u, s'.threads u = s.threads u
      ∨ ((s.threads u).queue = [] ∧ (s'.threads u).queue = []
        ∧ (s.threads u).owedCalls u s.machine = [] ∧ (s'.threads u).owedCalls u s'.machine = [])) :
    Onward s s' [] := by
  refine ⟨?_, ?_, ?_, rfl, (h 0).config, harch⟩
  · intro u
    rcases hq u with heq | ⟨hq, hq', _, _⟩
    · rw [heq]
      exact (h u).settle _
    · rw [hq, hq']
      exact h u
  · intro u
    rcases hq u with heq | ⟨hq, hq', _, _⟩
    · rw [heq, (h u).dueEdges]
      rfl
    · rw [hq, hq']
      rfl
  · intro u
    rcases hq u with heq | ⟨hq, hq', hc, hc'⟩
    · rw [heq, (h u).thread_dueCalls]
      rfl
    · unfold Thread.dueCalls
      rw [hq, hq', hc, hc']
      rfl

/-- **A SECTION** goes on with the execution of its own vCPU. -/
theorem onward_run (env : Env) (v : Nat) (s : System) :
    Onward s (afterRun env v s) (sectionNotes env v s.machine (s.threads v)) := by
  have hsec := advance_due env v s.machine (s.threads v)
  have hshape := advance_shape env v s.machine (s.threads v)
  have hother : ∀ u, u ≠ v → (afterRun env v s).threads u = s.threads u :=
    fun u hu => Function.update_of_ne hu _ _
  have hown : (afterRun env v s).threads v = (advance env v s.machine (s.threads v)).2.1 :=
    Function.update_self ..
  refine ⟨?_, ?_, ?_, entriesOf_section env v s.machine (s.threads v), hshape.config,
    hshape.targetArch⟩
  · intro u
    by_cases huv : u = v
    · subst huv
      rw [hown]
      exact hsec.settled
    · rw [hother u huv]
      exact (advance_other huv env s.machine (s.threads v)).settle _
  · intro u
    rw [edgesOf_section]
    by_cases huv : u = v
    · subst huv
      rw [if_pos rfl, hown]
      exact hsec.edges
    · rw [if_neg huv, hother u huv]
      exact ((advance_other huv env s.machine (s.threads v)).dueEdges _).symm
  · intro u
    rw [callsOf_section]
    by_cases huv : u = v
    · subst huv
      rw [if_pos rfl, hown]
      exact hsec.calls
    · rw [if_neg huv, hother u huv]
      exact ((advance_other huv env s.machine (s.threads v)).thread_dueCalls _).symm

theorem onward_vcpuInit {v : Nat} {plugin : PluginState}
    (hp : s.machine.plugin.ensureVcpuState (v + 1) = some plugin) :
    Onward s ⟨{ s.machine with
      plugin := plugin, numVcpus := max s.machine.numVcpus (v + 1) }, s.threads⟩ [] := by
  obtain ⟨i, j, heq, _⟩ := ensureVcpuState_eq hp
  refine onward_same ?_ (by rw [heq]) fun u => Or.inl rfl
  intro u
  exact ⟨rfl, fun _ => rfl, by rw [heq]⟩

theorem onward_translate {v : Nat} (hidle : s.threads v = .idle) (tb : QemuTb) :
    Onward s (s.give v (.loadFlag tb)) [] := by
  refine onward_same (fun u => SameLocal.refl u s.machine) rfl ?_
  intro u
  by_cases huv : u = v
  · subst huv
    have hown : (s.give u (.loadFlag tb)).threads u = .loadFlag tb := Function.update_self ..
    rw [hidle, hown]
    exact Or.inr ⟨rfl, rfl, rfl, rfl⟩
  · exact Or.inl (Function.update_of_ne huv _ _)

end Steps

/-! ## §2. Edges. -/

/-- The branches that the executions of one vCPU call for, each from the
execution it completed last. -/
def branchesOf (v : Nat) (rs : List ExecRecord) : List Edge :=
  relayed ExecRecord.vcpu (fun past r => branchEdge (lastComplete r.vcpu past) r) v rs

/-- **THE SIMULATION**, edges: recorded and due edges are the branches. -/
structure FollowsEdges (s : System) (notes : List Note) : Prop where
  tracks : Tracks (settled s) (entriesOf notes)
  edges : ∀ v, edgesOf v notes ++ dueEdges v s.machine (s.threads v).queue
    = branchesOf v (entriesOf notes)

section Follows

variable {s s' : System} {notes notes' : List Note}

theorem FollowsEdges.onward (h : FollowsEdges s notes) (hon : Onward s s' notes') :
    FollowsEdges s' (notes ++ notes') := by
  constructor
  · rw [entriesOf_append, hon.entries, List.append_nil]
    intro v
    have hv := (hon.settled v).vcpu
    show ((settle v s'.machine (s'.threads v).queue).vcpus v).lastTbEnd = _ ∧ _
    rw [hv]
    refine ⟨(h.tracks v).1, ?_⟩
    show ((settle v s'.machine (s'.threads v).queue).vcpus v).fallThroughAddr = _
    rw [hv]
    exact (h.tracks v).2
  · intro v
    rw [entriesOf_append, hon.entries, List.append_nil, edgesOf_append, List.append_assoc,
        ← hon.edges v]
    exact h.edges v

/-- A vCPU enters a translation: every vCPU's data once it will be through. -/
theorem settled_enter {v : Nat} {tr : Translation} {started : Nat} (hidle : s.threads v = .idle)
    (htr : Instrumented s.machine.plugin tr) (hs : started ≤ tr.tb.insns.length) :
    (settled (s.give v (.ops (opsOf tr started)))).vcpus
      = Function.update (settled s).vcpus v
          (vcpuAfter s.machine.plugin tr started ((settled s).vcpus v)) := by
  obtain ⟨_, _, hsettle⟩ := due_opsOf v s.machine htr hs
  have hbefore : (settled s).vcpus v = s.machine.vcpus v := by
    show (settle v s.machine (s.threads v).queue).vcpus v = _
    rw [hidle]
    rfl
  funext u
  show (settle u s.machine (Function.update s.threads v (.ops (opsOf tr started)) u).queue).vcpus u
    = _
  by_cases huv : u = v
  · subst huv
    rw [Function.update_self, Function.update_self, hbefore]
    exact hsettle
  · rw [Function.update_of_ne huv, Function.update_of_ne huv]
    rfl

theorem FollowsEdges.enter (h : FollowsEdges s notes) {v : Nat} {tr : Translation} {started : Nat}
    (hidle : s.threads v = .idle) (htier : 1 ≤ s.machine.plugin.config.tier)
    (htr : Instrumented s.machine.plugin tr) (hs : started ≤ tr.tb.insns.length) :
    FollowsEdges (s.give v (.ops (opsOf tr started)))
      (notes ++ [.entered ⟨v, tr, started, Emitted.none⟩]) := by
  have hentries : entriesOf (notes ++ [.entered ⟨v, tr, started, Emitted.none⟩])
      = entriesOf notes ++ [⟨v, tr, started, Emitted.none⟩] := by
    rw [entriesOf_append]
    rfl
  have hedges : ∀ u, edgesOf u (notes ++ [.entered ⟨v, tr, started, Emitted.none⟩])
      = edgesOf u notes := by
    intro u
    rw [edgesOf_append]
    exact List.append_nil _
  constructor
  · rw [hentries]
    exact h.tracks.exec htier ⟨v, tr, started, Emitted.none⟩ _ (settled_enter hidle htr hs)
  · intro u
    rw [hentries, hedges]
    unfold branchesOf
    rw [relayed_concat]
    by_cases huv : v = u
    · subst huv
      -- nothing was due; now the edge of this entry is
      obtain ⟨hdue, _, _⟩ := due_opsOf v s.machine htr hs
      have hbefore := h.edges v
      have hentry := h.tracks.entryEdge_eq htier ⟨v, tr, started, Emitted.none⟩
      have hvcpu : (settled s).vcpus v = s.machine.vcpus v := by
        show (settle v s.machine (s.threads v).queue).vcpus v = _
        rw [hidle]
        rfl
      rw [hidle] at hbefore
      dsimp only at hentry
      rw [hvcpu] at hentry
      rw [if_pos rfl, ← hentry]
      show _ ++ dueEdges v s.machine
        (Function.update s.threads v (.ops (opsOf tr started)) v).queue = _
      rw [Function.update_self]
      show _ ++ dueEdges v s.machine (opsOf tr started) = _
      rw [hdue]
      unfold branchesOf at hbefore
      rw [← hbefore]
      show _ = (edgesOf v notes ++ []) ++ _
      rw [List.append_nil]
      rfl
    · rw [if_neg huv, List.append_nil]
      show _ ++ dueEdges u s.machine
        (Function.update s.threads v (.ops (opsOf tr started)) u).queue = _
      rw [Function.update_of_ne (Ne.symm huv)]
      exact h.edges u

end Follows

/-! ## §3. Calls. -/

/-- The indirect calls that the executions of one vCPU call for. -/
def pairedOf (arch : Arch) (v : Nat) (rs : List ExecRecord) : List (UInt64 × UInt64) :=
  relayed ExecRecord.vcpu (pairedCall arch) v rs

/-- **THE SIMULATION**, calls. -/
structure FollowsCalls (arch : Arch) (s : System) (notes : List Note) : Prop where
  tracks : CallTracks (settled s) (entriesOf notes)
  calls : ∀ v, callsOf v notes ++ (s.threads v).dueCalls v s.machine
    = pairedOf arch v (entriesOf notes)

/-- The call recorded at an entry is the one paired there. -/
theorem entryCall_eq {m : Machine} {rs : List ExecRecord} (hedges : Tracks m rs)
    (hcalls : CallTracks m rs) (htier : 2 ≤ m.plugin.config.tier) (r : ExecRecord) :
    (entryCall m.plugin (m.vcpus r.vcpu) r.tr).toList = pairedCall m.plugin.targetArch rs r := by
  have htier1 : 1 ≤ m.plugin.config.tier := UInt8.le_trans (by decide) htier
  have hedge := hedges.entryEdge_eq htier1 r
  have hpend : (m.vcpus r.vcpu).pendingIndirectCallsite
      = leftPending m.plugin.targetArch r.vcpu rs := hcalls r.vcpu
  unfold pairedCall entryCall
  rw [← hedge, ← hpend]
  cases entryEdge m.plugin (m.vcpus r.vcpu) r.tr with
  | none => simp
  | some e =>
      by_cases hz : (m.vcpus r.vcpu).pendingIndirectCallsite = 0
      · simp [hz]
      · simp [hz, htier]

section Follows

variable {arch : Arch} {s s' : System} {notes notes' : List Note}

theorem FollowsCalls.onward (h : FollowsCalls arch s notes) (hon : Onward s s' notes') :
    FollowsCalls arch s' (notes ++ notes') := by
  constructor
  · rw [entriesOf_append, hon.entries, List.append_nil]
    intro v
    show ((settle v s'.machine (s'.threads v).queue).vcpus v).pendingIndirectCallsite
      = (_ : Option UInt64).getD 0
    rw [(hon.settled v).vcpu]
    show _ = ((onVcpu v (entriesOf notes)).getLast?.bind fun r =>
      lastIndirect s'.machine.plugin.targetArch (r.tr.tb.insns.take r.started)).getD 0
    rw [hon.shape.2]
    exact h.tracks v
  · intro v
    rw [entriesOf_append, hon.entries, List.append_nil, callsOf_append, List.append_assoc,
        ← hon.calls v]
    exact h.calls v

theorem FollowsCalls.enter (h : FollowsCalls arch s notes) (hedges : FollowsEdges s notes)
    {v : Nat} {tr : Translation} {started : Nat} (hidle : s.threads v = .idle)
    (htier : 2 ≤ s.machine.plugin.config.tier) (harch : s.machine.plugin.targetArch = arch)
    (htr : Instrumented s.machine.plugin tr) (hs : started ≤ tr.tb.insns.length) :
    FollowsCalls arch (s.give v (.ops (opsOf tr started)))
      (notes ++ [.entered ⟨v, tr, started, Emitted.none⟩]) := by
  have hentries : entriesOf (notes ++ [.entered ⟨v, tr, started, Emitted.none⟩])
      = entriesOf notes ++ [⟨v, tr, started, Emitted.none⟩] := by
    rw [entriesOf_append]
    rfl
  have hcalls : ∀ u, callsOf u (notes ++ [.entered ⟨v, tr, started, Emitted.none⟩])
      = callsOf u notes := by
    intro u
    rw [callsOf_append]
    exact List.append_nil _
  constructor
  · rw [hentries]
    exact h.tracks.exec htier ⟨v, tr, started, Emitted.none⟩ _ rfl (settled_enter hidle htr hs)
  · intro u
    rw [hentries, hcalls]
    unfold pairedOf
    rw [relayed_concat]
    by_cases huv : v = u
    -- its own registrations owe the call of this entry; it owed none while idle
    · subst huv
      obtain ⟨_, hdue, _⟩ := due_opsOf v s.machine htr hs
      have hbefore := h.calls v
      have hentry := entryCall_eq hedges.tracks h.tracks htier ⟨v, tr, started, Emitted.none⟩
      have hvcpu : (settled s).vcpus v = s.machine.vcpus v := by
        show (settle v s.machine (s.threads v).queue).vcpus v = _
        rw [hidle]
        rfl
      have harch' : (settled s).plugin.targetArch = arch := harch
      rw [hidle] at hbefore
      dsimp only at hentry
      rw [hvcpu, harch'] at hentry
      rw [if_pos rfl, ← hentry]
      show _ ++ (Function.update s.threads v (.ops (opsOf tr started)) v).dueCalls v s.machine = _
      rw [Function.update_self]
      show _ ++ Threads.dueCalls v s.machine (opsOf tr started) = _
      rw [hdue]
      unfold pairedOf at hbefore
      rw [← hbefore]
      show _ = (callsOf v notes ++ []) ++ _
      rw [List.append_nil]
      rfl
    · rw [if_neg huv, List.append_nil]
      show _ ++ (Function.update s.threads v (.ops (opsOf tr started)) u).dueCalls u s.machine = _
      rw [Function.update_of_ne (Ne.symm huv)]
      exact h.calls u

end Follows

/-! ## §4. Every run. -/

section Runs

variable {config : PluginConfig} {tier3 sysemu : Bool} {arch : String} {host : HostInfo}
  {evs : List Event} {s : System} {out : List Action}

/-- **EVERY RUN** keeps the simulations. -/
theorem follows_run
    (h : runFrom (System.init config tier3 sysemu arch host) evs = some (s, out)) :
    (1 ≤ config.tier →
        FollowsEdges s (notesOf (System.init config tier3 sysemu arch host) evs))
      ∧ (2 ≤ config.tier → FollowsCalls (Arch.fromName arch) s
        (notesOf (System.init config tier3 sysemu arch host) evs)) := by
  refine watch_induction Threads.step note (fun s _ notes => (1 ≤ config.tier → FollowsEdges s notes)
      ∧ (2 ≤ config.tier → FollowsCalls (Arch.fromName arch) s notes)) _ ?_ ?_ h
  · exact ⟨fun _ => ⟨fun v => ⟨rfl, rfl⟩, fun v => rfl⟩, fun _ => ⟨fun v => rfl, fun v => rfl⟩⟩
  · intro s out notes e s' acts hreach hp hstep
    obtain ⟨evs, hreach⟩ := hreach
    have hready := ready_run hreach
    -- a step is onward, or it enters a translation and then goes on
    have honward : ∀ {s₁ s₂ : System} {ns ns' : List Note},
        ((1 ≤ config.tier → FollowsEdges s₁ ns)
          ∧ (2 ≤ config.tier → FollowsCalls (Arch.fromName arch) s₁ ns)) → Onward s₁ s₂ ns' →
        (1 ≤ config.tier → FollowsEdges s₂ (ns ++ ns'))
          ∧ (2 ≤ config.tier → FollowsCalls (Arch.fromName arch) s₂ (ns ++ ns')) :=
      fun hf hon => ⟨fun ht => (hf.1 ht).onward hon, fun ht => (hf.2 ht).onward hon⟩
    rcases step_sections hstep with ⟨v, plugin, rfl, hpl, rfl, _⟩ | ⟨v, tb, rfl, _, hidle, rfl, _⟩
      | ⟨rfl, rfl, _⟩ | ⟨v, tid, started, env, tr, rfl, htr, _, hidle, hs, rfl, _⟩
      | ⟨v, env, rfl, _, rfl, _⟩
    · exact honward hp (onward_vcpuInit hpl)
    · exact honward hp (onward_translate hidle tb)
    · exact honward hp (onward_same (fun u => ⟨rfl, fun _ => rfl, rfl⟩) rfl fun u => Or.inl rfl)
    · have hins := hready.instrumented tr (Or.inl (List.mem_of_getElem? htr))
      have hgive : (s.give v (.ops (opsOf tr started))).threads v = .ops (opsOf tr started) :=
        Function.update_self ..
      have hrun := onward_run env v (s.give v (.ops (opsOf tr started)))
      rw [hgive] at hrun
      rw [note_exec htr, ← List.append_assoc]
      refine honward ⟨?_, ?_⟩ hrun
      · intro ht
        exact (hp.1 ht).enter hidle (hready.tier_le ht) hins hs
      · intro ht
        have ht1 : 1 ≤ config.tier := UInt8.le_trans (by decide) ht
        exact (hp.2 ht).enter (hp.1 ht1) hidle (hready.tier_le ht) hready.arch_eq hins hs
    · exact honward hp (onward_run env v s)

/-- Below tier 1 no edge is recorded, and none is due. -/
theorem edgesOf_below_tier1
    (h : runFrom (System.init config tier3 sysemu arch host) evs = some (s, out))
    (htier : ¬ 1 ≤ config.tier) (v : Nat) :
    edgesOf v (notesOf (System.init config tier3 sysemu arch host) evs) = [] := by
  have hrun := watch_induction Threads.step note (fun s _ notes =>
    ∀ u, edgesOf u notes ++ dueEdges u s.machine (s.threads u).queue = []) _ (fun u => rfl) ?_ h
  · exact (List.append_eq_nil_iff.mp (hrun v)).1
  · intro s out notes e s' acts hreach hp hstep
    obtain ⟨evs, hreach⟩ := hreach
    have hready := ready_run hreach
    have honward : ∀ {s₁ s₂ : System} {ns ns' : List Note},
        (∀ u, edgesOf u ns ++ dueEdges u s₁.machine (s₁.threads u).queue = []) →
        Onward s₁ s₂ ns' →
        ∀ u, edgesOf u (ns ++ ns') ++ dueEdges u s₂.machine (s₂.threads u).queue = [] := by
      intro s₁ s₂ ns ns' hnone hon u
      rw [edgesOf_append, List.append_assoc, ← hon.edges u]
      exact hnone u
    rcases step_sections hstep with ⟨v, plugin, rfl, hpl, rfl, _⟩ | ⟨v, tb, rfl, _, hidle, rfl, _⟩
      | ⟨rfl, rfl, _⟩ | ⟨v, tid, started, env, tr, rfl, htr, _, hidle, hs, rfl, _⟩
      | ⟨v, env, rfl, _, rfl, _⟩
    · exact honward hp (onward_vcpuInit hpl)
    · exact honward hp (onward_translate hidle tb)
    · exact honward hp (onward_same (fun u => ⟨rfl, fun _ => rfl, rfl⟩) rfl fun u => Or.inl rfl)
    · -- at the entry the tier is asked for
      have hins := hready.instrumented tr (Or.inl (List.mem_of_getElem? htr))
      have hgive : (s.give v (.ops (opsOf tr started))).threads v = .ops (opsOf tr started) :=
        Function.update_self ..
      have hrun := onward_run env v (s.give v (.ops (opsOf tr started)))
      rw [hgive] at hrun
      rw [note_exec htr, ← List.append_assoc]
      refine honward ?_ hrun
      intro u
      rw [edgesOf_append, (List.append_eq_nil_iff.mp (hp u)).1, List.nil_append]
      show dueEdges u s.machine (Function.update s.threads v (.ops (opsOf tr started)) u).queue = []
      by_cases huv : u = v
      · subst huv
        have hnone : entryEdge s.machine.plugin (s.machine.vcpus u) tr = none := by
          unfold entryEdge
          rw [hready.config_eq]
          exact if_neg fun hand => htier hand.1
        rw [Function.update_self]
        show dueEdges u s.machine (opsOf tr started) = []
        rw [(due_opsOf u s.machine hins hs).1, hnone]
        rfl
      · rw [Function.update_of_ne huv]
        exact (List.append_eq_nil_iff.mp (hp u)).2
    · exact honward hp (onward_run env v s)

/-- The observed executions are those that the run emits. -/
theorem entriesOf_run
    (h : runFrom (System.init config tier3 sysemu arch host) evs = some (s, out)) :
    (entriesOf (notesOf (System.init config tier3 sysemu arch host) evs)).map
        (fun r => (r.vcpu, r.tr))
      = executionsOf out := by
  refine watch_induction Threads.step note (fun _ out notes =>
    (entriesOf notes).map (fun r => (r.vcpu, r.tr)) = executionsOf out) _ rfl ?_ h
  intro s out notes e s' acts hreach hp hstep
  obtain ⟨evs, hreach⟩ := hreach
  have hinv := runFrom_inv hreach
  rw [entriesOf_append, executionsOf_append, List.map_append, hp]
  congr 1
  rcases step_sections hstep with ⟨v, plugin, rfl, _, _, rfl⟩ | ⟨v, tb, rfl, _, _, _, rfl⟩
    | ⟨rfl, _, rfl⟩ | ⟨v, tid, started, env, tr, rfl, htr, _, _, _, _, rfl⟩
    | ⟨v, env, rfl, _, _, rfl⟩
  · rfl
  · rfl
  · rfl
  · obtain ⟨rest, hrest, hops⟩ := hinv.ticksOnce tr (Or.inl (List.mem_of_getElem? htr)) started
    rw [note_exec htr, hops]
    rfl
  · show (entriesOf (sectionNotes env v s.machine (s.threads v))).map _ = _
    rw [entriesOf_section, (advance_effect env v s.machine (hinv.queues v)).frame.2.2.2.2]
    rfl

/-- An idle thread has nothing left to record. -/
theorem due_idle {v : Nat} (hidle : s.threads v = .idle) :
    dueEdges v s.machine (s.threads v).queue = [] ∧ (s.threads v).dueCalls v s.machine = [] := by
  rw [hidle]
  exact ⟨rfl, rfl⟩

/-- On completed executions the branches are those between consecutive ones. -/
theorem branchesOf_complete {rs : List ExecRecord} (h : ∀ r ∈ rs, r.complete = true) (v : Nat) :
    branchesOf v rs = (pairs (onVcpu v rs)).flatMap fun ab => branchEdge (some ab.1) ab.2 := by
  refine relayed_pairs ExecRecord.vcpu _ branchEdge (fun _ => rfl) v rs ?_
  intro past r rest hsplit
  rw [lastComplete_eq_getLast?]
  · rfl
  · intro p hp
    exact h p (by rw [hsplit]; exact List.mem_append_left _ hp)

theorem pairedOf_complete {rs : List ExecRecord} (h : ∀ r ∈ rs, r.complete = true) (a : Arch)
    (v : Nat) :
    pairedOf a v rs = (pairs (onVcpu v rs)).flatMap fun ab => callBetween a (some ab.1) ab.2 := by
  refine relayed_pairs ExecRecord.vcpu _ (callBetween a) (fun _ => rfl) v rs ?_
  intro past r rest hsplit
  exact pairedCall_of_complete a
    (fun p hp => h p (by rw [hsplit]; exact List.mem_append_left _ hp)) r

/-- **RECORDED EDGES, IN EVERY INTERLEAVING.**  At any moment, the edges that
a vCPU passed to `record_edge`, in order, and then those that the execution it
is in will pass, are the branches that its own executions call for, each from
the execution it completed last; other threads add, drop and reorder none.
When all executions complete and the thread is idle, they are the branches
between its consecutive executions. -/
theorem recorded_edges_interleaved
    (h : runFrom (System.init config tier3 sysemu arch host) evs = some (s, out))
    (htier : 1 ≤ config.tier) (v : Nat) :
    edgesOf v (notesOf (System.init config tier3 sysemu arch host) evs)
        ++ dueEdges v s.machine (s.threads v).queue
      = branchesOf v (entriesOf (notesOf (System.init config tier3 sysemu arch host) evs))
    ∧ (s.threads v = .idle →
        (∀ r ∈ entriesOf (notesOf (System.init config tier3 sysemu arch host) evs),
          r.complete = true) →
        edgesOf v (notesOf (System.init config tier3 sysemu arch host) evs)
          = (pairs (onVcpu v
              (entriesOf (notesOf (System.init config tier3 sysemu arch host) evs)))).flatMap
            fun ab => branchEdge (some ab.1) ab.2) := by
  have hedges := ((follows_run h).1 htier).edges v
  refine ⟨hedges, ?_⟩
  intro hidle hcomplete
  rw [(due_idle hidle).1, List.append_nil] at hedges
  rw [hedges, branchesOf_complete hcomplete]

/-- **RECORDED CALLS, IN EVERY INTERLEAVING.**  The same for
`record_indirect_call`: also when `record_edge` flushed between a vCPU's
reading of the pending callsite and its recording of the call. -/
theorem recorded_calls_interleaved
    (h : runFrom (System.init config tier3 sysemu arch host) evs = some (s, out))
    (htier : 2 ≤ config.tier) (v : Nat) :
    callsOf v (notesOf (System.init config tier3 sysemu arch host) evs)
        ++ (s.threads v).dueCalls v s.machine
      = pairedOf (Arch.fromName arch) v
          (entriesOf (notesOf (System.init config tier3 sysemu arch host) evs))
    ∧ (s.threads v = .idle →
        (∀ r ∈ entriesOf (notesOf (System.init config tier3 sysemu arch host) evs),
          r.complete = true) →
        callsOf v (notesOf (System.init config tier3 sysemu arch host) evs)
          = (pairs (onVcpu v
              (entriesOf (notesOf (System.init config tier3 sysemu arch host) evs)))).flatMap
            fun ab => callBetween (Arch.fromName arch) (some ab.1) ab.2) := by
  have hcalls := ((follows_run h).2 htier).calls v
  refine ⟨hcalls, ?_⟩
  intro hidle hcomplete
  rw [(due_idle hidle).2, List.append_nil] at hcalls
  rw [hcalls, pairedOf_complete hcomplete]

end Runs

/-- Threads 0 and 1 take turns, a section each. -/
def alternating (n : Nat) : List Event :=
  (List.replicate n [.run 0 ⟨[], 0⟩, .run 1 ⟨[], 0⟩]).flatten

/-- Two vCPUs return from one block to another at the same time. -/
def returningEvents : List Event :=
  [.vcpuInit 0, .vcpuInit 1, .translate 0 (retBlock 0x10)] ++ sections 0 6
    ++ [.translate 1 (nopBlock 0x40 0)] ++ sections 1 4
    ++ [.exec 0 0 2 ⟨[], 0⟩, .exec 1 0 2 ⟨[], 0⟩] ++ alternating 8
    ++ [.exec 1 1 1 ⟨[], 0⟩, .exec 0 1 1 ⟨[], 0⟩] ++ alternating 10

/-- The run is possible, its threads come to rest, and no execution is cut
short. -/
theorem returningEvents_rests :
    (runFrom (installed 2 1 true) returningEvents).isSome = true
      ∧ (∀ v < 2, ((outcome (installed 2 1 true) returningEvents).1.threads v).isIdle = true)
      ∧ ∀ r ∈ entriesOf (notesOf (installed 2 1 true) returningEvents), r.complete = true := by
  decide

theorem recorded_edges_returning :
    edgesOf 0 (notesOf (installed 2 1 true) returningEvents) = [⟨0x14, 0x40⟩] := by
  obtain ⟨hrun, hidle, hcomplete⟩ := returningEvents_rests
  exact ((recorded_edges_interleaved (runFrom_outcome _ _ hrun) (by decide) 0).2
    (Thread.eq_idle (hidle 0 (by decide))) hcomplete).trans (by decide)

theorem recorded_calls_returning :
    callsOf 1 (notesOf (installed 2 1 true) returningEvents) = [(0x14, 0x40)] := by
  obtain ⟨hrun, hidle, hcomplete⟩ := returningEvents_rests
  exact ((recorded_calls_interleaved (runFrom_outcome _ _ hrun) (by decide) 1).2
    (Thread.eq_idle (hidle 1 (by decide))) hcomplete).trans (by decide)

end QemuProfiler.Threads

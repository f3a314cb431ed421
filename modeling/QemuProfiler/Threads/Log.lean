/-
  QemuProfiler.Threads.Log
  ────────────────────────
  The log in interleaved runs: one thread opens it, and from then on it holds
  the batches of the writer sections, in their order.
-/
import QemuProfiler.Edges.RunLog
import QemuProfiler.Threads.Invariant

namespace QemuProfiler.Threads

open QemuProfiler.Lib QemuProfiler.Plugin QemuProfiler.Qemu QemuProfiler.Edges QemuProfiler.Format

/-! ## §1. Batches. -/

/-- A batch entry as an edge and its count. -/
def ofTriple (e : Triple) : Edge × UInt64 := (⟨e.1, e.2.1⟩, e.2.2)

theorem map_toTriple_ofTriple (l : List Triple) : (l.map ofTriple).map toTriple = l := by
  rw [List.map_map]
  exact List.map_id l

/-- The thread has won the exchange and not stored the writer yet. -/
def Thread.opening : Thread → Bool
  | .storeWriter _ => true
  | _ => false

theorem Thread.opening_of_calm {th : Thread} (h : th.calm = true) : th.opening = false := by
  cases th with
  | storeWriter tb => exact absurd h (by simp [Thread.calm])
  | _ => rfl

/-- **A writer section appends its batch.** -/
theorem logOf_writeBatch {written : List (Edge × UInt64)} {w : ProfileWriter}
    (h : LogOf written w) (env : Env) (s : PluginState) (hw : s.writer = some w) (v : Nat)
    (edges : List Triple) :
    ∃ w', (s.writeBatch env v edges).writer = some w' ∧ LogOf (written ++ edges.map ofTriple) w' := by
  refine ⟨callsNext w [.branchEdgeBatch edges, .flushMarker env.elapsed (UInt32.ofNat v)
    (UInt32.ofNat edges.length)], ?_, ?_⟩
  · unfold PluginState.writeBatch
    rw [hw]
    simp only [perform_eq, Option.map_some]
    rfl
  · refine h.append ?_ ?_
    · intro c hc
      simp only [List.mem_cons, List.not_mem_nil, or_false] at hc
      rcases hc with rfl | rfl <;> rfl
    · rw [map_toTriple_ofTriple]
      exact List.append_nil _

/-! ## §2. The invariant. -/

/-- The states of the log: not claimed, being opened by one thread, open. -/
structure WriterInv (s : System) (out : List Action) : Prop where
  unclaimed : s.machine.plugin.writerInitialized = false →
    s.machine.plugin.writer = none ∧ ∀ v, (s.threads v).opening = false
  unopened : s.machine.plugin.writer = none → loggedOf out = []
  opened : ∀ w, s.machine.plugin.writer = some w →
    LogOf ((loggedOf out).map ofTriple) w ∧ ∀ v, (s.threads v).opening = false
  one : ∀ u v, (s.threads u).opening = true → (s.threads v).opening = true → u = v
  /-- A claimed log gets opened, if it can be. -/
  claimed : s.machine.plugin.writerInitialized = true → s.machine.host.outputOpens = true →
    s.machine.plugin.writer = none → ∃ v, (s.threads v).opening = true

theorem writerInv_init (config : PluginConfig) (tier3 sysemu : Bool) (arch : String)
    (host : HostInfo) : WriterInv (System.init config tier3 sysemu arch host) [] where
  unclaimed := fun _ => ⟨rfl, fun _ => rfl⟩
  unopened := fun _ => rfl
  opened := fun w hw => absurd hw (by simp [System.init, Machine.init, PluginState.new])
  one := fun u v hu => absurd hu (by simp [System.init, Thread.opening])
  claimed := fun h => absurd h (by simp [System.init, Machine.init, PluginState.new])

section Steps

variable {s : System} {out : List Action}

/-- Steps that leave the writer, the flag and the threads that open alone. -/
theorem WriterInv.frame (h : WriterInv s out) {s' : System} {acts : List Action}
    (hwriter : s'.machine.plugin.writer = s.machine.plugin.writer)
    (hflag : s'.machine.plugin.writerInitialized = s.machine.plugin.writerInitialized)
    (hhost : s'.machine.host = s.machine.host)
    (hopen : ∀ v, (s'.threads v).opening = (s.threads v).opening) (hlog : loggedOf acts = []) :
    WriterInv s' (out ++ acts) := by
  have hout : loggedOf (out ++ acts) = loggedOf out := by
    rw [loggedOf_append, hlog, List.append_nil]
  constructor
  · rw [hflag, hwriter]
    intro hf
    refine ⟨(h.unclaimed hf).1, ?_⟩
    intro v
    rw [hopen]
    exact (h.unclaimed hf).2 v
  · rw [hwriter, hout]
    exact h.unopened
  · rw [hwriter, hout]
    intro w hw
    refine ⟨(h.opened w hw).1, ?_⟩
    intro v
    rw [hopen]
    exact (h.opened w hw).2 v
  · intro u v hu hv
    rw [hopen] at hu hv
    exact h.one u v hu hv
  · rw [hflag, hhost, hwriter]
    intro hf hho hw
    obtain ⟨v, hv⟩ := h.claimed hf hho hw
    exact ⟨v, by rw [hopen]; exact hv⟩

/-- A section of a thread that neither was opening the log nor is. -/
theorem opening_update {v : Nat} {th' : Thread} (h : (s.threads v).opening = false)
    (h' : th'.opening = false) :
    ∀ u, (Function.update s.threads v th' u).opening = (s.threads u).opening := by
  intro u
  by_cases huv : u = v
  · rw [huv, Function.update_self, h, h']
  · rw [Function.update_of_ne huv]

theorem WriterInv.claim (h : WriterInv s out) {v : Nat} {tb : QemuTb}
    (hflag : s.machine.plugin.writerInitialized = false) :
    WriterInv ⟨Machine.withPlugin s.machine { s.machine.plugin with writerInitialized := true },
      Function.update s.threads v (.storeWriter tb)⟩ out := by
  obtain ⟨hnone, hcalm⟩ := h.unclaimed hflag
  have honly : ∀ u, (Function.update s.threads v (.storeWriter tb) u).opening = true → u = v := by
    intro u hu
    by_contra huv
    rw [Function.update_of_ne huv, hcalm u] at hu
    exact absurd hu (by simp)
  constructor
  · intro hf
    exact absurd hf (by simp [Machine.withPlugin])
  · exact h.unopened
  · intro w hw
    exact absurd (hnone.symm.trans hw) (by simp)
  · intro u u' hu hu'
    rw [honly u hu, honly u' hu']
  · intro _ _ _
    refine ⟨v, ?_⟩
    show (Function.update s.threads v (.storeWriter tb) v).opening = true
    rw [Function.update_self]
    rfl

theorem WriterInv.openLog (h : WriterInv s out) {v : Nat} {tb : QemuTb}
    (hth : s.threads v = .storeWriter tb) :
    WriterInv ⟨Machine.withPlugin s.machine (openWriter s.machine.host s.machine.plugin),
      Function.update s.threads v (.internSymbol tb)⟩ out := by
  have hopening : (s.threads v).opening = true := by
    rw [hth]
    rfl
  -- nobody else is opening the log, and it is not open yet
  have hcalm : ∀ u, (Function.update s.threads v (.internSymbol tb) u).opening = false := by
    intro u
    by_cases huv : u = v
    · rw [huv, Function.update_self]
      rfl
    · rw [Function.update_of_ne huv]
      by_contra hu
      exact huv (h.one u v (by simpa using hu) hopening)
  have hnone : s.machine.plugin.writer = none := by
    cases hw : s.machine.plugin.writer with
    | none => rfl
    | some w => exact absurd ((h.opened w hw).2 v) (by rw [hopening]; simp)
  have hflag : s.machine.plugin.writerInitialized = true := by
    by_contra hf
    have hnot := (h.unclaimed (by simpa using hf)).2 v
    rw [hopening] at hnot
    exact absurd hnot (by simp)
  have hlog := h.unopened hnone
  obtain ⟨writer, hframe⟩ := openWriter_frame s.machine.host s.machine.plugin
  constructor
  · intro hf
    have hf' : (openWriter s.machine.host s.machine.plugin).writerInitialized = false := hf
    rw [hframe] at hf'
    exact absurd (hflag.symm.trans hf') (by simp)
  · intro _
    exact hlog
  · intro w hw
    refine ⟨?_, hcalm⟩
    by_cases hopen : s.machine.host.outputOpens = true
    · obtain ⟨w', hw', hlogOf⟩ := logOf_openWriter s.machine.host s.machine.plugin hopen
      have heq : w' = w := Option.some.inj (hw'.symm.trans hw)
      rw [hlog, ← heq]
      exact hlogOf
    · have hw' : (openWriter s.machine.host s.machine.plugin).writer = some w := hw
      unfold openWriter at hw'
      rw [if_neg hopen, hnone] at hw'
      exact absurd hw' (by simp)
  · intro u u' hu
    exact absurd (hcalm u) (by rw [show (Function.update s.threads v (.internSymbol tb)
      u).opening = true from hu]; simp)
  · intro _ hho hw
    obtain ⟨w', hw', _⟩ := logOf_openWriter s.machine.host s.machine.plugin hho
    exact absurd (hw'.symm.trans hw) (by simp)

theorem WriterInv.write (h : WriterInv s out) {env : Env} {v : Nat} {edges : List Triple}
    {toAddr : UInt64} {rest : List TbOp} (hth : s.threads v = .writeBatch edges toAddr rest) :
    WriterInv ⟨Machine.withPlugin s.machine (s.machine.plugin.writeBatch env v edges),
        Function.update s.threads v (.pendingCall toAddr rest)⟩
      (out ++ [if s.machine.plugin.writer.isSome then .logged edges else .lost edges]) := by
  have hopen : ∀ u, (Function.update s.threads v (.pendingCall toAddr rest) u).opening
      = (s.threads u).opening := opening_update (by rw [hth]; rfl) rfl
  cases hw : s.machine.plugin.writer with
  | none =>
      -- no log: the batch is dropped
      refine h.frame ?_ rfl rfl hopen rfl
      show Option.map _ s.machine.plugin.writer = _
      rw [hw]
      rfl
  | some w =>
      obtain ⟨hlog, hnot⟩ := h.opened w hw
      obtain ⟨w', hw', hlog'⟩ := logOf_writeBatch hlog env s.machine.plugin hw v edges
      constructor
      · intro hf
        rw [(h.unclaimed hf).1] at hw
        exact absurd hw (by simp)
      · intro hnone
        exact absurd (hw'.symm.trans hnone) (by simp)
      · intro w'' hw''
        have heq : w' = w'' := Option.some.inj (hw'.symm.trans hw'')
        refine ⟨?_, fun u => (hopen u).trans (hnot u)⟩
        rw [← heq, loggedOf_append, List.map_append]
        show LogOf (_ ++ (edges ++ []).map ofTriple) w'
        rw [List.append_nil]
        exact hlog'
      · intro u u' hu
        exact absurd ((hopen u).trans (hnot u)) (by rw [show (Function.update s.threads v
          (.pendingCall toAddr rest) u).opening = true from hu]; simp)
      · intro _ _ hnone
        exact absurd (hw'.symm.trans hnone) (by simp)

theorem WriterInv.effect (h : WriterInv s out) {env : Env} {v : Nat} {m' : Machine} {th' : Thread}
    {acts : List Action} (heff : Effect env v s.machine (s.threads v) m' th' acts) :
    WriterInv ⟨m', Function.update s.threads v th'⟩ (out ++ acts) := by
  generalize hth : s.threads v = th at heff
  cases heff with
  | quiet hm hcalm hcalm' _ _ =>
      exact h.frame hm.writer hm.writerInitialized hm.host
        (opening_update (by rw [hth]; exact Thread.opening_of_calm hcalm)
          (Thread.opening_of_calm hcalm')) rfl
  | claimWriter tb hflag =>
      rw [List.append_nil]
      exact h.claim hflag
  | storeWriter tb =>
      rw [List.append_nil]
      exact h.openLog hth
  | mapTb htb ht hrest =>
      refine h.frame ?_ ?_ rfl (opening_update (by rw [hth]; rfl) rfl) rfl
      · rw [hrest]
      · rw [hrest]
  | laterTiers tr =>
      obtain ⟨calls, tbMap, heq⟩ := laterTiers_frame s.machine.plugin tr.tb
      refine h.frame ?_ ?_ rfl (opening_update (by rw [hth]; rfl) rfl) rfl
      · rw [heq]
      · rw [heq]
  | takeNumber key _ =>
      exact h.frame rfl rfl rfl (opening_update (by rw [hth]; rfl) rfl) rfl
  | storeNumber key seq rest =>
      exact h.frame rfl rfl rfl (opening_update (by rw [hth]; rfl) rfl) rfl
  | drain accs _ _ =>
      exact h.frame rfl rfl rfl (opening_update (by rw [hth]; rfl) rfl) rfl
  | addFlushed edges toAddr rest =>
      exact h.frame rfl rfl rfl (opening_update (by rw [hth]; rfl) rfl) rfl
  | writeBatch edges toAddr rest => exact h.write hth

end Steps

/-! ## §3. Code only runs after the flag was set. -/

/-- The flag of the writer is set once a thread is past its check, and it
stays set. -/
structure Flagged (s : System) : Prop where
  threads : ∀ v, (s.threads v).pastFlag = true → s.machine.plugin.writerInitialized = true
  translations : s.machine.translations ≠ [] → s.machine.plugin.writerInitialized = true

theorem Effect.flag_mono {env : Env} {v : Nat} {m m' : Machine} {th th' : Thread}
    {acts : List Action} (h : Effect env v m th m' th' acts)
    (hflag : m.plugin.writerInitialized = true) : m'.plugin.writerInitialized = true := by
  cases h with
  | quiet hm _ _ _ _ => rw [hm.writerInitialized, hflag]
  | claimWriter tb _ => rfl
  | storeWriter tb =>
      obtain ⟨writer, heq⟩ := openWriter_frame m.host m.plugin
      rw [heq]
      exact hflag
  | mapTb _ _ hrest =>
      rw [hrest]
      exact hflag
  | laterTiers tr =>
      obtain ⟨calls, tbMap, heq⟩ := laterTiers_frame m.plugin tr.tb
      rw [heq]
      exact hflag
  | _ => exact hflag

/-- A thread gets past the check when the flag is set, by itself or before. -/
theorem Effect.flag_of_past {env : Env} {v : Nat} {m m' : Machine} {th th' : Thread}
    {acts : List Action} (h : Effect env v m th m' th' acts)
    (hth : th.pastFlag = true → m.plugin.writerInitialized = true)
    (hth' : th'.pastFlag = true) : m'.plugin.writerInitialized = true := by
  by_cases hflag : m.plugin.writerInitialized = true
  · exact h.flag_mono hflag
  · cases h with
    | quiet hm _ _ _ hpast =>
        rcases hpast hth' with hp | hf
        · exact absurd (hth hp) hflag
        · exact absurd hf hflag
    | claimWriter tb _ => rfl
    | laterTiers tr => exact absurd hth' (by simp [Thread.pastFlag])
    | _ => exact absurd (hth rfl) hflag

theorem runFrom_flagged {config : PluginConfig} {tier3 sysemu : Bool} {arch : String}
    {host : HostInfo} {evs : List Event} {s : System} {out : List Action}
    (h : runFrom (System.init config tier3 sysemu arch host) evs = some (s, out)) :
    Flagged s := by
  refine runFrom_induction (fun s _ => Flagged s) ?_ ?_ ?_ ?_ ?_ h
  · exact ⟨fun v hv => absurd hv (by simp [System.init, Thread.pastFlag]),
      fun hne => absurd rfl hne⟩
  · intro s out v plugin _ hf hp
    obtain ⟨i, j, heq, _⟩ := ensureVcpuState_eq hp
    rw [heq]
    exact ⟨hf.threads, hf.translations⟩
  · intro s out hf
    exact ⟨hf.threads, hf.translations⟩
  · intro s out v tr rest _ hf htr _ _
    have hflag := hf.translations (List.ne_nil_of_mem htr)
    exact ⟨fun _ _ => hflag, fun _ => hflag⟩
  · intro s out env v m' th' acts _ hf _ heff
    constructor
    · intro u hu
      rcases update_cases (rfl : Function.update s.threads v th' u = _) with ⟨_, heq⟩ | ⟨_, heq⟩
      · exact heff.flag_of_past (hf.threads v) (by rw [heq]; exact hu)
      · exact heff.flag_mono (hf.threads u (by rw [heq]; exact hu))
    · intro hne
      rcases heff.translations with heq | ⟨tr, hth, _⟩
      · exact heff.flag_mono (hf.translations (heq ▸ hne))
      · exact heff.flag_mono (hf.threads v (by rw [hth]; rfl))

/-! ## §4. Runs. -/

/-- **THE LOG OF A RUN.** -/
theorem runFrom_writerInv {config : PluginConfig} {tier3 sysemu : Bool} {arch : String}
    {host : HostInfo} {evs : List Event} {s : System} {out : List Action}
    (h : runFrom (System.init config tier3 sysemu arch host) evs = some (s, out)) :
    WriterInv s out := by
  refine runFrom_induction WriterInv (writerInv_init config tier3 sysemu arch host) ?_ ?_ ?_ ?_ h
  · intro s out v plugin _ hw hp
    obtain ⟨i, j, heq, _⟩ := ensureVcpuState_eq hp
    have hframe : WriterInv ⟨{ s.machine with
        plugin := plugin, numVcpus := max s.machine.numVcpus (v + 1) }, s.threads⟩ (out ++ []) :=
      hw.frame (by rw [heq]) (by rw [heq]) rfl (fun _ => rfl) rfl
    rw [List.append_nil] at hframe
    exact hframe
  · intro s out hw
    exact ⟨hw.unclaimed, hw.unopened, hw.opened, hw.one, hw.claimed⟩
  · intro s out v tr rest _ hw _ _ hidle
    exact hw.frame rfl rfl rfl (opening_update (by rw [hidle]; rfl) rfl) rfl
  · intro s out env v m' th' acts _ hw _ heff
    exact hw.effect heff

/-- **The file of a run** is the profile of its exit. -/
theorem exitProfile_run {config : PluginConfig} {tier3 sysemu : Bool} {arch : String}
    {host : HostInfo} {evs : List Event} {s : System} {out : List Action}
    (h : runFrom (System.init config tier3 sysemu arch host) evs = some (s, out))
    {o : ExitOrders} {w : ProfileWriter}
    (hexit : pluginExit o s.machine.plugin (execSum s.machine) = some w) (ρb ρf : IterOrder) :
    ∃ p, Convert.parse ρb ρf w.writer = .ok p
      ∧ ExitProfile o s.machine.plugin (execSum s.machine) ((loggedOf out).map ofTriple) p := by
  cases hw : s.machine.plugin.writer with
  | none =>
      unfold pluginExit at hexit
      rw [hw] at hexit
      exact absurd hexit (by simp)
  | some w₀ =>
      obtain ⟨w', p, hexit', hparse, hp⟩ := parse_exit o (execSum s.machine) hw
        ((runFrom_writerInv h).opened w₀ hw).1 ρb ρf
      rw [hexit, Option.some.injEq] at hexit'
      rw [hexit']
      exact ⟨p, hparse, hp⟩

end QemuProfiler.Threads

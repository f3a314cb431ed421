/-
  QemuProfiler.Threads.WriterStart
  ────────────────────────────────
  **FLUSHED EDGES AND THE START OF THE LOG.**

  The flag that the log is initialised is set before the writer exists.  A
  thread that sees the flag goes on, and when it flushes before the winner of
  the exchange has stored the writer, its batch is in `flushed_branch_entries`
  but not in the log (`flush_before_writer`).  That is the only way to lose
  one (`flushed_logged_iff`).
-/
import Mathlib.Algebra.Order.Group.Multiset
import Mathlib.Tactic.Abel
import QemuProfiler.Threads.Log

namespace QemuProfiler.Threads

open QemuProfiler.Lib QemuProfiler.Plugin QemuProfiler.Qemu QemuProfiler.Edges QemuProfiler.Format
open QemuProfiler.Convert hiding fileMagic FileHeader

/-! ## §1. Batches in flight. -/

/-- The drained batch that is not yet in `flushed_branch_entries`. -/
def Thread.unadded : Thread → List Triple
  | .addFlushed edges _ _ => edges
  | _ => []

/-- The drained batch that has not been through the writer section. -/
def Thread.unwritten : Thread → List Triple
  | .addFlushed edges _ _ => edges
  | .writeBatch edges _ _ => edges
  | _ => []

/-- The batches of all threads between two sections of `flush_edges`. -/
def System.unadded (s : System) : List Triple :=
  (List.range s.machine.numVcpus).flatMap fun v => (s.threads v).unadded

def System.unwritten (s : System) : List Triple :=
  (List.range s.machine.numVcpus).flatMap fun v => (s.threads v).unwritten

/-- The branch entries in the log. -/
def loggedEdges (s : PluginState) : List EdgeRecord :=
  (s.writer.map fun w => batchEdges w.writer).getD []

/-- An entry's target and count. -/
def intoTarget (e : Triple) : UInt64 × UInt64 := (e.2.1, e.2.2)

/-- **NOTHING IS LOST**: every drained entry is in the log once, unless its
thread is still on the way there; and the flushed counts and the log agree for
every target, up to the batches on the way. -/
structure AllLogged (s : System) (out : List Action) : Prop where
  once : ((drainedOf out).map edgeOf).Perm
    (loggedEdges s.machine.plugin ++ s.unwritten.map edgeOf)
  agree : ∀ t, (s.machine.plugin.flushedBranchEntries.lookup t).getD 0
      + sumAt t (s.unadded.map intoTarget)
    = sumAt t ((loggedEdges s.machine.plugin).map fun e => (e.toAddr, e.count))
      + sumAt t (s.unwritten.map intoTarget)

/-! ## §2. The condition. -/

/-- The thread is about to run the writer section of a flush. -/
def Thread.writing : Thread → Bool
  | .writeBatch _ _ _ => true
  | _ => false

/-- The event is the writer section of a flush. -/
def isWriterSection (s : System) : Event → Bool
  | .run v _ => (s.threads v).writing
  | _ => false

/-- Some thread has won the exchange and not stored the writer yet. -/
def Opening (s : System) : Prop := ∃ v, (s.threads v).opening = true

/-- **No flush reaches its writer section while the writer is being made.** -/
def FlushesAfterOpening : System → List Event → Prop
  | _, [] => True
  | s, e :: es => (isWriterSection s e = true → ¬ Opening s)
      ∧ ∀ s' out, step s e = some (s', out) → FlushesAfterOpening s' es

/-! ## §3. Accounting. -/

/-- A flush is never of an empty batch. -/
def Thread.Loaded : Thread → Prop
  | .addFlushed edges _ _ => edges ≠ []
  | .writeBatch edges _ _ => edges ≠ []
  | _ => True

/-- Where the drained batches are. -/
structure Accounted (s : System) (out : List Action) : Prop where
  drained : (drainedOf out).Perm ((loggedOf out ++ lostOf out) ++ s.unwritten)
  added : ∀ t, (s.machine.plugin.flushedBranchEntries.lookup t).getD 0
      + sumAt t (s.unadded.map intoTarget) = sumAt t ((drainedOf out).map intoTarget)
  loaded : ∀ v, (s.threads v).Loaded

theorem Thread.unadded_of_calm {th : Thread} (h : th.calm = true) : th.unadded = [] := by
  cases th with
  | addFlushed edges toAddr rest => exact absurd h (by simp [Thread.calm])
  | _ => rfl

theorem Thread.unwritten_of_calm {th : Thread} (h : th.calm = true) : th.unwritten = [] := by
  cases th with
  | addFlushed edges toAddr rest => exact absurd h (by simp [Thread.calm])
  | writeBatch edges toAddr rest => exact absurd h (by simp [Thread.calm])
  | _ => rfl

/-- `addFlushed` adds every count to the entry of its target. -/
theorem lookup_addFlushed (s : PluginState) (edges : List Triple) (t : UInt64) :
    ((s.addFlushed edges).flushedBranchEntries.lookup t).getD 0
      = (s.flushedBranchEntries.lookup t).getD 0 + sumAt t (edges.map intoTarget) := by
  have hfold := HashMap.sumWhere_items_foldl_bump (fun a => decide (a = t))
    (edges.map intoTarget) s.flushedBranchEntries
  rw [List.foldl_map] at hfold
  rw [← HashMap.sumAt_items, ← HashMap.sumAt_items]
  exact hfold

section Sections

variable {env : Env} {v : Nat} {m m' : Machine} {th th' : Thread} {acts : List Action}

/-- **A section keeps the balance of its thread**: what it drains or had
drained is logged, lost, or still in its hands. -/
theorem Effect.batches (h : Effect env v m th m' th' acts) :
    drainedOf acts ++ th.unwritten = (loggedOf acts ++ lostOf acts) ++ th'.unwritten := by
  cases h with
  | quiet _ hth hth' _ _ =>
      rw [Thread.unwritten_of_calm hth, Thread.unwritten_of_calm hth']
      rfl
  | drain accs _ _ => simp [drainedOf, loggedOf, lostOf, Thread.unwritten]
  | writeBatch edges toAddr rest =>
      cases m.plugin.writer with
      | none => simp [drainedOf, loggedOf, lostOf, Thread.unwritten]
      | some w => simp [drainedOf, loggedOf, lostOf, Thread.unwritten]
  | _ => rfl

/-- The counts that reach `flushed_branch_entries`. -/
theorem Effect.flushed (h : Effect env v m th m' th' acts) (t : UInt64) :
    (m'.plugin.flushedBranchEntries.lookup t).getD 0 + sumAt t (th'.unadded.map intoTarget)
      = (m.plugin.flushedBranchEntries.lookup t).getD 0 + sumAt t (th.unadded.map intoTarget)
        + sumAt t ((drainedOf acts).map intoTarget) := by
  cases h with
  | quiet hm hth hth' _ _ =>
      rw [Thread.unadded_of_calm hth, Thread.unadded_of_calm hth', hm.flushedBranchEntries]
      simp [drainedOf]
  | storeWriter tb =>
      obtain ⟨writer, heq⟩ := openWriter_frame m.host m.plugin
      rw [heq]
      simp [drainedOf, Thread.unadded, Machine.withPlugin]
  | mapTb _ ht _ =>
      rw [ht.same.flushedBranchEntries]
      simp [drainedOf, Thread.unadded]
  | laterTiers tr =>
      rw [(laterTiers_spec m.plugin tr.tb).1.flushedBranchEntries]
      simp [drainedOf, Thread.unadded]
  | addFlushed edges toAddr rest =>
      show ((m.plugin.addFlushed edges).flushedBranchEntries.lookup t).getD 0 + _ = _
      rw [lookup_addFlushed]
      simp [drainedOf, Thread.unadded]
  | drain accs _ _ => simp [drainedOf, Thread.unadded, Machine.withPlugin]
  | writeBatch edges toAddr rest =>
      cases m.plugin.writer with
      | none => simp [drainedOf, Thread.unadded, Machine.withPlugin, PluginState.writeBatch]
      | some w => simp [drainedOf, Thread.unadded, Machine.withPlugin, PluginState.writeBatch]
  | claimWriter tb _ => simp [drainedOf, Thread.unadded, Machine.withPlugin]
  | takeNumber key _ =>
      simp [drainedOf, Thread.unadded, Machine.withPlugin, PluginState.takeNumber]
  | storeNumber key seq rest =>
      simp [drainedOf, Thread.unadded, Machine.withPlugin, PluginState.storeNumber]

theorem Effect.loaded (h : Effect env v m th m' th' acts) (hth : th.Loaded) : th'.Loaded := by
  cases h with
  | quiet _ _ hcalm _ _ =>
      cases th' with
      | addFlushed edges toAddr rest => exact absurd hcalm (by simp [Thread.calm])
      | writeBatch edges toAddr rest => exact absurd hcalm (by simp [Thread.calm])
      | _ => trivial
  | drain accs _ hne => exact hne
  | addFlushed edges toAddr rest => exact hth
  | _ => trivial

end Sections

/-- The balance of one party on top of that of the others. -/
theorem perm_balance {D d L l X x U U' a b : List Triple} (h : D.Perm ((L ++ X) ++ U))
    (hlocal : d ++ a = (l ++ x) ++ b) (hglobal : (U' ++ a).Perm (U ++ b)) :
    (D ++ d).Perm (((L ++ l) ++ (X ++ x)) ++ U') := by
  have hlocal' : ((d ++ a : List Triple) : Multiset Triple) = ((l ++ x) ++ b : List Triple) := by
    rw [hlocal]
  rw [← Multiset.coe_eq_coe] at h hglobal ⊢
  simp only [← Multiset.coe_add] at h hglobal hlocal' ⊢
  apply add_right_cancel (b := (a : Multiset Triple))
  calc (D : Multiset Triple) + d + a
      = (L + X + U) + (l + x + b) := by rw [h, add_assoc, hlocal']
    _ = (L + l + (X + x)) + (U + b) := by abel
    _ = (L + l + (X + x)) + U' + a := by
      rw [← hglobal]
      abel

theorem sum_balance {f f' u u' a b d : UInt64} (hlocal : f' + b = f + a + d)
    (hglobal : u' + a = u + b) : f' + u' = f + u + d := by
  apply add_right_cancel (b := a + b)
  calc f' + u' + (a + b)
      = (f' + b) + (u' + a) := by abel
    _ = (f + a + d) + (u + b) := by rw [hlocal, hglobal]
    _ = f + u + d + (a + b) := by abel

section Steps

variable {s : System} {out : List Action} {v : Nat}

/-- The batches in flight when one thread changes its own. -/
theorem unadded_update {m' : Machine} {th' : Thread} (hv : v < s.machine.numVcpus)
    (hn : m'.numVcpus = s.machine.numVcpus) (t : UInt64) :
    sumAt t ((System.unadded ⟨m', Function.update s.threads v th'⟩).map intoTarget)
        + sumAt t ((s.threads v).unadded.map intoTarget)
      = sumAt t (s.unadded.map intoTarget) + sumAt t (th'.unadded.map intoTarget) := by
  have hperm := (flatMap_range_update Thread.unadded s.threads hv th').map intoTarget
  have hsum := sumWhere_perm (fun a => decide (a = t)) hperm
  rw [List.map_append, List.map_append, sumWhere_append, sumWhere_append] at hsum
  unfold System.unadded
  dsimp only
  rw [hn]
  exact hsum

theorem unwritten_update {m' : Machine} {th' : Thread} (hv : v < s.machine.numVcpus)
    (hn : m'.numVcpus = s.machine.numVcpus) :
    (System.unwritten ⟨m', Function.update s.threads v th'⟩ ++ (s.threads v).unwritten).Perm
      (s.unwritten ++ th'.unwritten) := by
  unfold System.unwritten
  dsimp only
  rw [hn]
  exact flatMap_range_update Thread.unwritten s.threads hv th'

/-- A step of one thread that keeps its own balance. -/
theorem Accounted.update (h : Accounted s out) {m' : Machine} {th' : Thread} {acts : List Action}
    (hv : v < s.machine.numVcpus) (hn : m'.numVcpus = s.machine.numVcpus)
    (hlocal : drainedOf acts ++ (s.threads v).unwritten
      = (loggedOf acts ++ lostOf acts) ++ th'.unwritten)
    (hadded : ∀ t, (m'.plugin.flushedBranchEntries.lookup t).getD 0
        + sumAt t (th'.unadded.map intoTarget)
      = (s.machine.plugin.flushedBranchEntries.lookup t).getD 0
        + sumAt t ((s.threads v).unadded.map intoTarget)
        + sumAt t ((drainedOf acts).map intoTarget))
    (hloaded : th'.Loaded) : Accounted ⟨m', Function.update s.threads v th'⟩ (out ++ acts) := by
  constructor
  · -- the thread's own balance on top of that of the others
    have hglobal : (System.unwritten ⟨m', Function.update s.threads v th'⟩
        ++ (s.threads v).unwritten).Perm (s.unwritten ++ th'.unwritten) := unwritten_update hv hn
    rw [drainedOf_append, loggedOf_append, lostOf_append]
    exact perm_balance h.drained hlocal hglobal
  · intro t
    show (m'.plugin.flushedBranchEntries.lookup t).getD 0 + _ = _
    have hglobal : sumAt t ((System.unadded ⟨m', Function.update s.threads v th'⟩).map intoTarget)
        + sumAt t ((s.threads v).unadded.map intoTarget)
        = sumAt t (s.unadded.map intoTarget) + sumAt t (th'.unadded.map intoTarget) :=
      unadded_update hv hn t
    rw [drainedOf_append, List.map_append, sumAt_append, ← h.added t]
    exact sum_balance (hadded t) hglobal
  · intro u
    by_cases huv : u = v
    · show (Function.update s.threads v th' u).Loaded
      rw [huv, Function.update_self]
      exact hloaded
    · show (Function.update s.threads v th' u).Loaded
      rw [Function.update_of_ne huv]
      exact h.loaded u

end Steps

/-! ## §4. Runs. -/

section Runs

variable {config : PluginConfig} {tier3 sysemu : Bool} {arch : String} {host : HostInfo}
  {evs : List Event} {s : System} {out : List Action}

/-- **Every drained batch is somewhere.** -/
theorem accounted_run
    (h : runFrom (System.init config tier3 sysemu arch host) evs = some (s, out)) :
    Accounted s out := by
  refine runFrom_induction Accounted ?_ ?_ ?_ ?_ ?_ h
  · exact ⟨List.Perm.nil, fun _ => rfl, fun _ => trivial⟩
  · -- a new thread has no batch
    intro s out v plugin hinv ha hp
    obtain ⟨i, j, heq, _⟩ := ensureVcpuState_eq hp
    have hadd : System.unadded ⟨{ s.machine with
        plugin := plugin, numVcpus := max s.machine.numVcpus (v + 1) }, s.threads⟩ = s.unadded :=
      flatMap_range_extend (le_max_left ..) fun u hu => by rw [hinv.threads u hu]; rfl
    have hwrite : System.unwritten ⟨{ s.machine with
        plugin := plugin, numVcpus := max s.machine.numVcpus (v + 1) }, s.threads⟩
        = s.unwritten :=
      flatMap_range_extend (le_max_left ..) fun u hu => by rw [hinv.threads u hu]; rfl
    refine ⟨?_, ?_, ha.loaded⟩
    · rw [hwrite]
      exact ha.drained
    · intro t
      rw [hadd, heq]
      exact ha.added t
  · intro s out ha
    exact ⟨ha.drained, ha.added, ha.loaded⟩
  · intro s out v tr rest _ ha _ hv hidle
    refine ha.update hv rfl ?_ ?_ trivial
    · rw [hidle]
      rfl
    · intro t
      rw [hidle]
      simp [drainedOf, Thread.unadded]
  · intro s out env v m' th' acts _ ha hv heff
    exact ha.update hv heff.frame.1 heff.batches heff.flushed (heff.loaded (ha.loaded v))

/-- In a writer section there is no writer iff it is still being made. -/
theorem writer_none_iff
    (h : runFrom (System.init config tier3 sysemu arch host) evs = some (s, out))
    (hopen : s.machine.host.outputOpens = true) {v : Nat} (hpast : (s.threads v).pastFlag = true) :
    s.machine.plugin.writer = none ↔ Opening s := by
  have hw := runFrom_writerInv h
  constructor
  · intro hnone
    exact hw.claimed ((runFrom_flagged h).threads v hpast) hopen hnone
  · intro hopening
    obtain ⟨u, hu⟩ := hopening
    cases hwriter : s.machine.plugin.writer with
    | none => rfl
    | some w =>
        rw [(hw.opened w hwriter).2 u] at hu
        exact absurd hu (by simp)

theorem Effect.lost_eq_nil {env : Env} {v : Nat} {m m' : Machine} {th th' : Thread}
    {acts : List Action} (h : Effect env v m th m' th' acts)
    (hth : ∀ edges toAddr rest, th ≠ .writeBatch edges toAddr rest) : lostOf acts = [] := by
  cases h with
  | writeBatch edges toAddr rest => exact absurd rfl (hth edges toAddr rest)
  | _ => rfl

theorem Effect.writeBatch_acts {env : Env} {v : Nat} {m m' : Machine} {th' : Thread}
    {acts : List Action} {edges : List Triple} {toAddr : UInt64} {rest : List TbOp}
    (h : Effect env v m (.writeBatch edges toAddr rest) m' th' acts) :
    acts = [if m.plugin.writer.isSome then .logged edges else .lost edges] := by
  cases h with
  | quiet _ hcalm _ _ _ => exact absurd hcalm (by simp [Thread.calm])
  | writeBatch => rfl

/-- The emulator's answers do not change. -/
theorem host_run
    (h : runFrom (System.init config tier3 sysemu arch host) evs = some (s, out)) :
    s.machine.host = host :=
  runFrom_induction (fun s _ => s.machine.host = host) rfl (fun _ _ _ _ _ hp _ => hp)
    (fun _ _ hp => hp) (fun _ _ _ _ _ _ hp _ _ _ => hp)
    (fun _ _ _ _ _ _ _ _ hp _ heff => heff.frame.2.1.trans hp) h

/-- **One step**: a batch is lost in a writer section during the opening of
the log, and nowhere else. -/
theorem lost_step
    (h : runFrom (System.init config tier3 sysemu arch host) evs = some (s, out))
    (hopen : s.machine.host.outputOpens = true) {e : Event} {s' : System} {acts : List Action}
    (hstep : step s e = some (s', acts)) :
    (isWriterSection s e = true → ¬ Opening s) ↔ lostOf acts = [] := by
  have hinv := runFrom_inv h
  rcases step_cases hinv hstep with ⟨v, plugin, rfl, _, _, rfl⟩ | ⟨rfl, _, rfl⟩
    | ⟨v, _, _, _, tr, rest, rfl, _, _, _, _, _, rfl⟩ | ⟨env, v, m', th', he, _, heff, _⟩
  · simp [isWriterSection, lostOf]
  · simp [isWriterSection, lostOf]
  · simp [isWriterSection, lostOf]
  · generalize hth : s.threads v = th at heff he
    -- the batch is not empty, so it is lost exactly when there is no writer
    by_cases hbatch : ∃ edges toAddr rest, th = .writeBatch edges toAddr rest
    · obtain ⟨edges, toAddr, rest, rfl⟩ := hbatch
      have hrun : e = .run v env := by
        rcases he with hrun | ⟨_, hidle⟩
        · exact hrun
        · exact absurd hidle (by simp)
      have hsection : isWriterSection s e = true := by
        rw [hrun]
        show (s.threads v).writing = true
        rw [hth]
        rfl
      have hne : edges ≠ [] := by
        have hloaded := (accounted_run h).loaded v
        rw [hth] at hloaded
        exact hloaded
      have hnone := writer_none_iff h hopen (v := v) (by rw [hth]; rfl)
      rw [heff.writeBatch_acts, ← hnone]
      cases hw : s.machine.plugin.writer with
      | none => simp [hsection, lostOf, hne]
      | some w => simp [lostOf]
    · have hnil := heff.lost_eq_nil fun edges toAddr rest heq => hbatch ⟨edges, toAddr, rest, heq⟩
      have hsection : isWriterSection s e = false := by
        rcases he with rfl | ⟨⟨tb, rfl⟩, _⟩
        · show (s.threads v).writing = false
          rw [hth]
          cases th with
          | writeBatch edges toAddr rest => exact absurd ⟨edges, toAddr, rest, rfl⟩ hbatch
          | _ => rfl
        · rfl
      rw [hsection, hnil]
      simp

/-- **A run loses nothing iff its flushes come after the opening.** -/
theorem flushesAfterOpening_iff (hopen : host.outputOpens = true) (es : List Event) :
    ∀ (s₀ s : System) (out : List Action),
      (∃ evs out₀, runFrom (System.init config tier3 sysemu arch host) evs = some (s₀, out₀)) →
      runFrom s₀ es = some (s, out) → (FlushesAfterOpening s₀ es ↔ lostOf out = []) := by
  induction es with
  | nil =>
      intro s₀ s out _ h
      simp only [runFrom, runSteps, Option.some.injEq, Prod.mk.injEq] at h
      rw [← h.2]
      exact ⟨fun _ => rfl, fun _ => trivial⟩
  | cons e es ih =>
      intro s₀ s out hreach h
      obtain ⟨evs, out₀, hreach⟩ := hreach
      obtain ⟨s₁, out₁, out₂, hs, hr, rfl⟩ := runSteps_cons_eq_some h
      have hreach₁ := runSteps_concat step e evs _ _ _ hreach hs
      have hrest := ih s₁ s out₂ ⟨_, _, hreach₁⟩ hr
      have hfirst := lost_step hreach (host_run hreach ▸ hopen) hs
      rw [lostOf_append, List.append_eq_nil_iff, ← hfirst, ← hrest]
      constructor
      · intro hcalm
        exact ⟨hcalm.1, hcalm.2 s₁ out₁ hs⟩
      · intro hcalm
        refine ⟨hcalm.1, ?_⟩
        intro s' out' hs'
        rw [hs, Option.some.injEq, Prod.mk.injEq] at hs'
        rw [← hs'.1]
        exact hcalm.2

/-! ## §5. The theorem. -/

/-- The log holds the batches of the writer sections. -/
theorem loggedEdges_run
    (h : runFrom (System.init config tier3 sysemu arch host) evs = some (s, out)) :
    loggedEdges s.machine.plugin = (loggedOf out).map edgeOf := by
  have hw := runFrom_writerInv h
  unfold loggedEdges
  cases hwriter : s.machine.plugin.writer with
  | none =>
      rw [hw.unopened hwriter]
      rfl
  | some w =>
      rw [Option.map_some, Option.getD_some, (hw.opened w hwriter).1.batchEdges_eq,
          map_toTriple_ofTriple]

theorem sumAt_loggedEdges
    (h : runFrom (System.init config tier3 sysemu arch host) evs = some (s, out)) (t : UInt64) :
    sumAt t ((loggedEdges s.machine.plugin).map fun e => (e.toAddr, e.count))
      = sumAt t ((loggedOf out).map intoTarget) := by
  rw [loggedEdges_run h, List.map_map]
  rfl

/-- **NO FLUSHED EDGE IS LOST, iff no flush reaches its writer section between
the exchange and the store of the writer.** -/
theorem flushed_logged_iff
    (h : runFrom (System.init config tier3 sysemu arch host) evs = some (s, out))
    (hopen : host.outputOpens = true) :
    AllLogged s out ↔ FlushesAfterOpening (System.init config tier3 sysemu arch host) evs := by
  have ha := accounted_run h
  rw [flushesAfterOpening_iff hopen evs _ s out ⟨[], [], rfl⟩ h]
  constructor
  · intro hall
    -- the lost entries are missing in the log
    have hlen := hall.once.length_eq
    have hlen' := ha.drained.length_eq
    rw [loggedEdges_run h, List.length_map, List.length_append, List.length_map,
        List.length_map] at hlen
    rw [List.length_append, List.length_append] at hlen'
    exact List.eq_nil_of_length_eq_zero (by omega)
  · intro hlost
    have hdrained := ha.drained
    rw [hlost, List.append_nil] at hdrained
    constructor
    · rw [loggedEdges_run h, ← List.map_append]
      exact hdrained.map edgeOf
    · intro t
      rw [ha.added t, sumAt_loggedEdges h, ← sumAt_append, ← List.map_append]
      exact sumWhere_perm _ (hdrained.map intoTarget)

end Runs

/-- Thread 0 wins the exchange.  With `opened`, it stores the writer; then
thread 1, after its own translations, branches from one block to the other. -/
def lateWriterEvents (opened : Bool) : List Event :=
  [.vcpuInit 0, .vcpuInit 1, .translate 0 (nopBlock 0x70 0)] ++ sections 0 2
    ++ (if opened then sections 0 1 else [])
    ++ [.translate 1 (nopBlock 0x40 0)] ++ sections 1 4
    ++ [.translate 1 (nopBlock 0x10 0)] ++ sections 1 4
    ++ [.exec 1 0 1 ⟨[], 0⟩] ++ sections 1 6 ++ [.exec 1 1 1 ⟨[], 0⟩] ++ sections 1 9
    ++ sections 0 4

/-- A batch is flushed when the exchange is won and the writer not stored: it
is counted, but not in the log, and no thread has it any more. -/
theorem flush_before_writer :
    (runFrom (installed 1 1 true) (lateWriterEvents false)).isSome = true
      ∧ drainedOf (outcome (installed 1 1 true) (lateWriterEvents false)).2 = [(0x40, 0x10, 1)]
      ∧ (outcome (installed 1 1 true) (lateWriterEvents false)).1.unwritten = []
      ∧ (outcome (installed 1 1 true) (lateWriterEvents false)).1.machine.plugin.writer.isSome
          = true
      ∧ loggedEdges (outcome (installed 1 1 true) (lateWriterEvents false)).1.machine.plugin = []
      ∧ (outcome (installed 1 1 true)
          (lateWriterEvents false)).1.machine.plugin.flushedBranchEntries.lookup 0x10 = some 1 := by
  have hrun : (runFrom (installed 1 1 true) (lateWriterEvents false)).isSome = true := by decide
  have hlog : loggedEdges (outcome (installed 1 1 true) (lateWriterEvents false)).1.machine.plugin
      = (loggedOf (outcome (installed 1 1 true) (lateWriterEvents false)).2).map edgeOf :=
    loggedEdges_run (runFrom_outcome _ _ hrun)
  refine ⟨hrun, by decide, by decide, by decide, ?_, by decide⟩
  rw [hlog]
  decide

theorem flushed_logged_opened :
    drainedOf (outcome (installed 1 1 true) (lateWriterEvents true)).2 = [(0x40, 0x10, 1)]
      ∧ AllLogged (outcome (installed 1 1 true) (lateWriterEvents true)).1
          (outcome (installed 1 1 true) (lateWriterEvents true)).2 := by
  have hrun := runFrom_outcome (installed 1 1 true) (lateWriterEvents true) (by decide)
  refine ⟨by decide, (flushed_logged_iff hrun rfl).mpr ?_⟩
  exact (flushesAfterOpening_iff rfl _ _ _ _ ⟨[], [], rfl⟩ hrun).mpr (by decide)

end QemuProfiler.Threads

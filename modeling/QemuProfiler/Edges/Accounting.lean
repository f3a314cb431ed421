/-
  QemuProfiler.Edges.Accounting
  ─────────────────────────────
  **NO BRANCH COUNT APPEARS FROM NOWHERE, NONE DISAPPEARS UNSEEN.**

  Over any sequence of `record_edge` calls, in either storage mode:

      stored + flushed + dropped = stored before + number of calls

  for every set of edges (`accounting`).  `flushedIn` is what went to the
  log, `droppedIn` is what the prunes of the bounded table threw away; the
  same decomposition holds for the keys (`mem_accounting`).
-/
import QemuProfiler.Plugin.Exit
import QemuProfiler.Plugin.OutputSpec

namespace QemuProfiler.Edges

open QemuProfiler.Lib QemuProfiler.Plugin

/-! ## §1. Runs of `record_edge`. -/

/-- One call of `record_edge`. -/
structure EdgeEvent where
  env : Env
  vcpu : Nat
  edge : Edge
  deriving DecidableEq, Repr

/-- The state after the call. -/
def step (s : PluginState) (ev : EdgeEvent) : PluginState :=
  s.recordEdge ev.env ev.vcpu ev.edge.fromAddr ev.edge.toAddr

/-- The state after a sequence of calls. -/
def run (s : PluginState) (evs : List EdgeEvent) : PluginState := evs.foldl step s

/-- The accumulator with the call's edge recorded. -/
def recorded (acc : EdgeAccumulator) (ev : EdgeEvent) : EdgeAccumulator :=
  acc.record ev.env.iter ev.edge.fromAddr ev.edge.toAddr

/-- Does the call flush? -/
def flushes (s : PluginState) (acc : EdgeAccumulator) (ev : EdgeEvent) : Bool :=
  s.config.streaming && (recorded acc ev).shouldFlush s.config.topN

/-- The accumulator after the call. -/
def accAfter (s : PluginState) (acc : EdgeAccumulator) (ev : EdgeEvent) : EdgeAccumulator :=
  if flushes s acc ev then ((recorded acc ev).drain ev.env.iter).2 else recorded acc ev

/-- The edges the call flushes. -/
def flushedOf (s : PluginState) (ev : EdgeEvent) : List (Edge × UInt64) :=
  match s.edgeAccumulators[ev.vcpu]? with
  | none => []
  | some acc => if flushes s acc ev then (recorded acc ev).edges.iter ev.env.iter else []

/-- The writer calls of the flush. -/
def flushCallsOf (s : PluginState) (ev : EdgeEvent) : List WriteCall :=
  match s.edgeAccumulators[ev.vcpu]? with
  | none => []
  | some acc =>
      if flushes s acc ev then
        [.branchEdgeBatch ((flushedOf s ev).map toTriple),
          .flushMarker ev.env.elapsed (UInt32.ofNat ev.vcpu)
            (UInt32.ofNat ((flushedOf s ev).map toTriple).length)]
      else []

/-- The entries the call's prune throws away. -/
def droppedOf (s : PluginState) (ev : EdgeEvent) : List (Edge × UInt64) :=
  match s.edgeAccumulators[ev.vcpu]? with
  | none => []
  | some acc => acc.dropped ev.env.iter ev.edge.fromAddr ev.edge.toAddr

/-- Collect a per-call list over a run. -/
def collect {α : Type} (f : PluginState → EdgeEvent → List α) :
    PluginState → List EdgeEvent → List α
  | _, [] => []
  | s, ev :: evs => f s ev ++ collect f (step s ev) evs

/-- All flushed edges of a run, in order. -/
def flushedIn : PluginState → List EdgeEvent → List (Edge × UInt64) := collect flushedOf

/-- All writer calls of a run, in order. -/
def flushCallsIn : PluginState → List EdgeEvent → List WriteCall := collect flushCallsOf

/-- All dropped entries of a run, in order. -/
def droppedIn : PluginState → List EdgeEvent → List (Edge × UInt64) := collect droppedOf

/-- All stored entries, vCPU by vCPU. -/
def storedItems (s : PluginState) : List (Edge × UInt64) :=
  s.edgeAccumulators.flatMap fun acc => acc.edges.items

/-! ## §2. One call. -/

theorem perform_eq (w : ProfileWriter) (c : WriteCall) : w.perform c = c.next w := by
  unfold ProfileWriter.perform
  rw [run_eq]

/-- A vCPU without slot records nothing. -/
theorem step_none {s : PluginState} {ev : EdgeEvent}
    (h : s.edgeAccumulators[ev.vcpu]? = none) : step s ev = s := by
  unfold step PluginState.recordEdge
  rw [h]

/-- **The call, as one equation**: the slot, the flushed counts and the log
change, nothing else does. -/
theorem step_some {s : PluginState} {ev : EdgeEvent} {acc : EdgeAccumulator}
    (h : s.edgeAccumulators[ev.vcpu]? = some acc) :
    step s ev = { s with
      edgeAccumulators := s.edgeAccumulators.set ev.vcpu (accAfter s acc ev)
      flushedBranchEntries :=
        (flushedOf s ev).foldl (fun m e => m.bump e.1.toAddr e.2) s.flushedBranchEntries
      writer := s.writer.map fun w => callsNext w (flushCallsOf s ev) } := by
  have hdrain := (recorded acc ev).drain_eq ev.env.iter
  unfold step PluginState.recordEdge
  rw [h]
  show (if flushes s acc ev = true then
      PluginState.flushEdges ev.env
        { s with edgeAccumulators :=
            s.edgeAccumulators.set ev.vcpu ((recorded acc ev).drain ev.env.iter).2 }
        ev.vcpu ((recorded acc ev).drain ev.env.iter).1
    else { s with
      edgeAccumulators := s.edgeAccumulators.set ev.vcpu (recorded acc ev) }) = _
  by_cases hflush : flushes s acc ev = true
  · -- the threshold is reached
    have hf : flushedOf s ev = (recorded acc ev).edges.iter ev.env.iter := by
      unfold flushedOf
      rw [h]
      exact if_pos hflush
    have hc : flushCallsOf s ev = [.branchEdgeBatch ((flushedOf s ev).map toTriple),
        .flushMarker ev.env.elapsed (UInt32.ofNat ev.vcpu)
          (UInt32.ofNat ((flushedOf s ev).map toTriple).length)] := by
      unfold flushCallsOf
      rw [h]
      exact if_pos hflush
    have ha : accAfter s acc ev = ((recorded acc ev).drain ev.env.iter).2 := if_pos hflush
    rw [if_pos hflush, hc, hf, ha, hdrain.1]
    unfold PluginState.flushEdges
    simp only [perform_eq, List.foldl_map]
    rfl
  · -- the edge just stays in the slot
    have hf : flushedOf s ev = [] := by
      unfold flushedOf
      rw [h]
      exact if_neg hflush
    have hc : flushCallsOf s ev = [] := by
      unfold flushCallsOf
      rw [h]
      exact if_neg hflush
    have ha : accAfter s acc ev = recorded acc ev := if_neg hflush
    rw [if_neg hflush, hc, hf, ha]
    have hw : (s.writer.map fun w => callsNext w []) = s.writer := by
      cases s.writer <;> rfl
    rw [hw]
    rfl

/-- What every slot satisfies, the slot of the call has to keep. -/
theorem forall_acc_step {s : PluginState} {ev : EdgeEvent} {P : EdgeAccumulator → Prop}
    (h : ∀ acc ∈ s.edgeAccumulators, P acc)
    (hkeep : ∀ acc ∈ s.edgeAccumulators, P acc → P (accAfter s acc ev)) :
    ∀ acc ∈ (step s ev).edgeAccumulators, P acc := by
  cases hget : s.edgeAccumulators[ev.vcpu]? with
  | none =>
      rw [step_none hget]
      exact h
  | some acc =>
      have hacc := List.mem_of_getElem? hget
      rw [step_some hget]
      intro acc' hacc'
      rcases List.mem_or_eq_of_mem_set hacc' with hold | hnew
      · exact h acc' hold
      · rw [hnew]
        exact hkeep acc hacc (h acc hacc)

/-- **The frame of a call**: slots, flushed counts and log may change, the
number of slots may not. -/
theorem step_frame (s : PluginState) (ev : EdgeEvent) :
    ∃ accs flushed writer,
      step s ev = { s with
        edgeAccumulators := accs, flushedBranchEntries := flushed, writer := writer }
        ∧ accs.length = s.edgeAccumulators.length := by
  cases h : s.edgeAccumulators[ev.vcpu]? with
  | none => exact ⟨s.edgeAccumulators, s.flushedBranchEntries, s.writer, step_none h, rfl⟩
  | some acc => exact ⟨_, _, _, step_some h, List.length_set⟩

theorem length_step (s : PluginState) (ev : EdgeEvent) :
    (step s ev).edgeAccumulators.length = s.edgeAccumulators.length := by
  obtain ⟨accs, flushed, writer, h, hlen⟩ := step_frame s ev
  rw [h]
  exact hlen

theorem config_step (s : PluginState) (ev : EdgeEvent) : (step s ev).config = s.config := by
  obtain ⟨accs, flushed, writer, h, _⟩ := step_frame s ev
  rw [h]

/-- The bumped entries are split between the slot, the flush and the prune. -/
theorem accAfter_perm {s : PluginState} {ev : EdgeEvent} {acc : EdgeAccumulator}
    (h : s.edgeAccumulators[ev.vcpu]? = some acc) :
    ((accAfter s acc ev).edges.items ++ flushedOf s ev ++ droppedOf s ev).Perm
      (HashMap.items (acc.edges.bump ev.edge 1)) := by
  have hrec := acc.record_perm ev.env.iter ev.edge.fromAddr ev.edge.toAddr
  have hd : droppedOf s ev = acc.dropped ev.env.iter ev.edge.fromAddr ev.edge.toAddr := by
    unfold droppedOf
    rw [h]
  unfold accAfter flushedOf
  rw [h, hd]
  dsimp only
  by_cases hflush : flushes s acc ev = true
  · rw [if_pos hflush, if_pos hflush, (EdgeAccumulator.drain_eq ev.env.iter _).2,
        HashMap.items_empty, List.nil_append]
    exact ((shuffle_perm ev.env.iter _).append_right _).trans hrec
  · rw [if_neg hflush, if_neg hflush, List.append_nil]
    exact hrec

/-- Only the slot of the calling vCPU changes. -/
theorem storedItems_step {s : PluginState} {ev : EdgeEvent} {acc : EdgeAccumulator}
    (h : s.edgeAccumulators[ev.vcpu]? = some acc) :
    ∃ before after,
      storedItems s = before ++ (acc.edges.items ++ after)
        ∧ storedItems (step s ev) = before ++ ((accAfter s acc ev).edges.items ++ after) := by
  obtain ⟨hlt, hget⟩ := List.getElem?_eq_some_iff.mp h
  refine ⟨(s.edgeAccumulators.take ev.vcpu).flatMap fun acc => acc.edges.items,
    (s.edgeAccumulators.drop (ev.vcpu + 1)).flatMap fun acc => acc.edges.items, ?_, ?_⟩
  · unfold storedItems
    conv_lhs => rw [← List.take_append_drop ev.vcpu s.edgeAccumulators,
      List.drop_eq_getElem_cons hlt, hget]
    rw [List.flatMap_append, List.flatMap_cons]
  · rw [step_some h]
    unfold storedItems
    dsimp only
    rw [List.set_eq_take_append_cons_drop, if_pos hlt, List.flatMap_append, List.flatMap_cons]

/-- **One call, counted**, over any set of edges. -/
theorem accounting_step (p : Edge → Bool) (s : PluginState) (ev : EdgeEvent)
    (hv : ev.vcpu < s.edgeAccumulators.length) :
    sumWhere p (storedItems (step s ev)) + sumWhere p (flushedOf s ev)
        + sumWhere p (droppedOf s ev)
      = sumWhere p (storedItems s) + (if p ev.edge then 1 else 0) := by
  obtain ⟨acc, h⟩ : ∃ acc, s.edgeAccumulators[ev.vcpu]? = some acc :=
    ⟨_, List.getElem?_eq_getElem hv⟩
  obtain ⟨before, after, hs, hs'⟩ := storedItems_step h
  have hsplit := sumWhere_perm p (accAfter_perm h)
  rw [sumWhere_append, sumWhere_append, HashMap.sumWhere_items_bump] at hsplit
  rw [hs, hs', sumWhere_append, sumWhere_append, sumWhere_append, sumWhere_append]
  calc sumWhere p before + (sumWhere p (accAfter s acc ev).edges.items + sumWhere p after)
          + sumWhere p (flushedOf s ev) + sumWhere p (droppedOf s ev)
      = sumWhere p before + sumWhere p after + (sumWhere p (accAfter s acc ev).edges.items
          + sumWhere p (flushedOf s ev) + sumWhere p (droppedOf s ev)) := by abel
    _ = sumWhere p before + (sumWhere p acc.edges.items + sumWhere p after)
          + (if p ev.edge then 1 else 0) := by rw [hsplit]; abel

/-- One call, as numbers: the counts wrap, so there is at most one more. -/
theorem natWhere_step_le (p : Edge → Bool) (s : PluginState) (ev : EdgeEvent) :
    natWhere p (storedItems (step s ev)) + natWhere p (flushedOf s ev)
      ≤ natWhere p (storedItems s) + (if p ev.edge then 1 else 0) := by
  cases h : s.edgeAccumulators[ev.vcpu]? with
  | none =>
      have hf : flushedOf s ev = [] := by
        unfold flushedOf
        rw [h]
      rw [step_none h, hf, natWhere_nil]
      omega
  | some acc =>
      obtain ⟨before, after, hs, hs'⟩ := storedItems_step h
      have hsplit := natWhere_perm p (accAfter_perm h)
      have hbump := HashMap.natWhere_items_bump_le p acc.edges ev.edge 1
      rw [UInt64.toNat_one] at hbump
      simp only [natWhere_append] at hsplit
      rw [hs, hs']
      simp only [natWhere_append]
      omega

/-- One call, by keys. -/
theorem mem_accounting_step (k : Edge) (s : PluginState) (ev : EdgeEvent)
    (hv : ev.vcpu < s.edgeAccumulators.length) :
    (k ∈ (storedItems (step s ev)).map Prod.fst ∨ k ∈ (flushedOf s ev).map Prod.fst
        ∨ k ∈ (droppedOf s ev).map Prod.fst)
      ↔ k ∈ (storedItems s).map Prod.fst ∨ k = ev.edge := by
  obtain ⟨acc, h⟩ : ∃ acc, s.edgeAccumulators[ev.vcpu]? = some acc :=
    ⟨_, List.getElem?_eq_getElem hv⟩
  obtain ⟨before, after, hs, hs'⟩ := storedItems_step h
  have hkeys := ((accAfter_perm h).map Prod.fst).mem_iff (a := k)
  rw [HashMap.keys_eq, ← AList.mem_keys] at hkeys
  unfold HashMap.bump at hkeys
  rw [AList.mem_insert, AList.mem_keys, ← HashMap.keys_eq] at hkeys
  simp only [List.map_append, List.mem_append] at hkeys
  rw [hs, hs']
  simp only [List.map_append, List.mem_append]
  tauto

/-! ## §3. Runs. -/

theorem run_cons (s : PluginState) (ev : EdgeEvent) (evs : List EdgeEvent) :
    run s (ev :: evs) = run (step s ev) evs := rfl

/-- The frame of a run. -/
theorem run_frame (evs : List EdgeEvent) :
    ∀ s : PluginState, ∃ accs flushed writer,
      run s evs = { s with
        edgeAccumulators := accs, flushedBranchEntries := flushed, writer := writer }
        ∧ accs.length = s.edgeAccumulators.length := by
  induction evs with
  | nil => intro s; exact ⟨s.edgeAccumulators, s.flushedBranchEntries, s.writer, rfl, rfl⟩
  | cons ev evs ih =>
      intro s
      obtain ⟨accs, flushed, writer, h, hlen⟩ := step_frame s ev
      obtain ⟨accs', flushed', writer', h', hlen'⟩ := ih (step s ev)
      refine ⟨accs', flushed', writer', ?_, hlen'.trans (length_step s ev)⟩
      rw [run_cons, h', h]

theorem config_run (evs : List EdgeEvent) (s : PluginState) :
    (run s evs).config = s.config := by
  obtain ⟨accs, flushed, writer, h, _⟩ := run_frame evs s
  rw [h]

theorem tbMap_run (evs : List EdgeEvent) (s : PluginState) : (run s evs).tbMap = s.tbMap := by
  obtain ⟨accs, flushed, writer, h, _⟩ := run_frame evs s
  rw [h]

/-- All calls are for vCPUs that have a slot. -/
def OnVcpus (s : PluginState) (evs : List EdgeEvent) : Prop :=
  ∀ ev ∈ evs, ev.vcpu < s.edgeAccumulators.length

theorem OnVcpus.tail {s : PluginState} {ev : EdgeEvent} {evs : List EdgeEvent}
    (h : OnVcpus s (ev :: evs)) : OnVcpus (step s ev) evs := by
  intro ev' hev'
  rw [length_step]
  exact h ev' (List.mem_cons_of_mem ev hev')

/-- **THE ACCOUNT OF A RUN**: stored + flushed + dropped = before + calls. -/
theorem accounting (p : Edge → Bool) (evs : List EdgeEvent) :
    ∀ s : PluginState, OnVcpus s evs →
      sumWhere p (storedItems (run s evs)) + sumWhere p (flushedIn s evs)
          + sumWhere p (droppedIn s evs)
        = sumWhere p (storedItems s) + UInt64.ofNat (evs.countP fun ev => p ev.edge) := by
  induction evs with
  | nil =>
      intro s _
      simp [run, flushedIn, droppedIn, collect]
  | cons ev evs ih =>
      intro s hv
      -- the account of the call, then the account of the rest from where it leads
      have hstep := accounting_step p s ev (hv ev (List.mem_cons_self ..))
      have hrun := ih (step s ev) hv.tail
      have hcount : UInt64.ofNat ((ev :: evs).countP fun ev => p ev.edge)
          = (if p ev.edge then 1 else 0) + UInt64.ofNat (evs.countP fun ev => p ev.edge) := by
        rw [List.countP_cons, UInt64.ofNat_add, UInt64.add_comm]
        by_cases hp : p ev.edge = true
        · simp [hp]
        · simp [hp]
      show sumWhere p (storedItems (run (step s ev) evs))
          + sumWhere p (flushedOf s ev ++ collect flushedOf (step s ev) evs)
          + sumWhere p (droppedOf s ev ++ collect droppedOf (step s ev) evs) = _
      rw [sumWhere_append, sumWhere_append, hcount]
      calc _ = sumWhere p (storedItems (run (step s ev) evs))
                + sumWhere p (flushedIn (step s ev) evs) + sumWhere p (droppedIn (step s ev) evs)
                + (sumWhere p (flushedOf s ev) + sumWhere p (droppedOf s ev)) := by
              unfold flushedIn droppedIn; abel
        _ = sumWhere p (storedItems (step s ev)) + sumWhere p (flushedOf s ev)
                + sumWhere p (droppedOf s ev)
                + UInt64.ofNat (evs.countP fun ev => p ev.edge) := by rw [hrun]; abel
        _ = _ := by rw [hstep]; abel

/-- Two accounts in a row: `stored`, `flushed` and `dropped` of the rest come
from what the first one stored and from the rest's own calls. -/
theorem or_account {stored stored' flushed flushed' dropped dropped' calls : Prop}
    (h : (stored' ∨ flushed' ∨ dropped') ↔ (stored ∨ calls)) :
    (stored' ∨ (flushed ∨ flushed') ∨ dropped ∨ dropped')
      ↔ ((stored ∨ flushed ∨ dropped) ∨ calls) := by
  constructor
  · intro hl
    rcases hl with hs | (hf | hf) | hd | hd
    · exact (h.mp (Or.inl hs)).imp_left Or.inl
    · exact Or.inl (Or.inr (Or.inl hf))
    · exact (h.mp (Or.inr (Or.inl hf))).imp_left Or.inl
    · exact Or.inl (Or.inr (Or.inr hd))
    · exact (h.mp (Or.inr (Or.inr hd))).imp_left Or.inl
  · intro hr
    rcases hr with (hs | hf | hd) | hc
    · rcases h.mpr (Or.inl hs) with hs | hf | hd
      · exact Or.inl hs
      · exact Or.inr (Or.inl (Or.inr hf))
      · exact Or.inr (Or.inr (Or.inr hd))
    · exact Or.inr (Or.inl (Or.inl hf))
    · exact Or.inr (Or.inr (Or.inl hd))
    · rcases h.mpr (Or.inr hc) with hs | hf | hd
      · exact Or.inl hs
      · exact Or.inr (Or.inl (Or.inr hf))
      · exact Or.inr (Or.inr (Or.inr hd))

/-- The account of a run, by keys. -/
theorem mem_accounting (k : Edge) (evs : List EdgeEvent) :
    ∀ s : PluginState, OnVcpus s evs →
      ((k ∈ (storedItems (run s evs)).map Prod.fst ∨ k ∈ (flushedIn s evs).map Prod.fst
          ∨ k ∈ (droppedIn s evs).map Prod.fst)
        ↔ k ∈ (storedItems s).map Prod.fst ∨ ∃ ev ∈ evs, k = ev.edge) := by
  induction evs with
  | nil =>
      intro s _
      simp [run, flushedIn, droppedIn, collect]
  | cons ev evs ih =>
      intro s hv
      have hstep := mem_accounting_step k s ev (hv ev (List.mem_cons_self ..))
      have hrun := ih (step s ev) hv.tail
      show (k ∈ (storedItems (run (step s ev) evs)).map Prod.fst
          ∨ k ∈ (flushedOf s ev ++ flushedIn (step s ev) evs).map Prod.fst
          ∨ k ∈ (droppedOf s ev ++ droppedIn (step s ev) evs).map Prod.fst) ↔ _
      -- the step's account, with the flushed and dropped keys of the rest around it
      rw [List.map_append, List.map_append, List.mem_append, List.mem_append,
          List.exists_mem_cons_iff]
      rw [← or_assoc (b := k = ev.edge), ← hstep]
      exact or_account hrun

/-- Without a slot nothing is flushed. -/
theorem flushed_none {s : PluginState} {ev : EdgeEvent}
    (h : s.edgeAccumulators[ev.vcpu]? = none) : flushedOf s ev = [] ∧ flushCallsOf s ev = [] := by
  unfold flushCallsOf flushedOf
  rw [h]
  exact ⟨rfl, rfl⟩

theorem writer_step (s : PluginState) (ev : EdgeEvent) :
    (step s ev).writer = s.writer.map fun w => callsNext w (flushCallsOf s ev) := by
  cases h : s.edgeAccumulators[ev.vcpu]? with
  | none =>
      rw [step_none h, (flushed_none h).2]
      cases s.writer <;> rfl
  | some acc => rw [step_some h]

/-- The log after a run. -/
theorem writer_run (evs : List EdgeEvent) :
    ∀ s : PluginState,
      (run s evs).writer = s.writer.map fun w => callsNext w (flushCallsIn s evs) := by
  induction evs with
  | nil =>
      intro s
      show s.writer = s.writer.map fun w => w
      cases s.writer <;> rfl
  | cons ev evs ih =>
      intro s
      rw [run_cons, ih, writer_step, show flushCallsIn s (ev :: evs)
        = flushCallsOf s ev ++ flushCallsIn (step s ev) evs from rfl]
      cases s.writer with
      | none => rfl
      | some w => simp only [Option.map_some, callsNext_append]

theorem flushedBranchEntries_step (t : UInt64) (s : PluginState) (ev : EdgeEvent) :
    sumAt t (step s ev).flushedBranchEntries.items
      = sumAt t s.flushedBranchEntries.items
        + sumWhere (fun e : Edge => decide (e.toAddr = t)) (flushedOf s ev) := by
  cases h : s.edgeAccumulators[ev.vcpu]? with
  | none => rw [step_none h, (flushed_none h).1, sumWhere_nil, add_zero]
  | some acc =>
      rw [step_some h]
      -- `flush_edges` adds every drained count to the entry of its target
      have hfold := HashMap.sumWhere_items_foldl_bump (fun a => decide (a = t))
        ((flushedOf s ev).map fun e => (e.1.toAddr, e.2)) s.flushedBranchEntries
      rw [List.foldl_map] at hfold
      unfold sumAt
      rw [hfold, sumWhere_map_fst]

/-- The flushed branch entries, by target. -/
theorem flushedBranchEntries_run (t : UInt64) (evs : List EdgeEvent) :
    ∀ s : PluginState,
      sumAt t (run s evs).flushedBranchEntries.items
        = sumAt t s.flushedBranchEntries.items
          + sumWhere (fun e : Edge => decide (e.toAddr = t)) (flushedIn s evs) := by
  induction evs with
  | nil =>
      intro s
      show sumAt t s.flushedBranchEntries.items = sumAt t s.flushedBranchEntries.items + 0
      rw [add_zero]
  | cons ev evs ih =>
      intro s
      show _ = _ + sumWhere _ (flushedOf s ev ++ flushedIn (step s ev) evs)
      rw [run_cons, ih, flushedBranchEntries_step, sumWhere_append, add_assoc]

end QemuProfiler.Edges

/-
  QemuProfiler.Edges.Pruning
  ──────────────────────────
  **WHAT PRUNING DOES TO THE FALL-THROUGHS.**

  Streaming keeps the entries it removes from the slots in
  `flushed_branch_entries`; the bounded table forgets them.  The exit handler
  then subtracts too little, and the forgotten branches come out as
  fall-throughs.  `bounded_eq_streaming_iff` says exactly when this happens.
-/
import Mathlib.Algebra.Order.BigOperators.Group.List
import QemuProfiler.Edges.Streaming

namespace QemuProfiler.Edges

open QemuProfiler.Lib QemuProfiler.Plugin

/-! ## §1. When two entry counts give the same fall-throughs. -/

/-- Truncated differences agree iff the subtrahends do or both exhaust. -/
theorem sub_eq_sub_iff (x a b : Nat) : x - a = x - b ↔ a = b ∨ (x ≤ a ∧ x ≤ b) := by
  omega

/-- **Lists agree iff the counts agree where they matter**: at the start of
every TB that has a predecessor, unless both counts exhaust its executions. -/
theorem fallThroughs_eq_iff (entries entries' : UInt64 → UInt64)
    (preds : HashMap UInt64 UInt64) (execSum : Nat → UInt64) (metas : List TbMeta) :
    metas.filterMap (fallThroughFrom entries preds execSum)
        = metas.filterMap (fallThroughFrom entries' preds execSum)
      ↔ ∀ tb ∈ metas, (preds.lookup tb.startAddr).isSome →
          entries tb.startAddr = entries' tb.startAddr
            ∨ (execSum tb.execCount ≤ entries tb.startAddr
                ∧ execSum tb.execCount ≤ entries' tb.startAddr) := by
  constructor
  · intro heq tb htb hpred
    -- the total into the TB's start is the same on both sides …
    have hinto := congrArg (countInto tb.startAddr) heq
    rw [countInto_fallThroughs, countInto_fallThroughs, if_pos hpred, if_pos hpred] at hinto
    have hmem : tb ∈ metas.filter fun tb' => tb'.startAddr = tb.startAddr := by
      simp [htb]
    -- … and all TBs there move the same way, so each of them agrees
    have hagree : (execSum tb.execCount).toNat - (entries tb.startAddr).toNat
        = (execSum tb.execCount).toNat - (entries' tb.startAddr).toNat := by
      rcases Nat.le_total (entries tb.startAddr).toNat (entries' tb.startAddr).toNat with h | h
      · by_contra hne
        have hlt := List.sum_lt_sum
          (fun tb' : TbMeta => (execSum tb'.execCount).toNat - (entries' tb.startAddr).toNat)
          (fun tb' : TbMeta => (execSum tb'.execCount).toNat - (entries tb.startAddr).toNat)
          (fun tb' _ => Nat.sub_le_sub_left h _) ⟨tb, hmem, by omega⟩
        omega
      · by_contra hne
        have hlt := List.sum_lt_sum
          (fun tb' : TbMeta => (execSum tb'.execCount).toNat - (entries tb.startAddr).toNat)
          (fun tb' : TbMeta => (execSum tb'.execCount).toNat - (entries' tb.startAddr).toNat)
          (fun tb' _ => Nat.sub_le_sub_left h _) ⟨tb, hmem, by omega⟩
        omega
    rcases (sub_eq_sub_iff _ _ _).mp hagree with h | h
    · exact Or.inl (UInt64.toNat_inj.mp h)
    · exact Or.inr ⟨UInt64.le_iff_toNat_le.mpr h.1, UInt64.le_iff_toNat_le.mpr h.2⟩
  · intro h
    apply List.filterMap_congr
    intro tb htb
    unfold fallThroughFrom
    rw [fallThroughEdge_eq, fallThroughEdge_eq]
    cases hp : preds.lookup tb.startAddr with
    | none => simp
    | some predEnd =>
        rcases h tb htb (by rw [hp]; rfl) with heq | ⟨hle, hle'⟩
        · rw [heq]
        · rw [if_pos hle, if_pos hle']

/-! ## §2. Bounded against streaming. -/

/-- What the run asks to record, without the environment it runs in. -/
def EdgeEvent.call (ev : EdgeEvent) : Nat × Edge := (ev.vcpu, ev.edge)

/-- Number of recorded branches into `t`. -/
def recordedInto (evs : List EdgeEvent) (t : UInt64) : UInt64 :=
  UInt64.ofNat (evs.countP fun ev => ev.edge.toAddr = t)

/-- Count of the entries into `t` that the prunes of a bounded run discard. -/
def discardedInto (s : PluginState) (evs : List EdgeEvent) (t : UInt64) : UInt64 :=
  sumWhere (fun e : Edge => decide (e.toAddr = t)) (droppedIn s evs)

theorem recordedInto_congr {evs evs' : List EdgeEvent}
    (h : evs.map EdgeEvent.call = evs'.map EdgeEvent.call) (t : UInt64) :
    recordedInto evs t = recordedInto evs' t := by
  have hcount : ∀ l : List EdgeEvent, (l.countP fun ev => ev.edge.toAddr = t)
      = (l.map EdgeEvent.call).countP fun c => c.2.toAddr = t := by
    intro l
    rw [List.countP_map]
    rfl
  unfold recordedInto
  rw [hcount, hcount, h]

theorem branchEntries_bounded (s : PluginState) (topN : UInt64) (n : Nat)
    (evs : List EdgeEvent) (hv : ∀ ev ∈ evs, ev.vcpu < n) (t : UInt64) :
    branchEntries (run (startState s topN false n) evs) t
      = recordedInto evs t - discardedInto (startState s topN false n) evs t := by
  have h := branchEntries_run t (startState s topN false n) evs (onVcpus_startState hv)
  rw [branchEntries_startState, zero_add] at h
  unfold recordedInto discardedInto
  rw [← h, UInt64.add_sub_cancel]

theorem branchEntries_streaming (s : PluginState) (topN : UInt64) (n : Nat)
    (evs : List EdgeEvent) (hv : ∀ ev ∈ evs, ev.vcpu < n) (t : UInt64) :
    branchEntries (run (startState s topN true n) evs) t = recordedInto evs t := by
  rw [branchEntries_unbounded t _ evs (unbounded_startState s topN n) (onVcpus_startState hv),
      branchEntries_startState, zero_add]
  rfl

/-- **EXACTLY WHEN PRUNING IS HARMLESS.**  Bounded and streaming mode give the
same fall-through list for the same calls iff, at the start of every TB that
some TB falls through to, the prunes discarded nothing or the surviving
entries still account for all executions of the TB. -/
theorem bounded_eq_streaming_iff (s : PluginState) (topN : UInt64) (n : Nat)
    (evs evs' : List EdgeEvent) (hsame : evs.map EdgeEvent.call = evs'.map EdgeEvent.call)
    (hv : ∀ ev ∈ evs, ev.vcpu < n) (o o' : ExitOrders) (ho : o.tbMap = o'.tbMap)
    (execSum : Nat → UInt64) :
    exitFallThroughs o (run (startState s topN false n) evs) execSum
        = exitFallThroughs o' (run (startState s topN true n) evs') execSum
      ↔ ∀ tb ∈ tbMetas o s, (∃ pred ∈ tbMetas o s, pred.fallThroughAddr = tb.startAddr) →
          discardedInto (startState s topN false n) evs tb.startAddr = 0
            ∨ (execSum tb.execCount ≤ recordedInto evs tb.startAddr
                  - discardedInto (startState s topN false n) evs tb.startAddr
                ∧ execSum tb.execCount ≤ recordedInto evs tb.startAddr) := by
  have hv' : ∀ ev ∈ evs', ev.vcpu < n := by
    intro ev hev
    have hmem : ev.call ∈ evs.map EdgeEvent.call := by
      rw [hsame]
      exact List.mem_map.mpr ⟨ev, hev, rfl⟩
    obtain ⟨ev₀, hev₀, heq⟩ := List.mem_map.mp hmem
    have hvcpu : ev₀.vcpu = ev.vcpu := congrArg Prod.fst heq
    exact hvcpu ▸ hv ev₀ hev₀
  have hb : branchEntries (run (startState s topN false n) evs)
      = fun t => recordedInto evs t - discardedInto (startState s topN false n) evs t :=
    funext (branchEntries_bounded s topN n evs hv)
  have hs : branchEntries (run (startState s topN true n) evs') = fun t => recordedInto evs t := by
    funext t
    rw [branchEntries_streaming s topN n evs' hv' t, recordedInto_congr hsame t]
  have hm : tbMetas o (run (startState s topN false n) evs) = tbMetas o s :=
    tbMetas_congr rfl (tbMap_run evs _)
  have hm' : tbMetas o' (run (startState s topN true n) evs') = tbMetas o s :=
    tbMetas_congr ho.symm (tbMap_run evs' _)
  rw [exitFallThroughs_eq, exitFallThroughs_eq, hm, hm', hb, hs, fallThroughs_eq_iff]
  apply forall₂_congr
  intro tb _
  rw [predecessors_isSome]
  apply imp_congr_right
  intro _
  -- the two counts are equal iff nothing was discarded
  have hzero : ∀ r d : UInt64, r - d = r ↔ d = 0 := by
    intro r d
    constructor
    · intro h
      have hrd : r = r + d := UInt64.sub_eq_iff_eq_add.mp h
      exact (UInt64.add_right_inj r).mp (by rw [← hrd, UInt64.add_zero])
    · intro h
      rw [h, UInt64.sub_zero]
  rw [hzero]

/-! ## §3. A run on which they differ.

One vCPU executes the TBs `Q A Q P`.  It takes three branches, the third of
which makes a table of capacity 1 prune; `A` directly follows `P` in memory,
but was never entered from it. -/

/-- Metadata of a TB of the example. -/
def exampleTb (startAddr endAddr fallThroughAddr : UInt64) (scoreboard : Nat) : TbMeta :=
  { startAddr := startAddr, endAddr := endAddr, nInsns := 2, symId := 0
    execCount := scoreboard, firstSeenSeq := 0, fallThroughAddr := fallThroughAddr
    endsWithIndirect := false, coprocFlags := 0 }

def exampleState : PluginState :=
  { openedState with
    tbMap := HashMap.ofList
      [(⟨0x40, 2⟩, exampleTb 0x40 0x44 0x48 0), (⟨0x18, 2⟩, exampleTb 0x18 0x1C 0x20 1),
        (⟨0x10, 2⟩, exampleTb 0x10 0x14 0x18 2)] }

/-- `Q → A`, `A → Q`, `Q → P`. -/
def exampleEvents : List EdgeEvent :=
  [⟨⟨[], 0⟩, 0, ⟨0x44, 0x18⟩⟩, ⟨⟨[], 0⟩, 0, ⟨0x1C, 0x40⟩⟩, ⟨⟨[], 0⟩, 0, ⟨0x44, 0x10⟩⟩]

/-- `Q` ran twice, `A` and `P` once. -/
def exampleExec : Nat → UInt64
  | 0 => 2
  | 1 => 1
  | 2 => 1
  | _ => 0

/-- `Q A Q A P A`: `Q → A` twice, and between them `A → Q`; then `A → P`, and
`P` falls through into `A`. -/
def harmlessEvents : List EdgeEvent :=
  [⟨⟨[], 0⟩, 0, ⟨0x44, 0x18⟩⟩, ⟨⟨[], 0⟩, 0, ⟨0x1C, 0x40⟩⟩, ⟨⟨[], 0⟩, 0, ⟨0x44, 0x18⟩⟩,
    ⟨⟨[], 0⟩, 0, ⟨0x1C, 0x10⟩⟩]

def harmlessExec : Nat → UInt64
  | 0 => 2
  | 1 => 3
  | 2 => 1
  | _ => 0

/-- The fourth branch makes the table prune, but what it throws away leads to
blocks that no block falls through to: both modes find `P` into `A`, once. -/
theorem bounded_eq_streaming_harmless :
    (droppedIn (startState exampleState 1 false 1) harmlessEvents).length = 2
      ∧ exitFallThroughs listOrders (run (startState exampleState 1 false 1) harmlessEvents)
          harmlessExec
        = exitFallThroughs listOrders (run (startState exampleState 1 true 1) harmlessEvents)
          harmlessExec
      ∧ exitFallThroughs listOrders (run (startState exampleState 1 true 1) harmlessEvents)
          harmlessExec = [(0x14, 0x18, 1)] := by
  refine ⟨by decide, ?_, by decide⟩
  exact (bounded_eq_streaming_iff exampleState 1 1 harmlessEvents harmlessEvents rfl (by decide)
    listOrders listOrders rfl harmlessExec).mpr (by decide)

/-- **Pruning invents a fall-through**: with `top_n = 1` the bounded table
reports one from `P` into `A`, streaming reports none. -/
theorem pruning_invents_fallThrough :
    exitFallThroughs listOrders (run (startState exampleState 1 false 1) exampleEvents)
        exampleExec = [(0x14, 0x18, 1)]
      ∧ exitFallThroughs listOrders (run (startState exampleState 1 true 1) exampleEvents)
        exampleExec = [] := by
  decide

end QemuProfiler.Edges

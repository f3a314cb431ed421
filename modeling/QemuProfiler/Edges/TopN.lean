/-
  QemuProfiler.Edges.TopN
  ───────────────────────
  **THE BOUNDED TABLE OVER WHOLE RUNS** (`TopNTable` in `edge_storage.rs`).

  A table counts what it stores and forgets what it drops: an edge that comes
  back after a prune starts from zero.

    • `record_cases` — a record counts, and prunes when the table overflows,
    • `topN_invariant` — the table is bounded, its counts are one-sided, every
      prune keeps the greatest stored counts, and below the threshold nothing
      is lost,
    • `topN_keeps_hottest` — the drained edges are the hottest ones in runs
      that do not come back to a dropped edge too late,
    • `hot_edge_dropped` — an edge that is hot over the whole run and cold
      between any two prunes.
-/
import QemuProfiler.Lib.SortTies
import QemuProfiler.Plugin.EdgeStorage

namespace QemuProfiler.Edges

open QemuProfiler.Lib QemuProfiler.Plugin

/-! ## §1. One record. -/

/-- The counts after a record, before a prune. -/
def counting (table : TopNTable) (e : Edge) : HashMap Edge UInt64 := table.edges.bump e 1

/-- A record of `e` makes the table prune. -/
def Overflows (table : TopNTable) (e : Edge) : Prop :=
  (table.capacity * 2).toNat < (counting table e).len
    ∧ table.capacity.toNat < (counting table e).len

instance (table : TopNTable) (e : Edge) : Decidable (Overflows table e) :=
  inferInstanceAs (Decidable (_ ∧ _))

/-- `after` has the `n` hottest entries of `before`, with their counts. -/
structure PrunedTo (n : Nat) (before after : HashMap Edge UInt64) : Prop where
  len : after.len = n
  kept : ∀ e c, after.lookup e = some c → before.lookup e = some c
  hottest : ∀ k c d c', after.lookup k = some c → before.lookup d = some c' →
    after.lookup d = none → c' ≤ c

/-- **The prune** keeps the first entries of the sorted list. -/
theorem prunedTo_take (ρ : IterOrder) (table : TopNTable)
    (h : table.capacity.toNat < table.edges.len) :
    PrunedTo table.capacity.toNat table.edges
      (HashMap.ofList ((table.sorted ρ).take table.capacity.toNat)) := by
  have hperm := TopNTable.sorted_perm ρ table
  have hnd : ((table.sorted ρ).map Prod.fst).Nodup :=
    (hperm.map Prod.fst).nodup_iff.mpr table.edges.items_nodup
  have hitems := items_ofList_perm ((table.sorted ρ).take table.capacity.toNat) (by
    rw [List.map_take]
    exact hnd.sublist (List.take_sublist _ _))
  have hlookup : ∀ e c, (HashMap.ofList ((table.sorted ρ).take table.capacity.toNat)).lookup e
      = some c ↔ (e, c) ∈ (table.sorted ρ).take table.capacity.toNat := by
    intro e c
    rw [← HashMap.mem_items, hitems.mem_iff]
  refine ⟨?_, ?_, ?_⟩
  · show (HashMap.items _).length = _
    rw [hitems.length_eq, List.length_take, hperm.length_eq]
    exact Nat.min_eq_left (Nat.le_of_lt h)
  · intro e c hkept
    have hmem := List.mem_of_mem_take ((hlookup e c).mp hkept)
    exact HashMap.mem_items.mp (hperm.mem_iff.mp hmem)
  · intro k c d c' hkept hbefore hgone
    have hd : (d, c') ∈ table.sorted ρ := hperm.mem_iff.mpr (HashMap.mem_items.mpr hbefore)
    rw [← List.take_append_drop table.capacity.toNat (table.sorted ρ), List.mem_append] at hd
    rcases hd with hd | hd
    · rw [(hlookup d c').mpr hd] at hgone
      cases hgone
    · -- a kept entry stands before a dropped one
      have hsorted : (table.sorted ρ).Pairwise fun a b => b.2 ≤ a.2 :=
        sortDesc_pairwise Prod.snd (table.edges.iter ρ)
      rw [← List.take_append_drop table.capacity.toNat (table.sorted ρ)] at hsorted
      exact (List.pairwise_append.mp hsorted).2.2 (k, c) ((hlookup k c).mp hkept) (d, c') hd

theorem record_eq (ρ : IterOrder) (table : TopNTable) (e : Edge) :
    table.record ρ e.fromAddr e.toAddr
      = if (table.capacity * 2).toNat < (counting table e).len then
          TopNTable.prune ρ { table with edges := counting table e }
        else { table with edges := counting table e } := rfl

/-- **What a record can do**: count, or count and prune. -/
theorem record_cases (ρ : IterOrder) (table : TopNTable) (e : Edge) :
    (table.record ρ e.fromAddr e.toAddr).capacity = table.capacity
      ∧ ((¬ Overflows table e ∧ (table.record ρ e.fromAddr e.toAddr).edges = counting table e)
        ∨ (Overflows table e ∧ PrunedTo table.capacity.toNat (counting table e)
            (table.record ρ e.fromAddr e.toAddr).edges)) := by
  rw [record_eq]
  by_cases hover : (table.capacity * 2).toNat < (counting table e).len
  · rw [if_pos hover]
    unfold TopNTable.prune
    dsimp only
    by_cases hcap : (counting table e).len ≤ table.capacity.toNat
    · -- the prune returns early
      rw [if_pos hcap]
      exact ⟨rfl, .inl ⟨fun h => absurd h.2 (by omega), rfl⟩⟩
    · rw [if_neg hcap]
      refine ⟨rfl, .inr ⟨⟨hover, by omega⟩, ?_⟩⟩
      exact prunedTo_take ρ { table with edges := counting table e } (by
        show table.capacity.toNat < (counting table e).len
        omega)
  · rw [if_neg hover]
    exact ⟨rfl, .inl ⟨fun h => hover h.1, rfl⟩⟩

theorem lookup_counting (table : TopNTable) (e k : Edge) :
    (counting table e).lookup k
      = if k = e then some ((table.edges.lookup e).getD 0 + 1) else table.edges.lookup k :=
  HashMap.lookup_bump table.edges e k 1

/-- What is stored after a record was counted by it. -/
theorem lookup_record {ρ : IterOrder} {table : TopNTable} {e k : Edge} {c : UInt64}
    (h : (table.record ρ e.fromAddr e.toAddr).edges.lookup k = some c) :
    (counting table e).lookup k = some c := by
  rcases (record_cases ρ table e).2 with ⟨_, heq⟩ | ⟨_, hpruned⟩
  · rw [heq] at h
    exact h
  · exact hpruned.kept k c h

/-! ## §2. Runs of records and drains. -/

/-- A call on the table. -/
inductive TableOp where
  | record (ρ : IterOrder) (e : Edge)
  | drain (ρ : IterOrder)

def perform (table : TopNTable) : TableOp → TopNTable
  | .record ρ e => table.record ρ e.fromAddr e.toAddr
  | .drain ρ => (table.drain ρ).2

def runOps (table : TopNTable) (ops : List TableOp) : TopNTable := ops.foldl perform table

/-- One more call in the list of edges recorded since the last drain. -/
def recordedAfter (recorded : List Edge) : TableOp → List Edge
  | .record _ e => recorded ++ [e]
  | .drain _ => []

/-- The edges recorded since the last drain, in order. -/
def recordedIn (ops : List TableOp) : List Edge := ops.foldl recordedAfter []

/-- The table against the edges recorded since the last drain. -/
structure TableInv (cap : UInt64) (recorded : List Edge) (table : TopNTable) : Prop where
  capacity : table.capacity = cap
  bounded : table.edges.len ≤ 2 * cap.toNat
  /-- A stored count is the number of some of the records, from the last on. -/
  counted : ∀ e c, table.edges.lookup e = some c →
    ∃ n, 1 ≤ n ∧ n ≤ recorded.count e ∧ c = UInt64.ofNat n
  /-- Nothing is lost while the table cannot have overflowed. -/
  exact : recorded.dedup.length ≤ 2 * cap.toNat →
    table.edges = HashMap.tally (recorded.map fun e => (e, 1))

theorem TableInv.new (capacity : UInt64) : TableInv capacity [] (TopNTable.new capacity) where
  capacity := rfl
  bounded := Nat.zero_le _
  counted := by
    intro e c h
    cases h
  exact := fun _ => rfl

theorem overflows_iff {table : TopNTable} (hcap : 2 * table.capacity.toNat < 2 ^ 64) (e : Edge) :
    Overflows table e ↔ 2 * table.capacity.toNat < (counting table e).len := by
  have hmul : (table.capacity * 2).toNat = 2 * table.capacity.toNat := by
    rw [UInt64.toNat_mul]
    show table.capacity.toNat * 2 % 2 ^ 64 = _
    omega
  unfold Overflows
  rw [hmul]
  omega

theorem count_concat (l : List Edge) (e a : Edge) :
    (l ++ [e]).count a = l.count a + if a = e then 1 else 0 := by
  rw [List.count_append]
  congr 1
  by_cases ha : a = e
  · rw [if_pos ha, ha, List.count_singleton_self]
  · rw [if_neg ha]
    exact List.count_eq_zero_of_not_mem (by simpa using ha)

theorem dedup_length_le_concat (l : List Edge) (e : Edge) :
    l.dedup.length ≤ (l ++ [e]).dedup.length := by
  have hsub : l.dedup ⊆ (l ++ [e]).dedup := by
    intro a ha
    exact List.mem_dedup.mpr (List.mem_append_left _ (List.mem_dedup.mp ha))
  exact (List.subperm_of_subset (List.nodup_dedup l) hsub).length_le

/-- **One record keeps the invariant.** -/
theorem TableInv.record {capacity : UInt64} (hcap : 2 * capacity.toNat < 2 ^ 64)
    {recorded : List Edge} {table : TopNTable} (h : TableInv capacity recorded table)
    (ρ : IterOrder) (e : Edge) :
    TableInv capacity (recorded ++ [e]) (table.record ρ e.fromAddr e.toAddr) := by
  obtain ⟨hcapacity, hcases⟩ := record_cases ρ table e
  have hover := overflows_iff (h.capacity.symm ▸ hcap) e
  rw [h.capacity] at hcapacity hcases hover
  refine ⟨hcapacity, ?_, ?_, ?_⟩
  · rcases hcases with ⟨hno, heq⟩ | ⟨_, hpruned⟩
    · rw [heq]
      rw [hover] at hno
      omega
    · rw [hpruned.len]
      omega
  · intro k c hlook
    have hcount := lookup_record hlook
    rw [lookup_counting] at hcount
    rw [count_concat]
    by_cases hk : k = e
    · -- one more than before, or the first one
      rw [if_pos hk] at hcount ⊢
      subst hk
      rw [← Option.some.inj hcount]
      cases hold : table.edges.lookup k with
      | none => exact ⟨1, Nat.le_refl 1, by omega, rfl⟩
      | some c₀ =>
          obtain ⟨n, hn, hle, hc₀⟩ := h.counted k c₀ hold
          refine ⟨n + 1, by omega, by omega, ?_⟩
          rw [Option.getD_some, hc₀, UInt64.ofNat_add]
          rfl
    · rw [if_neg hk] at hcount
      obtain ⟨n, hn, hle, hc⟩ := h.counted k c hcount
      exact ⟨n, hn, by omega, hc⟩
  · intro hfew
    have hbefore := h.exact (Nat.le_trans (dedup_length_le_concat recorded e) hfew)
    have hcounting : counting table e
        = HashMap.tally ((recorded ++ [e]).map fun e => (e, 1)) := by
      unfold counting HashMap.tally
      rw [hbefore, List.map_append, List.foldl_append]
      rfl
    rcases hcases with ⟨_, heq⟩ | ⟨hyes, _⟩
    · rw [heq, hcounting]
    · -- as many entries as distinct edges: no overflow
      rw [hover, hcounting, HashMap.len_tally, List.map_map] at hyes
      have hid : (recorded ++ [e]).map (Prod.fst ∘ fun e : Edge => (e, (1 : UInt64)))
          = recorded ++ [e] := List.map_id _
      rw [hid] at hyes
      omega

/-- The drained table is a new one. -/
theorem drain_snd (ρ : IterOrder) (table : TopNTable) :
    (table.drain ρ).2 = TopNTable.new table.capacity := rfl

/-- **Every run keeps the invariant.** -/
theorem tableInv_runOps {capacity : UInt64} (hcap : 2 * capacity.toNat < 2 ^ 64)
    (ops : List TableOp) :
    TableInv capacity (recordedIn ops) (runOps (TopNTable.new capacity) ops) := by
  suffices hs : ∀ (ops : List TableOp) (recorded : List Edge) (table : TopNTable),
      TableInv capacity recorded table →
        TableInv capacity (ops.foldl recordedAfter recorded) (ops.foldl perform table) from
    hs ops [] _ (TableInv.new capacity)
  intro ops
  induction ops with
  | nil => intro recorded table h; exact h
  | cons op ops ih =>
      intro recorded table h
      rw [List.foldl_cons, List.foldl_cons]
      apply ih
      cases op with
      | record ρ e => exact h.record hcap ρ e
      | drain ρ =>
          show TableInv capacity [] (table.drain ρ).2
          rw [drain_snd, h.capacity]
          exact TableInv.new capacity

/-- The entries of a tally of ones: every key once, with its number. -/
theorem items_tally_ones (l : List Edge) :
    (HashMap.items (HashMap.tally (l.map fun e => (e, (1 : UInt64))))).Perm
      (l.dedup.map fun e => (e, UInt64.ofNat (l.count e))) := by
  have hfst : (l.map fun e => (e, (1 : UInt64))).map Prod.fst = l := by
    rw [List.map_map]
    exact List.map_id l
  rw [List.perm_ext_iff_of_nodup (List.Nodup.of_map _ (HashMap.items_nodup _))
    ((List.nodup_dedup l).map fun a b hab => congrArg Prod.fst hab)]
  intro x
  obtain ⟨e, c⟩ := x
  rw [HashMap.mem_items, HashMap.lookup_tally, hfst, sumAt_ones, List.mem_map]
  constructor
  · intro h
    split at h
    · rename_i hmem
      exact ⟨e, List.mem_dedup.mpr hmem, by rw [Option.some.inj h]⟩
    · cases h
  · intro h
    obtain ⟨a, ha, hac⟩ := h
    obtain ⟨hae, hcount⟩ := Prod.mk.inj hac
    subst hae
    rw [if_pos (List.mem_dedup.mp ha), hcount]

/-- **THE BOUNDED TABLE.**  After any calls: at most `2N` edges; no stored
count above the number of records, and none below one (until an edge was
recorded 2^64 times); every prune keeps the `N` greatest stored counts; and
while at most `2N` edges were recorded since the last drain, a drain lists
them all with their numbers (mod 2^64) and leaves a new table. -/
theorem topN_invariant (capacity : UInt64) (hcap : 2 * capacity.toNat < 2 ^ 64)
    (ops : List TableOp) :
    (runOps (TopNTable.new capacity) ops).edges.len ≤ 2 * capacity.toNat
      ∧ (∀ e c, (runOps (TopNTable.new capacity) ops).edges.lookup e = some c →
          c.toNat ≤ (recordedIn ops).count e
            ∧ ((recordedIn ops).count e < 2 ^ 64 → 1 ≤ c.toNat))
      ∧ (∀ ρ e, 2 * capacity.toNat < (counting (runOps (TopNTable.new capacity) ops) e).len →
          PrunedTo capacity.toNat (counting (runOps (TopNTable.new capacity) ops) e)
            (runOps (TopNTable.new capacity) (ops ++ [.record ρ e])).edges)
      ∧ ((recordedIn ops).dedup.length ≤ 2 * capacity.toNat → ∀ ρ,
          ((runOps (TopNTable.new capacity) ops).drain ρ).1.Perm
            ((recordedIn ops).dedup.map fun e =>
              (e.fromAddr, e.toAddr, UInt64.ofNat ((recordedIn ops).count e))))
      ∧ ∀ ρ, ((runOps (TopNTable.new capacity) ops).drain ρ).2 = TopNTable.new capacity := by
  have hinv := tableInv_runOps hcap ops
  refine ⟨hinv.bounded, ?_, ?_, ?_, ?_⟩
  · intro e c hlook
    obtain ⟨n, hn, hle, hc⟩ := hinv.counted e c hlook
    rw [hc, UInt64.toNat_ofNat']
    refine ⟨Nat.le_trans (Nat.mod_le _ _) hle, ?_⟩
    intro hlt
    rw [Nat.mod_eq_of_lt (by omega)]
    exact hn
  · intro ρ e hlen
    have hover := (overflows_iff (hinv.capacity.symm ▸ hcap) e).mpr (hinv.capacity.symm ▸ hlen)
    have hrun : runOps (TopNTable.new capacity) (ops ++ [.record ρ e])
        = (runOps (TopNTable.new capacity) ops).record ρ e.fromAddr e.toAddr := by
      unfold runOps
      rw [List.foldl_append]
      rfl
    rw [hrun]
    rcases (record_cases ρ (runOps (TopNTable.new capacity) ops) e).2 with ⟨hno, _⟩ | ⟨_, hpruned⟩
    · exact absurd hover hno
    · rw [hinv.capacity] at hpruned
      exact hpruned
  · intro hfew ρ
    -- nothing was pruned, so the table is the tally of the records
    have hitems := items_tally_ones (recordedIn ops)
    rw [← hinv.exact hfew] at hitems
    have hdrain := ((shuffle_perm ρ _).trans hitems).map toTriple
    rw [List.map_map] at hdrain
    exact hdrain
  · intro ρ
    rw [drain_snd, hinv.capacity]

/-- A drain, then two edges in a table for one. -/
def afterDrain : List TableOp :=
  [.record [] ⟨1, 2⟩, .drain [], .record [] ⟨3, 4⟩, .record [] ⟨3, 4⟩, .record [] ⟨5, 6⟩]

theorem topN_invariant_afterDrain :
    2 * (1 : UInt64).toNat < 2 ^ 64
      ∧ (runOps (TopNTable.new 1) afterDrain).edges.len ≤ 2
      ∧ ((runOps (TopNTable.new 1) afterDrain).drain [1]).1.Perm [(3, 4, 2), (5, 6, 1)] := by
  have hcap : 2 * (1 : UInt64).toNat < 2 ^ 64 := by decide
  obtain ⟨hlen, _, _, hdrain, _⟩ := topN_invariant 1 hcap afterDrain
  have hlist : ((recordedIn afterDrain).dedup.map fun e =>
      (e.fromAddr, e.toAddr, UInt64.ofNat ((recordedIn afterDrain).count e)))
        = [(3, 4, 2), (5, 6, 1)] := by decide
  refine ⟨hcap, hlen, ?_⟩
  rw [← hlist]
  exact hdrain (by decide) [1]

theorem recordedIn_replicate (n : Nat) (ρ : IterOrder) (e : Edge) :
    recordedIn (List.replicate n (.record ρ e)) = List.replicate n e := by
  suffices hs : ∀ (n : Nat) (l : List Edge),
      (List.replicate n (TableOp.record ρ e)).foldl recordedAfter l = l ++ List.replicate n e from
    hs n []
  intro n
  induction n with
  | zero => intro l; simp
  | succ n ih =>
      intro l
      rw [List.replicate_succ, List.foldl_cons, ih]
      simp [recordedAfter, List.replicate_succ]

/-- One edge, recorded again and again. -/
theorem lookup_replicate {capacity : UInt64} (hcap : 2 * capacity.toNat < 2 ^ 64)
    (hone : 1 ≤ capacity.toNat) {n : Nat} (hn : n ≠ 0) (ρ : IterOrder) (e : Edge) :
    (runOps (TopNTable.new capacity) (List.replicate n (.record ρ e))).edges.lookup e
      = some (UInt64.ofNat n) := by
  have hinv := tableInv_runOps hcap (List.replicate n (.record ρ e))
  rw [recordedIn_replicate] at hinv
  have hfew : (List.replicate n e).dedup.length ≤ 2 * capacity.toNat := by
    rw [List.replicate_dedup hn, List.length_singleton]
    omega
  have hfst : ((List.replicate n e).map fun e => (e, (1 : UInt64))).map Prod.fst
      = List.replicate n e := by
    rw [List.map_map]
    exact List.map_id _
  rw [hinv.exact hfew, HashMap.lookup_tally, hfst, sumAt_ones,
      if_pos (List.mem_replicate.mpr ⟨hn, rfl⟩), List.count_replicate_self]

/-- **A count can be zero**: after 2^64 records of one edge. -/
theorem count_wraps_to_zero :
    (runOps (TopNTable.new 1) (List.replicate (2 ^ 64) (.record [] ⟨0x10, 0x20⟩))).edges.lookup
        ⟨0x10, 0x20⟩ = some 0
      ∧ ¬ ∀ (capacity : UInt64) (ops : List TableOp) (e : Edge) (c : UInt64),
          2 * capacity.toNat < 2 ^ 64 →
          (runOps (TopNTable.new capacity) ops).edges.lookup e = some c → 1 ≤ c.toNat := by
  have hcap : 2 * (1 : UInt64).toNat < 2 ^ 64 := by decide
  have hzero := lookup_replicate hcap (by decide) (show 2 ^ 64 ≠ 0 by decide) [] ⟨0x10, 0x20⟩
  refine ⟨hzero, ?_⟩
  intro hall
  have hge := hall 1 _ _ _ hcap hzero
  exact absurd hge (by decide)

/-! ## §3. The hottest edges. -/

/-- Everything recorded and not stored is at most as hot as everything
stored, over the whole history. -/
def Hottest (history : List Edge) (table : TopNTable) : Prop :=
  ∀ m ∈ history, table.edges.lookup m = none →
    ∀ k c, table.edges.lookup k = some c → history.count m ≤ history.count k

/-- What a record needs from the table and the history before it: an edge that
enters the table is as hot, with this record, as every edge that is not in it;
and a table that overflows has its counts in the order of the history. -/
def StepOk (history : List Edge) (table : TopNTable) (e : Edge) : Prop :=
  (table.edges.lookup e = none → ∀ m ∈ history, m ≠ e → table.edges.lookup m = none →
      history.count m ≤ history.count e + 1)
    ∧ (Overflows table e → ∀ d ∈ (counting table e).items, ∀ k ∈ (counting table e).items,
      d.2 ≤ k.2 → (history ++ [e]).count d.1 ≤ (history ++ [e]).count k.1)

instance (history : List Edge) (table : TopNTable) (e : Edge) :
    Decidable (StepOk history table e) :=
  inferInstanceAs (Decidable (_ ∧ _))

/-- Every record of a run meets its condition. -/
def RunOk (history : List Edge) (table : TopNTable) : List (IterOrder × Edge) → Prop
  | [] => True
  | r :: rs =>
      StepOk history table r.2
        ∧ RunOk (history ++ [r.2]) (table.record r.1 r.2.fromAddr r.2.toAddr) rs

instance decidableRunOk (history : List Edge) (table : TopNTable) :
    (rs : List (IterOrder × Edge)) → Decidable (RunOk history table rs)
  | [] => inferInstanceAs (Decidable True)
  | r :: rs =>
      have := decidableRunOk (history ++ [r.2]) (table.record r.1 r.2.fromAddr r.2.toAddr) rs
      inferInstanceAs (Decidable (_ ∧ _))

/-- **One record keeps the hottest edges**, under its condition. -/
theorem Hottest.record {history : List Edge} {table : TopNTable} {e : Edge}
    (h : Hottest history table) (hok : StepOk history table e) (ρ : IterOrder) :
    Hottest (history ++ [e]) (table.record ρ e.fromAddr e.toAddr) := by
  intro m hm hgone k c hk
  have hkc := lookup_record hk
  cases hmc : (counting table e).lookup m with
  | none =>
      -- `m` was missing before, and still is
      rw [lookup_counting] at hmc hkc
      have hme : m ≠ e := by
        intro heq
        rw [if_pos heq] at hmc
        cases hmc
      rw [if_neg hme] at hmc
      have hmem : m ∈ history := by
        rcases List.mem_append.mp hm with hin | hin
        · exact hin
        · exact absurd (List.mem_singleton.mp hin) hme
      rw [count_concat, count_concat, if_neg hme]
      by_cases hke : k = e
      · subst hke
        rw [if_pos rfl]
        cases hold : table.edges.lookup k with
        | none => exact hok.1 hold m hmem hme hmc
        | some c₀ =>
            have hle := h m hmem hmc k c₀ hold
            omega
      · rw [if_neg hke] at hkc ⊢
        exact h m hmem hmc k c hkc
  | some c' =>
      -- `m` was dropped by the prune of this record
      rcases (record_cases ρ table e).2 with ⟨_, heq⟩ | ⟨hover, hpruned⟩
      · rw [heq, hmc] at hgone
        cases hgone
      · have hle := hpruned.hottest k c m c' hk hmc hgone
        exact hok.2 hover (m, c') (HashMap.mem_items.mpr hmc) (k, c)
          (HashMap.mem_items.mpr hkc) hle

/-- The condition on an edge that enters is needed, where nothing is pruned. -/
theorem enters_of_hottest {history : List Edge} {table : TopNTable} {e : Edge} {ρ : IterOrder}
    (hno : ¬ Overflows table e)
    (h : Hottest (history ++ [e]) (table.record ρ e.fromAddr e.toAddr)) :
    ∀ m ∈ history, m ≠ e → table.edges.lookup m = none →
      history.count m ≤ history.count e + 1 := by
  intro m hm hme hgone
  rcases (record_cases ρ table e).2 with ⟨_, heq⟩ | ⟨hover, _⟩
  · unfold Hottest at h
    rw [heq] at h
    have hle := h m (List.mem_append_left _ hm) (by rw [lookup_counting, if_neg hme, hgone]) e _
      (by rw [lookup_counting, if_pos rfl])
    rw [count_concat, count_concat, if_neg hme, if_pos rfl] at hle
    exact hle
  · exact absurd hover hno

/-- Record calls on an accumulator. -/
def recordAll (acc : EdgeAccumulator) (rs : List (IterOrder × Edge)) : EdgeAccumulator :=
  rs.foldl (fun acc r => acc.record r.1 r.2.fromAddr r.2.toAddr) acc

/-- A run that meets its conditions ends with the hottest edges. -/
theorem Hottest.recordAll {history : List Edge} {table : TopNTable}
    (h : Hottest history table) (rs : List (IterOrder × Edge)) (hok : RunOk history table rs) :
    ∃ table', recordAll (.topN table) rs = .topN table'
      ∧ Hottest (history ++ rs.map Prod.snd) table' := by
  induction rs generalizing history table with
  | nil => exact ⟨table, rfl, by simpa using h⟩
  | cons r rs ih =>
      obtain ⟨table', hrun, hhot⟩ := ih (h.record hok.1 r.1) hok.2
      refine ⟨table', hrun, ?_⟩
      rw [List.map_cons]
      simpa using hhot

theorem RunOk.append_left {history : List Edge} {table : TopNTable}
    (pre post : List (IterOrder × Edge)) (h : RunOk history table (pre ++ post)) :
    RunOk history table pre := by
  induction pre generalizing history table with
  | nil => trivial
  | cons r pre ih => exact ⟨h.1, ih h.2⟩

/-- If a recorded edge is missing from the drained ones, each of these was
recorded at least as often. -/
def KeepsHottest (history : List Edge) (drained : List Triple) : Prop :=
  ∀ e ∈ history, (∀ c, (e.fromAddr, e.toAddr, c) ∉ drained) →
    ∀ t ∈ drained, history.count e ≤ history.count ⟨t.1, t.2.1⟩

theorem keepsHottest_drain {history : List Edge} {table : TopNTable} (h : Hottest history table)
    (ρ : IterOrder) : KeepsHottest history ((EdgeAccumulator.topN table).drain ρ).1 := by
  intro e he hmissing t ht
  have hmem : ∀ x, x ∈ table.edges.iter ρ ↔ x ∈ table.edges.items :=
    fun x => (shuffle_perm ρ _).mem_iff
  have ht' : t ∈ (table.edges.iter ρ).map toTriple := ht
  obtain ⟨x, hx, hxt⟩ := List.mem_map.mp ht'
  subst hxt
  refine h e he ?_ x.1 x.2 (HashMap.mem_items.mp ((hmem x).mp hx))
  cases hlook : table.edges.lookup e with
  | none => rfl
  | some c =>
      -- a stored edge is drained
      have hin : (e, c) ∈ table.edges.iter ρ := (hmem (e, c)).mpr (HashMap.mem_items.mpr hlook)
      exact absurd (List.mem_map.mpr ⟨(e, c), hin, rfl⟩) (hmissing c)

/-- **THE BOUNDED TABLE KEEPS THE HOTTEST EDGES**, in every state of a run
whose records meet their conditions. -/
theorem topN_keeps_hottest (capacity : UInt64) (rs : List (IterOrder × Edge))
    (hok : RunOk [] (TopNTable.new capacity) rs) (pre : List (IterOrder × Edge))
    (hpre : pre <+: rs) (ρ : IterOrder) :
    KeepsHottest (pre.map Prod.snd)
      ((recordAll (EdgeAccumulator.new capacity false) pre).drain ρ).1 := by
  obtain ⟨post, hpost⟩ := hpre
  rw [← hpost] at hok
  have hnew : Hottest [] (TopNTable.new capacity) := by
    intro m hm
    cases hm
  obtain ⟨table', hrun, hhot⟩ := hnew.recordAll pre (hok.append_left pre post)
  show KeepsHottest _ ((recordAll (.topN (TopNTable.new capacity)) pre).drain ρ).1
  rw [hrun]
  exact keepsHottest_drain hhot ρ

/-- Records of single-letter edges. -/
def records (edges : List UInt64) : List (IterOrder × Edge) := edges.map fun a => ([], ⟨a, a⟩)

theorem topN_keeps_hottest_once :
    RunOk [] (TopNTable.new 1) (records [0xA, 0xA, 0xB, 0xC, 0xA])
      ∧ KeepsHottest ((records [0xA, 0xA, 0xB, 0xC, 0xA]).map Prod.snd)
        ((recordAll (EdgeAccumulator.new 1 false) (records [0xA, 0xA, 0xB, 0xC, 0xA])).drain []).1
      ∧ ((recordAll (EdgeAccumulator.new 1 false) (records [0xA, 0xA, 0xB, 0xC, 0xA])).drain []).1
        = [(0xA, 0xA, 3)] := by
  have hok : RunOk [] (TopNTable.new 1) (records [0xA, 0xA, 0xB, 0xC, 0xA]) := by decide
  exact ⟨hok, topN_keeps_hottest 1 _ hok _ (List.prefix_refl _) [], by decide⟩

/-- An edge that is dropped with one record at every prune. -/
def comingBack : List (IterOrder × Edge) :=
  records [0xA, 0xA, 0xA, 0xE, 0x1, 0xE, 0x2, 0xE, 0x3, 0xE, 0x4]

/-- **A hot edge dropped**: `0xE` was recorded four times, `0xA` three times,
and the table has `0xA`. -/
theorem hot_edge_dropped :
    ((recordAll (EdgeAccumulator.new 1 false) comingBack).drain []).1 = [(0xA, 0xA, 3)]
      ∧ (comingBack.map Prod.snd).count ⟨0xE, 0xE⟩ = 4
      ∧ (comingBack.map Prod.snd).count ⟨0xA, 0xA⟩ = 3
      ∧ ¬ KeepsHottest (comingBack.map Prod.snd)
        ((recordAll (EdgeAccumulator.new 1 false) comingBack).drain []).1 := by
  have hdrained : ((recordAll (EdgeAccumulator.new 1 false) comingBack).drain []).1
      = [(0xA, 0xA, 3)] := by decide
  refine ⟨hdrained, by decide, by decide, ?_⟩
  intro h
  have hle := h ⟨0xE, 0xE⟩ (by decide) (by rw [hdrained]; simp) (0xA, 0xA, 3)
    (by rw [hdrained]; simp)
  exact absurd hle (by decide)

end QemuProfiler.Edges

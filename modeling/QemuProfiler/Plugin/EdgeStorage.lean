/-
  QemuProfiler.Plugin.EdgeStorage
  ───────────────────────────────
  Per-vCPU edge accumulators (`plugin/src/edge_storage.rs`): a bounded table
  that is pruned to its hottest entries, or an unbounded map that is flushed.

  `usize` is 64 bits, so `capacity * 2` wraps there.  `sort_unstable_by`
  leaves the order of equal counts open; the entries come out of the map in
  an arbitrary order, so a stable sort of them covers every outcome.
-/
import Mathlib.Data.List.Sort
import QemuProfiler.Lib.Tally
import QemuProfiler.Plugin.Output

namespace QemuProfiler.Plugin

open QemuProfiler.Lib

/-! ## §1. The two stores. -/

/-- A branch edge between two addresses. -/
structure Edge where
  fromAddr : UInt64
  toAddr : UInt64
  deriving DecidableEq, Repr

/-- An edge and its count as a batch entry. -/
def toTriple (e : Edge × UInt64) : Triple := (e.1.fromAddr, e.1.toAddr, e.2)

/-- Bounded map that keeps the hottest edges. -/
structure TopNTable where
  edges : HashMap Edge UInt64
  capacity : UInt64

/-- Unbounded map that is flushed periodically. -/
structure StreamingMap where
  edges : HashMap Edge UInt64

def TopNTable.new (capacity : UInt64) : TopNTable := ⟨∅, capacity⟩

/-- The entries of the table, hottest first. -/
def TopNTable.sorted (ρ : IterOrder) (table : TopNTable) : List (Edge × UInt64) :=
  (table.edges.iter ρ).insertionSort (fun a b => b.2 ≤ a.2)

def TopNTable.prune (ρ : IterOrder) (table : TopNTable) : TopNTable :=
  if table.edges.len ≤ table.capacity.toNat then table
  else
    let entries := (table.sorted ρ).take table.capacity.toNat
    { table with edges := HashMap.ofList entries }

def TopNTable.record (ρ : IterOrder) (table : TopNTable) (fromAddr toAddr : UInt64) :
    TopNTable :=
  let edge : Edge := ⟨fromAddr, toAddr⟩
  let table : TopNTable := { table with edges := table.edges.bump edge 1 }
  -- prune when we exceed 2x capacity
  if (table.capacity * 2).toNat < table.edges.len then table.prune ρ else table

def TopNTable.drain (ρ : IterOrder) (table : TopNTable) : List Triple × TopNTable :=
  ((table.edges.iter ρ).map toTriple, { table with edges := ∅ })

def StreamingMap.new : StreamingMap := ⟨∅⟩

def StreamingMap.record (map : StreamingMap) (fromAddr toAddr : UInt64) : StreamingMap :=
  let edge : Edge := ⟨fromAddr, toAddr⟩
  { map with edges := map.edges.bump edge 1 }

def StreamingMap.drain (ρ : IterOrder) (map : StreamingMap) : List Triple × StreamingMap :=
  ((map.edges.iter ρ).map toTriple, { map with edges := ∅ })

/-! ## §2. The accumulator. -/

/-- Per-vCPU edge accumulator in one of its two modes. -/
inductive EdgeAccumulator where
  | topN (table : TopNTable)
  | streaming (map : StreamingMap)

namespace EdgeAccumulator

def new (capacity : UInt64) (streaming : Bool) : EdgeAccumulator :=
  if streaming then .streaming StreamingMap.new else .topN (TopNTable.new capacity)

/-- Record a branch edge; `ρ` is the iteration order of a prune. -/
def record (ρ : IterOrder) (acc : EdgeAccumulator) (fromAddr toAddr : UInt64) :
    EdgeAccumulator :=
  match acc with
  | .topN table => .topN (table.record ρ fromAddr toAddr)
  | .streaming map => .streaming (map.record fromAddr toAddr)

/-- Drain all edges into a list for output. -/
def drain (ρ : IterOrder) (acc : EdgeAccumulator) : List Triple × EdgeAccumulator :=
  match acc with
  | .topN table => ((table.drain ρ).1, .topN (table.drain ρ).2)
  | .streaming map => ((map.drain ρ).1, .streaming (map.drain ρ).2)

/-- The stored edges. -/
def edges : EdgeAccumulator → HashMap Edge UInt64
  | .topN table => table.edges
  | .streaming map => map.edges

/-- Number of unique edges currently stored. -/
def len (acc : EdgeAccumulator) : Nat := acc.edges.len

/-- Whether streaming mode should trigger a flush. -/
def shouldFlush (acc : EdgeAccumulator) (threshold : UInt64) : Bool :=
  match acc with
  | .topN _ => false
  | .streaming map => threshold.toNat ≤ map.edges.len

end EdgeAccumulator

/-! ## §3. What a prune throws away. -/

/-- The entries the prune of a `record` truncates: not a value the code
keeps, but the one its accounting needs. -/
def TopNTable.dropped (ρ : IterOrder) (table : TopNTable) (fromAddr toAddr : UInt64) :
    List (Edge × UInt64) :=
  let table : TopNTable := { table with edges := table.edges.bump ⟨fromAddr, toAddr⟩ 1 }
  if (table.capacity * 2).toNat < table.edges.len ∧ table.capacity.toNat < table.edges.len then
    (table.sorted ρ).drop table.capacity.toNat
  else []

def EdgeAccumulator.dropped (ρ : IterOrder) (acc : EdgeAccumulator) (fromAddr toAddr : UInt64) :
    List (Edge × UInt64) :=
  match acc with
  | .topN table => table.dropped ρ fromAddr toAddr
  | .streaming _ => []

/-- Rebuilding a map from entries with distinct keys loses nothing. -/
theorem items_ofList_perm {α β : Type} [DecidableEq α] (l : List (α × β))
    (hnd : (l.map Prod.fst).Nodup) : (HashMap.ofList l).items.Perm l := by
  suffices h : ∀ (l : List (α × β)) (m : HashMap α β), (l.map Prod.fst).Nodup →
      (∀ k ∈ l.map Prod.fst, k ∉ m) →
      (HashMap.items (l.foldl (fun m e => m.insert e.1 e.2) m)).Perm (m.items ++ l) by
    exact h l ∅ hnd (fun k _ => AList.notMem_empty k)
  intro l
  induction l with
  | nil => intro m _ _; simp
  | cons e l ih =>
      intro m hnd hnot
      rw [List.map_cons, List.nodup_cons] at hnd
      have hnone : m.lookup e.1 = none := AList.lookup_eq_none.mpr (hnot e.1 (by simp))
      rw [List.foldl_cons]
      refine (ih (m.insert e.1 e.2) hnd.2 ?_).trans ?_
      · -- the remaining keys are neither `e.1` nor old ones
        intro k hk hin
        rcases (AList.mem_insert m).mp hin with heq | hold
        · subst heq
          exact hnd.1 hk
        · exact hnot k (by simp [hk]) hold
      · rw [HashMap.items_insert, HashMap.items_erase_of_none hnone]
        exact List.perm_middle.symm

/-- Sorting only reorders the entries. -/
theorem TopNTable.sorted_perm (ρ : IterOrder) (table : TopNTable) :
    (table.sorted ρ).Perm table.edges.items :=
  (List.perm_insertionSort _ _).trans (shuffle_perm ρ _)

/-- **A record keeps or drops, and nothing else**: what is stored afterwards
and what the prune dropped are together the bumped entries. -/
theorem EdgeAccumulator.record_perm (ρ : IterOrder) (acc : EdgeAccumulator)
    (fromAddr toAddr : UInt64) :
    ((acc.record ρ fromAddr toAddr).edges.items ++ acc.dropped ρ fromAddr toAddr).Perm
      (HashMap.items (acc.edges.bump ⟨fromAddr, toAddr⟩ 1)) := by
  cases acc with
  | streaming map =>
      show (HashMap.items (map.edges.bump ⟨fromAddr, toAddr⟩ 1) ++ []).Perm _
      rw [List.append_nil]
      exact List.Perm.refl _
  | topN table =>
      show ((table.record ρ fromAddr toAddr).edges.items
        ++ table.dropped ρ fromAddr toAddr).Perm
          (HashMap.items (table.edges.bump ⟨fromAddr, toAddr⟩ 1))
      unfold TopNTable.record TopNTable.dropped TopNTable.prune
      dsimp only
      generalize table.edges.bump ⟨fromAddr, toAddr⟩ 1 = bumped
      by_cases hover : (table.capacity * 2).toNat < bumped.len
      · by_cases hcap : bumped.len ≤ table.capacity.toNat
        · -- the prune returns early
          rw [if_pos hover, if_pos hcap, if_neg (by omega), List.append_nil]
        · rw [if_pos hover, if_neg hcap, if_pos ⟨hover, by omega⟩]
          -- kept and dropped entries are the two parts of the sorted list
          have hsorted := TopNTable.sorted_perm ρ { table with edges := bumped }
          have hnd : (((TopNTable.sorted ρ { table with edges := bumped }).take
              table.capacity.toNat).map Prod.fst).Nodup := by
            rw [List.map_take]
            exact ((hsorted.map Prod.fst).nodup_iff.mpr bumped.items_nodup).sublist
              (List.take_sublist _ _)
          refine ((items_ofList_perm _ hnd).append_right _).trans ?_
          rw [List.take_append_drop]
          exact hsorted
      · rw [if_neg hover, if_neg (by omega), List.append_nil]

/-- Draining lists the stored edges and empties the store. -/
theorem EdgeAccumulator.drain_eq (ρ : IterOrder) (acc : EdgeAccumulator) :
    (acc.drain ρ).1 = (acc.edges.iter ρ).map toTriple ∧ (acc.drain ρ).2.edges = ∅ := by
  cases acc with
  | topN table => exact ⟨rfl, rfl⟩
  | streaming map => exact ⟨rfl, rfl⟩

end QemuProfiler.Plugin

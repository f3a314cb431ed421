/-
  QemuProfiler.Lib.SortedIndex
  ────────────────────────────
  LOOK-UP IN A SORTED LIST: the last entry whose key is at or before `x`, as
  a binary search (`partition_point`) or an ordered map (`range(..=x)`) finds
  it.

    • `takeWhile_eq_filter` — on a sorted list the entries at or before `x`
      are a prefix,
    • `lastAtOrBefore_eq_some` — the entry found is one with the greatest key
      at or before `x`,
    • `exists_sorted_lastAtOrBefore` — and ANY such entry is found in some
      sorted order of the list: ties are not decided by the keys.
-/
import Mathlib.Data.List.Sort

namespace QemuProfiler.Lib

/-- A list in the order of its keys. -/
def SortedBy {α κ : Type} [LE κ] (key : α → κ) (l : List α) : Prop := l.Pairwise fun a b => key a ≤ key b

/-- The last entry at or before `x`. -/
def lastAtOrBefore {α κ : Type} [LE κ] [DecidableLE κ] (key : α → κ) (l : List α) (x : κ) : Option α :=
  (l.takeWhile fun e => key e ≤ x).getLast?

variable {α κ : Type} [LE κ] [DecidableLE κ] [Std.IsLinearPreorder κ]
  {key : α → κ} {l : List α}

/-- The entries at or before `x` are a prefix. -/
theorem takeWhile_eq_filter (h : SortedBy key l) (x : κ) :
    (l.takeWhile fun e => key e ≤ x) = l.filter fun e => key e ≤ x := by
  induction l with
  | nil => rfl
  | cons a l ih =>
      have hal := List.pairwise_cons.mp h
      by_cases ha : key a ≤ x
      · rw [List.takeWhile_cons_of_pos (by simpa using ha), List.filter_cons_of_pos (by simpa using ha),
            ih hal.2]
      · -- every later key is beyond `x` as well
        have hnone : (l.filter fun e => key e ≤ x) = [] := by
          rw [List.filter_eq_nil_iff]
          intro b hb hbx
          exact ha (Std.le_trans (hal.1 b hb) (by simpa using hbx))
        rw [List.takeWhile_cons_of_neg (by simpa using ha), List.filter_cons_of_neg (by simpa using ha),
            hnone]

theorem lastAtOrBefore_eq_none (h : SortedBy key l) {x : κ} :
    lastAtOrBefore key l x = none ↔ ∀ e ∈ l, ¬ key e ≤ x := by
  unfold lastAtOrBefore
  rw [List.getLast?_eq_none_iff, takeWhile_eq_filter h, List.filter_eq_nil_iff]
  simp

/-- **The entry found** has the greatest key at or before `x`. -/
theorem lastAtOrBefore_eq_some (h : SortedBy key l) {x : κ} {e : α}
    (he : lastAtOrBefore key l x = some e) :
    e ∈ l ∧ key e ≤ x ∧ ∀ f ∈ l, key f ≤ x → key f ≤ key e := by
  unfold lastAtOrBefore at he
  rw [takeWhile_eq_filter h] at he
  obtain ⟨front, hfront⟩ := List.getLast?_eq_some_iff.mp he
  have hmem : e ∈ l.filter fun e => key e ≤ x := by rw [hfront]; simp
  have hle : key e ≤ x := by simpa using (List.mem_filter.mp hmem).2
  refine ⟨(List.mem_filter.mp hmem).1, hle, ?_⟩
  intro f hf hfx
  have hsorted : (front ++ [e]).Pairwise fun a b => key a ≤ key b := by
    rw [← hfront]
    exact h.filter _
  have hfmem : f ∈ front ++ [e] := by
    rw [← hfront]
    exact List.mem_filter.mpr ⟨hf, by simpa using hfx⟩
  rcases List.mem_append.mp hfmem with hin | hin
  · exact (List.pairwise_append.mp hsorted).2.2 f hin e (by simp)
  · rw [List.mem_singleton.mp hin]
    exact Std.le_refl _

/-- Sorting by keys. -/
theorem sortedBy_insertionSort (key : α → κ) (l : List α) :
    SortedBy key (l.insertionSort fun a b => key a ≤ key b) := by
  have : Std.Total (fun a b : α => key a ≤ key b) := ⟨fun a b => Std.le_total (a := key a) (b := key b)⟩
  have : IsTrans α (fun a b => key a ≤ key b) := ⟨fun a b c => Std.le_trans⟩
  exact List.pairwise_insertionSort _ l

/-- **Ties are free**: an entry with the greatest key at or before `x` is the
one found in some sorted order. -/
theorem exists_sorted_lastAtOrBefore (key : α → κ) {x : κ} {e : α} {rest : List α}
    (hle : key e ≤ x) (hmax : ∀ f ∈ rest, key f ≤ x → key f ≤ key e) :
    ∃ l', l'.Perm (e :: rest) ∧ SortedBy key l' ∧ lastAtOrBefore key l' x = some e := by
  let low := (rest.filter fun f => key f ≤ x).insertionSort fun a b => key a ≤ key b
  let high := (rest.filter fun f => !decide (key f ≤ x)).insertionSort fun a b => key a ≤ key b
  have hlow : low.Perm (rest.filter fun f => key f ≤ x) := List.perm_insertionSort _ _
  have hhigh : high.Perm (rest.filter fun f => !decide (key f ≤ x)) := List.perm_insertionSort _ _
  have hmemLow : ∀ f ∈ low, key f ≤ key e ∧ key f ≤ x := by
    intro f hf
    have hmem := List.mem_filter.mp (hlow.mem_iff.mp hf)
    have hfx : key f ≤ x := by simpa using hmem.2
    exact ⟨hmax f hmem.1 hfx, hfx⟩
  have hmemHigh : ∀ f ∈ high, ¬ key f ≤ x := by
    intro f hf
    have hmem := List.mem_filter.mp (hhigh.mem_iff.mp hf)
    simpa using hmem.2
  have hbeyond : ∀ f ∈ high, x ≤ key f := by
    intro f hf
    exact (Std.le_total (a := x) (b := key f)).resolve_right (hmemHigh f hf)
  refine ⟨low ++ e :: high, ?_, ?_, ?_⟩
  · have hsplit : (low ++ high).Perm rest := by
      refine (hlow.append hhigh).trans ?_
      exact List.filter_append_perm (fun f => decide (key f ≤ x)) rest
    exact List.perm_middle.trans (hsplit.cons e)
  · refine List.pairwise_append.mpr ⟨sortedBy_insertionSort key _, ?_, ?_⟩
    · refine List.pairwise_cons.mpr ⟨?_, sortedBy_insertionSort key _⟩
      intro f hf
      exact Std.le_trans hle (hbeyond f hf)
    · intro f hf g hg
      rcases List.mem_cons.mp hg with hge | hgin
      · rw [hge]
        exact (hmemLow f hf).1
      · exact Std.le_trans (hmemLow f hf).2 (hbeyond g hgin)
  · -- the search stops at the first entry of `high`
    have htake : ((low ++ e :: high).takeWhile fun f => key f ≤ x) = low ++ [e] := by
      rw [List.takeWhile_append_of_pos (by intro f hf; simpa using (hmemLow f hf).2),
          List.takeWhile_cons_of_pos (by simpa using hle)]
      congr 2
      cases hcases : high with
      | nil => rfl
      | cons f fs =>
          have hf : ¬ key f ≤ x := hmemHigh f (by rw [hcases]; simp)
          exact List.takeWhile_cons_of_neg (by simpa using hf)
    unfold lastAtOrBefore
    rw [htake, List.getLast?_concat]

end QemuProfiler.Lib

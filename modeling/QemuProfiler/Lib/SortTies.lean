/-
  QemuProfiler.Lib.SortTies
  ─────────────────────────
  STABLE SORTING BY A KEY, greatest key first, and what it leaves to the order
  of its input.

    • `map_sortDesc_eq_of_perm` — when entries of equal key look alike,
      the sorted list looks the same for every order of the input,
    • `key_le_of_drop_sortDesc` — its first entries are the greatest,
    • `sortDesc_ties` — entries of equal key stay as they come: two of
      them in front of the input change places with their places there.
-/
import Mathlib.Data.List.Sort
import Mathlib.Data.List.TakeWhile

namespace QemuProfiler.Lib

variable {α κ : Type} [LE κ] [DecidableLE κ]

/-- Greatest key first; equal keys as they come. -/
def sortDesc (key : α → κ) (l : List α) : List α := l.insertionSort fun a b => key b ≤ key a

theorem sortDesc_perm (key : α → κ) (l : List α) : (sortDesc key l).Perm l :=
  List.perm_insertionSort _ l

theorem sortDesc_pairwise [Std.IsLinearPreorder κ] (key : α → κ) (l : List α) :
    (sortDesc key l).Pairwise fun a b => key b ≤ key a := by
  have : Std.Total (fun a b : α => key b ≤ key a) :=
    ⟨fun a b => Std.le_total (a := key b) (b := key a)⟩
  have : IsTrans α (fun a b => key b ≤ key a) := ⟨fun a b c hab hbc => Std.le_trans hbc hab⟩
  exact List.pairwise_insertionSort _ l

/-- **The first entries are the greatest.** -/
theorem key_le_of_drop_sortDesc [Std.IsLinearPreorder κ] (key : α → κ) (l : List α) (n : Nat) :
    ∀ a ∈ (sortDesc key l).take n, ∀ b ∈ (sortDesc key l).drop n, key b ≤ key a := by
  have hsorted := sortDesc_pairwise key l
  rw [← List.take_append_drop n (sortDesc key l), List.pairwise_append] at hsorted
  exact hsorted.2.2

/-- **Ties that look alike do not show**: the sorted list is the same picture
for every order of the input. -/
theorem map_sortDesc_eq_of_perm [Std.IsLinearOrder κ] {γ : Type} (key : α → κ) (f : α → γ)
    {l l' : List α} (hperm : l.Perm l')
    (hties : ∀ a ∈ l, ∀ b ∈ l, key a = key b → f a = f b) :
    (sortDesc key l).map f = (sortDesc key l').map f := by
  have hsort : (sortDesc key l).Perm (sortDesc key l') :=
    (sortDesc_perm key l).trans (hperm.trans (sortDesc_perm key l').symm)
  -- with its key beside it, every picture has one place in the order
  have hpairs : (sortDesc key l).map (fun a => (key a, f a))
      = (sortDesc key l').map fun a => (key a, f a) := by
    have hsorted : ∀ m : List α, ((sortDesc key m).map fun a => (key a, f a)).Pairwise
        fun x y => y.1 ≤ x.1 :=
      fun m => List.pairwise_map.mpr (sortDesc_pairwise key m)
    refine List.Perm.eq_of_pairwise ?_ (hsorted l) (hsorted l') (hsort.map _)
    intro x y hx hy hxy hyx
    obtain ⟨a, ha, hxa⟩ := List.mem_map.mp hx
    obtain ⟨b, hb, hyb⟩ := List.mem_map.mp hy
    subst hxa hyb
    have hkey : key a = key b := Std.le_antisymm hyx hxy
    have hpicture := hties a ((sortDesc_perm key l).mem_iff.mp ha) b
      ((sortDesc_perm key l).mem_iff.mp (hsort.mem_iff.mpr hb)) hkey
    rw [hkey, hpicture]
  have hsnd := congrArg (List.map Prod.snd) hpairs
  rw [List.map_map, List.map_map] at hsnd
  exact hsnd

theorem takeWhile_append_cons_of_neg {p : α → Bool} {front : List α} {b : α} (back : List α)
    (hfront : ∀ c ∈ front, p c = true) (hb : ¬ p b = true) :
    (front ++ b :: back).takeWhile p = front
      ∧ (front ++ b :: back).dropWhile p = b :: back := by
  constructor
  · rw [List.takeWhile_append_of_pos hfront, List.takeWhile_cons_of_neg hb, List.append_nil]
  · rw [List.dropWhile_append_of_pos hfront, List.dropWhile_cons_of_neg hb]

/-- **Ties stay as they come.** -/
theorem sortDesc_ties [Std.IsLinearPreorder κ] (key : α → κ) {a b : α} (h : key a = key b)
    (l : List α) :
    ∃ front back, sortDesc key (a :: b :: l) = front ++ a :: b :: back
      ∧ sortDesc key (b :: a :: l) = front ++ b :: a :: back := by
  have hinsert : ∀ c d : α, key c = key d →
      sortDesc key (c :: d :: l)
        = ((sortDesc key l).takeWhile fun e => ¬ key e ≤ key d)
          ++ c :: d :: (sortDesc key l).dropWhile fun e => ¬ key e ≤ key d := by
    intro c d hcd
    have hd : sortDesc key (d :: l)
        = ((sortDesc key l).takeWhile fun e => ¬ key e ≤ key d)
          ++ d :: (sortDesc key l).dropWhile fun e => ¬ key e ≤ key d :=
      List.insertionSort_cons_eq_take_drop _ d l
    have hc : sortDesc key (c :: d :: l)
        = ((sortDesc key (d :: l)).takeWhile fun e => ¬ key e ≤ key c)
          ++ c :: (sortDesc key (d :: l)).dropWhile fun e => ¬ key e ≤ key c :=
      List.insertionSort_cons_eq_take_drop _ c (d :: l)
    have hgreater : ∀ e ∈ (sortDesc key l).takeWhile fun e => ¬ key e ≤ key d,
        decide (¬ key e ≤ key d) = true := by
      intro e he
      exact List.mem_takeWhile_imp (p := fun e => decide (¬ key e ≤ key d)) he
    -- the walk past the greater keys stops at the first of the two
    obtain ⟨htake, hdrop⟩ := takeWhile_append_cons_of_neg (b := d)
      ((sortDesc key l).dropWhile fun e => ¬ key e ≤ key d) hgreater (by simp)
    rw [hc, hcd, hd, htake, hdrop]
  refine ⟨(sortDesc key l).takeWhile fun e => ¬ key e ≤ key b,
    (sortDesc key l).dropWhile fun e => ¬ key e ≤ key b, hinsert a b h, ?_⟩
  rw [hinsert b a h.symm, h]

end QemuProfiler.Lib

/-
  QemuProfiler.Lib.Options
  ────────────────────────
  ARGUMENTS OF THE FORM `key=value`: an argument belongs to the key it starts
  with, and a reader goes through the arguments once.

    • `stripPrefix_unique` — no argument belongs to two keys of which neither
      starts with the other,
    • `foldl_last` — what a reader overwrites has the last value given,
    • `foldl_appends` — what a reader appends to has all of them, in order,
    • `values_of_perm` — an argument given once is read wherever it stands.
-/
import Mathlib.Data.List.Basic
import Mathlib.Data.List.Perm.Basic

namespace QemuProfiler.Lib

/-! ## §1. Keys. -/

/-- What follows the key, if the argument starts with it. -/
def stripPrefix (key arg : String) : Option String :=
  (key.toList.isPrefixOf? arg.toList).map String.ofList

theorem stripPrefix_eq_some {key arg val : String} :
    stripPrefix key arg = some val ↔ arg = key ++ val := by
  unfold stripPrefix
  rw [Option.map_eq_some_iff]
  constructor
  · rintro ⟨rest, hrest, rfl⟩
    have happ := List.isPrefixOf?_eq_some_iff_append_eq.mp hrest
    apply String.toList_injective
    rw [String.toList_append, String.toList_ofList, happ]
  · rintro rfl
    refine ⟨val.toList, ?_, String.ofList_toList⟩
    exact List.isPrefixOf?_eq_some_iff_append_eq.mpr String.toList_append.symm

@[simp] theorem stripPrefix_append (key val : String) : stripPrefix key (key ++ val) = some val :=
  stripPrefix_eq_some.mpr rfl

/-- Neither key starts with the other. -/
def Apart (key other : String) : Prop :=
  ¬ key.toList <+: other.toList ∧ ¬ other.toList <+: key.toList

instance (key other : String) : Decidable (Apart key other) :=
  inferInstanceAs (Decidable (_ ∧ _))

/-- **AN ARGUMENT BELONGS TO ONE KEY.** -/
theorem stripPrefix_unique {key other arg val : String} (hapart : Apart key other)
    (h : stripPrefix key arg = some val) : stripPrefix other arg = none := by
  cases hother : stripPrefix other arg with
  | none => rfl
  | some val' =>
      have hkey : key.toList <+: arg.toList :=
        ⟨val.toList, by rw [stripPrefix_eq_some.mp h, String.toList_append]⟩
      have hkey' : other.toList <+: arg.toList :=
        ⟨val'.toList, by rw [stripPrefix_eq_some.mp hother, String.toList_append]⟩
      rcases List.prefix_or_prefix_of_prefix hkey hkey' with hp | hp
      · exact absurd hp hapart.1
      · exact absurd hp hapart.2

/-- The values given for a key, in order. -/
def values (key : String) (args : List String) : List String := args.filterMap (stripPrefix key)

/-! ## §2. Readers. -/

section Readers

variable {σ α β : Type} {step : σ → α → σ}

/-- **THE LAST VALUE WINS**: a part of the state that a step overwrites or
leaves alone. -/
theorem foldl_last (view : σ → β) (write : α → Option β)
    (h : ∀ s a, view (step s a) = (write a).getD (view s)) (l : List α) :
    ∀ s, view (l.foldl step s) = (l.filterMap write).getLastD (view s) := by
  induction l with
  | nil =>
      intro s
      rfl
  | cons a l ih =>
      intro s
      rw [List.foldl_cons, ih, h]
      cases hw : write a with
      | none => rw [List.filterMap_cons_none hw]; rfl
      | some b => rw [List.filterMap_cons_some hw, List.getLastD_cons]; rfl

/-- **ALL VALUES STAY**: a part of the state that a step appends to. -/
theorem foldl_appends (view : σ → List β) (given : α → List β)
    (h : ∀ s a, view (step s a) = view s ++ given a) (l : List α) :
    ∀ s, view (l.foldl step s) = view s ++ l.flatMap given := by
  induction l with
  | nil =>
      intro s
      exact (List.append_nil _).symm
  | cons a l ih =>
      intro s
      rw [List.foldl_cons, ih, h, List.flatMap_cons, List.append_assoc]

end Readers

/-! ## §3. The order of the arguments. -/

/-- The argument belongs to one of the keys. -/
def isOption (keys : List String) (arg : String) : Bool :=
  keys.any fun key => (stripPrefix key arg).isSome

/-- Other arguments give no value. -/
theorem values_filter {keys : List String} {key : String} (hkey : key ∈ keys)
    (args : List String) : values key (args.filter (isOption keys)) = values key args := by
  induction args with
  | nil => rfl
  | cons arg args ih =>
      unfold values at ih ⊢
      by_cases harg : isOption keys arg = true
      · rw [List.filter_cons_of_pos harg, List.filterMap_cons, List.filterMap_cons, ih]
      · have hnone : stripPrefix key arg = none := by
          cases hs : stripPrefix key arg with
          | none => rfl
          | some val =>
              exact absurd (List.any_eq_true.mpr ⟨key, hkey, by rw [hs]; rfl⟩) harg
        rw [List.filter_cons_of_neg harg, List.filterMap_cons_none hnone, ih]

/-- **WHERE AN ARGUMENT STANDS DOES NOT MATTER** when its key is given once. -/
theorem values_of_perm {keys : List String} {key : String} (hkey : key ∈ keys)
    {args given : List String} (hperm : (args.filter (isOption keys)).Perm given)
    (honce : (values key given).length ≤ 1) : values key args = values key given := by
  have hvalues : (values key args).Perm (values key given) := by
    rw [← values_filter hkey args]
    exact hperm.filterMap _
  cases hg : values key given with
  | nil =>
      rw [hg] at hvalues
      exact hvalues.eq_nil
  | cons val rest =>
      rw [hg] at hvalues honce
      have hrest : rest = [] := List.length_eq_zero_iff.mp (by simpa using honce)
      rw [hrest] at hvalues ⊢
      exact hvalues.eq_singleton

end QemuProfiler.Lib

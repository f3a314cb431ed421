/-
  QemuProfiler.Lib.Stamps
  ───────────────────────
  Entries of a trace FIRE, depending on their past; the firing entries get
  consecutive numbers, and a key keeps the LAST number given to it.

    • `fired` — the keys in firing order,
    • `lastRank` — the number a key keeps, 0 if it never fired,
    • `lastRank_lt_iff` — the order of the numbers of two keys.
-/
import QemuProfiler.Lib.Trace

namespace QemuProfiler.Lib

variable {α κ : Type}

/-! ## §1. Firing entries. -/

/-- The keys of the firing entries, in order. -/
def fired (f : List α → α → Bool) (key : α → κ) (l : List α) : List κ :=
  ((withPast l).filter fun e => f e.1 e.2).map fun e => key e.2

theorem fired_concat (f : List α → α → Bool) (key : α → κ) (l : List α) (x : α) :
    fired f key (l ++ [x]) = fired f key l ++ (if f l x then [key x] else []) := by
  unfold fired
  rw [withPast_concat, List.filter_append, List.map_append]
  by_cases hx : f l x = true
  · simp [hx]
  · simp [hx]

theorem mem_fired {f : List α → α → Bool} {key : α → κ} {l : List α} {k : κ} :
    k ∈ fired f key l ↔ ∃ e ∈ withPast l, f e.1 e.2 = true ∧ key e.2 = k := by
  unfold fired
  simp only [List.mem_map, List.mem_filter, and_assoc]

theorem length_fired_le (f : List α → α → Bool) (key : α → κ) (l : List α) :
    (fired f key l).length ≤ l.length := by
  induction l using List.reverseRecOn with
  | nil => exact Nat.zero_le _
  | append_singleton l x ih =>
      rw [fired_concat, List.length_append, List.length_append]
      by_cases hx : f l x = true
      · rw [if_pos hx]
        show _ + 1 ≤ _ + 1
        omega
      · rw [if_neg hx]
        show _ + 0 ≤ _ + 1
        omega

/-! ## §2. The number a key keeps. -/

variable [DecidableEq κ]

/-- Position of the last occurrence, counted from 1. -/
def lastRank (k : κ) (l : List κ) : Nat := (l.reverse.dropWhile fun x => x ≠ k).length

theorem lastRank_concat (k : κ) (l : List κ) (x : κ) :
    lastRank k (l ++ [x]) = if x = k then l.length + 1 else lastRank k l := by
  unfold lastRank
  rw [List.reverse_append, List.reverse_singleton, List.singleton_append, List.dropWhile_cons]
  by_cases hx : x = k
  · simp [hx]
  · simp [hx]

theorem lastRank_le_length (k : κ) (l : List κ) : lastRank k l ≤ l.length := by
  induction l using List.reverseRecOn with
  | nil => exact Nat.zero_le _
  | append_singleton l x ih =>
      rw [lastRank_concat, List.length_append, List.length_singleton]
      by_cases hx : x = k
      · exact Nat.le_of_eq (if_pos hx)
      · rw [if_neg hx]
        omega

theorem lastRank_eq_zero (k : κ) (l : List κ) : lastRank k l = 0 ↔ k ∉ l := by
  induction l using List.reverseRecOn with
  | nil => simp [lastRank]
  | append_singleton l x ih =>
      rw [lastRank_concat, List.mem_append, List.mem_singleton]
      by_cases hx : x = k
      · simp [hx]
      · rw [if_neg hx, ih]
        simp [Ne.symm hx]

/-! ## §3. The order of two keys. -/

/-- Position in the trace, counted from 1, of the last entry at which the key
fires; 0 if it never does. -/
def lastFire (f : List α → α → Bool) (key : α → κ) (k : κ) (l : List α) : Nat :=
  ((withPast l).reverse.dropWhile fun e => ¬ (f e.1 e.2 = true ∧ key e.2 = k)).length

theorem lastFire_concat (f : List α → α → Bool) (key : α → κ) (k : κ) (l : List α) (x : α) :
    lastFire f key k (l ++ [x])
      = if f l x = true ∧ key x = k then l.length + 1 else lastFire f key k l := by
  -- one entry with its past for every entry of the trace
  have hlen : (withPast l).length = l.length := by
    conv_rhs => rw [← map_snd_withPast l]
    rw [List.length_map]
  unfold lastFire
  rw [withPast_concat, List.reverse_append, List.reverse_singleton, List.singleton_append,
      List.dropWhile_cons]
  by_cases hx : f l x = true ∧ key x = k
  · simp [hx, hlen]
  · simp [hx]

theorem lastFire_le_length (f : List α → α → Bool) (key : α → κ) (k : κ) (l : List α) :
    lastFire f key k l ≤ l.length := by
  induction l using List.reverseRecOn with
  | nil => exact Nat.zero_le _
  | append_singleton l x ih =>
      rw [lastFire_concat, List.length_append, List.length_singleton]
      by_cases hx : f l x = true ∧ key x = k
      · exact Nat.le_of_eq (if_pos hx)
      · rw [if_neg hx]
        omega

/-- Firing is looked at for the entries of the trace only. -/
theorem lastFire_congr (f g : List α → α → Bool) (key : α → κ) (k : κ) (l : List α)
    (h : Along (fun past a => f past a = g past a) l) :
    lastFire f key k l = lastFire g key k l := by
  induction l using List.reverseRecOn with
  | nil => rfl
  | append_singleton l x ih =>
      obtain ⟨hl, hx⟩ := (along_concat _ l x).mp h
      rw [lastFire_concat, lastFire_concat, ih hl, hx]

/-- **THE ORDER OF THE NUMBERS** is the order of the last firings. -/
theorem lastRank_lt_iff (f : List α → α → Bool) (key : α → κ) (a b : κ) (l : List α) :
    lastRank a (fired f key l) < lastRank b (fired f key l)
      ↔ lastFire f key a l < lastFire f key b l := by
  induction l using List.reverseRecOn with
  | nil => exact Iff.rfl
  | append_singleton l x ih =>
      have ha := lastRank_le_length a (fired f key l)
      have hb := lastRank_le_length b (fired f key l)
      have ha' := lastFire_le_length f key a l
      have hb' := lastFire_le_length f key b l
      rw [fired_concat, lastFire_concat, lastFire_concat]
      by_cases hx : f l x = true
      · -- a new number: the key that has it is the last one on both sides
        rw [if_pos hx, lastRank_concat, lastRank_concat]
        by_cases hxa : key x = a
        · by_cases hxb : key x = b
          · simp [hx, hxa, hxa.symm.trans hxb]
          · rw [if_pos hxa, if_neg hxb, if_pos ⟨hx, hxa⟩, if_neg (fun h => hxb h.2)]
            omega
        · by_cases hxb : key x = b
          · rw [if_neg hxa, if_pos hxb, if_neg (fun h => hxa h.2), if_pos ⟨hx, hxb⟩]
            omega
          · rw [if_neg hxa, if_neg hxb, if_neg (fun h => hxa h.2), if_neg (fun h => hxb h.2), ih]
      · rw [if_neg hx, List.append_nil, if_neg (fun h => hx h.1), if_neg (fun h => hx h.1), ih]

end QemuProfiler.Lib

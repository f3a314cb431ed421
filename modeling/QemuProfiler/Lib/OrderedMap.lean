/-
  QemuProfiler.Lib.OrderedMap
  ───────────────────────────
  ORDERED MAPS as the list of their values: a value carries its key, and the
  list is strictly increasing in the keys.

    • `get_insert` — an insertion replaces the value of its key and no other,
    • `insertBest` — keep the better one of two values under one key,
    • `get_foldl_insertBest` — the value left under a key is the FIRST one of
      the greatest rank, whatever came for the other keys.
-/
import Mathlib.Data.List.MinMax
import Mathlib.Data.List.Nodup

namespace QemuProfiler.Lib

namespace OrderedMap

variable {α κ : Type} {key : α → κ} {m : List α}

/-! ## §1. Look-up and insertion. -/

/-- One value per key, in the order of the keys. -/
def Ordered [LT κ] (key : α → κ) (m : List α) : Prop := m.Pairwise fun a b => key a < key b

/-- `map.get(&k)`. -/
def get [DecidableEq κ] (key : α → κ) (m : List α) (k : κ) : Option α :=
  m.find? fun a => key a = k

/-- `map.insert(key(x), x)`. -/
def insert [LT κ] [DecidableLT κ] (key : α → κ) (x : α) : List α → List α
  | [] => [x]
  | a :: m =>
      if key x < key a then x :: a :: m
      else if key a < key x then a :: insert key x m
      else x :: m

variable [LT κ] [LE κ] [Std.LawfulOrderLT κ]

/-- Values with one key are one value. -/
theorem Ordered.eq_of_key [Std.IsPreorder κ] (h : Ordered key m) {a b : α} (ha : a ∈ m)
    (hb : b ∈ m) (hkey : key a = key b) : a = b := by
  have hnd : (m.map key).Nodup := List.pairwise_map.mpr (h.imp fun hlt => Std.ne_of_lt hlt)
  exact List.inj_on_of_nodup_map hnd ha hb hkey

theorem get_eq_some_iff [Std.IsPreorder κ] [DecidableEq κ] (h : Ordered key m) {k : κ} {a : α} :
    get key m k = some a ↔ a ∈ m ∧ key a = k := by
  unfold get
  constructor
  · intro hget
    exact ⟨List.mem_of_find?_eq_some hget, by simpa using List.find?_some hget⟩
  · intro ha
    obtain ⟨hmem, hkey⟩ := ha
    cases hfind : m.find? fun b => decide (key b = k) with
    | none => exact absurd hkey (by simpa using List.find?_eq_none.mp hfind a hmem)
    | some b =>
        have hb : key b = k := by simpa using List.find?_some hfind
        rw [h.eq_of_key (List.mem_of_find?_eq_some hfind) hmem (hb.trans hkey.symm)]

variable [Std.IsLinearOrder κ] [DecidableLT κ]

theorem mem_insert (h : Ordered key m) {x a : α} :
    a ∈ insert key x m ↔ a = x ∨ a ∈ m ∧ key a ≠ key x := by
  induction m with
  | nil => simp [insert]
  | cons b m ih =>
      have hbm := List.pairwise_cons.mp h
      unfold insert
      by_cases hlt : key x < key b
      · -- everything present is beyond `x`
        have hbeyond : ∀ c ∈ b :: m, key c ≠ key x := by
          intro c hc
          rcases List.mem_cons.mp hc with hcb | hcm
          · rw [hcb]
            exact (Std.ne_of_lt hlt).symm
          · exact (Std.ne_of_lt (Std.lt_trans hlt (hbm.1 c hcm))).symm
        rw [if_pos hlt, List.mem_cons]
        constructor
        · intro ha
          exact ha.imp id fun hmem => ⟨hmem, hbeyond a hmem⟩
        · intro ha
          exact ha.imp id And.left
      · rw [if_neg hlt]
        by_cases hgt : key b < key x
        · have hb : key b ≠ key x := Std.ne_of_lt hgt
          rw [if_pos hgt, List.mem_cons, List.mem_cons, ih hbm.2]
          constructor
          · intro ha
            rcases ha with hab | hax | hmem
            · exact .inr ⟨.inl hab, hab ▸ hb⟩
            · exact .inl hax
            · exact .inr ⟨.inr hmem.1, hmem.2⟩
          · intro ha
            rcases ha with hax | ⟨hab | hmem, hne⟩
            · exact .inr (.inl hax)
            · exact .inl hab
            · exact .inr (.inr ⟨hmem, hne⟩)
        · -- the value under the same key gives way
          have hb : key b = key x := Std.le_antisymm (Std.not_lt.mp hlt) (Std.not_lt.mp hgt)
          rw [if_neg hgt, List.mem_cons, List.mem_cons]
          constructor
          · intro ha
            rcases ha with hax | hmem
            · exact .inl hax
            · exact .inr ⟨.inr hmem, hb ▸ (Std.ne_of_lt (hbm.1 a hmem)).symm⟩
          · intro ha
            rcases ha with hax | ⟨hab | hmem, hne⟩
            · exact .inl hax
            · exact absurd (hab ▸ hb) hne
            · exact .inr hmem

theorem Ordered.insert (h : Ordered key m) (x : α) : Ordered key (insert key x m) := by
  induction m with
  | nil => exact List.pairwise_singleton _ x
  | cons b m ih =>
      have hbm := List.pairwise_cons.mp h
      unfold OrderedMap.insert
      by_cases hlt : key x < key b
      · rw [if_pos hlt]
        refine List.pairwise_cons.mpr ⟨?_, h⟩
        intro c hc
        rcases List.mem_cons.mp hc with hcb | hcm
        · rw [hcb]
          exact hlt
        · exact Std.lt_trans hlt (hbm.1 c hcm)
      · rw [if_neg hlt]
        by_cases hgt : key b < key x
        · rw [if_pos hgt]
          refine List.pairwise_cons.mpr ⟨?_, ih hbm.2⟩
          intro c hc
          rcases (mem_insert hbm.2).mp hc with hcx | hcm
          · rw [hcx]
            exact hgt
          · exact hbm.1 c hcm.1
        · have hb : key b = key x := Std.le_antisymm (Std.not_lt.mp hlt) (Std.not_lt.mp hgt)
          rw [if_neg hgt]
          refine List.pairwise_cons.mpr ⟨?_, hbm.2⟩
          intro c hc
          exact hb ▸ hbm.1 c hc

variable [DecidableEq κ]

/-- **An insertion changes its own key only.** -/
theorem get_insert (h : Ordered key m) (x : α) (k : κ) :
    get key (insert key x m) k = if key x = k then some x else get key m k := by
  ext a
  rw [get_eq_some_iff (h.insert x), mem_insert h]
  by_cases hk : key x = k
  · rw [if_pos hk, Option.some.injEq]
    constructor
    · intro ha
      obtain ⟨hax | hmem, hkey⟩ := ha
      · exact hax.symm
      · exact absurd (hkey.trans hk.symm) hmem.2
    · intro hax
      exact ⟨.inl hax.symm, hax ▸ hk⟩
  · rw [if_neg hk, get_eq_some_iff h]
    constructor
    · intro ha
      obtain ⟨hax | hmem, hkey⟩ := ha
      · exact absurd (hax ▸ hkey) hk
      · exact ⟨hmem.1, hkey⟩
    · intro ha
      exact ⟨.inr ⟨ha.1, fun hkx => hk (hkx.symm.trans ha.2)⟩, ha.2⟩

/-! ## §2. The best value under each key. -/

section Best

variable {ρ : Type} [LinearOrder ρ]

/-- Where `argmax` stands: only lower ranks before it, none higher after it. -/
theorem argmax_split {rank : α → ρ} {l : List α} {w : α} (h : l.argmax rank = some w) :
    ∃ front back, l = front ++ w :: back
      ∧ (∀ a ∈ front, rank a < rank w) ∧ ∀ a ∈ back, rank a ≤ rank w := by
  induction l with
  | nil => cases h
  | cons a l ih =>
      rw [List.argmax_cons] at h
      cases hrest : l.argmax rank with
      | none =>
          rw [hrest] at h
          obtain rfl := Option.some.inj h
          rw [List.argmax_eq_none.mp hrest]
          exact ⟨[], [], rfl, by simp, by simp⟩
      | some c =>
          rw [hrest] at h
          dsimp only at h
          by_cases hlt : rank a < rank c
          · rw [if_pos hlt] at h
            obtain rfl := Option.some.inj h
            obtain ⟨front, back, hl, hfront, hback⟩ := ih hrest
            refine ⟨a :: front, back, by rw [hl, List.cons_append], ?_, hback⟩
            intro b hb
            rcases List.mem_cons.mp hb with hba | hbf
            · rw [hba]
              exact hlt
            · exact hfront b hbf
          · -- nothing later is better than the first
            rw [if_neg hlt] at h
            obtain rfl := Option.some.inj h
            refine ⟨[], l, rfl, by simp, ?_⟩
            intro b hb
            exact (List.le_of_mem_argmax hb hrest).trans (not_lt.mp hlt)

/-- Insert, unless the value under the key is as good. -/
def insertBest (key : α → κ) (rank : α → ρ) (m : List α) (x : α) : List α :=
  match get key m (key x) with
  | none => insert key x m
  | some best => if rank best < rank x then insert key x m else m

theorem Ordered.insertBest (rank : α → ρ) (h : Ordered key m) (x : α) :
    Ordered key (insertBest key rank m x) := by
  unfold OrderedMap.insertBest
  cases get key m (key x) with
  | none => exact h.insert x
  | some best =>
      dsimp only
      split
      · exact h.insert x
      · exact h

theorem Ordered.foldl_insertBest (rank : α → ρ) (l : List α) :
    ∀ {m : List α}, Ordered key m → Ordered key (l.foldl (OrderedMap.insertBest key rank) m) := by
  induction l with
  | nil => intro m h; exact h
  | cons x l ih => intro m h; exact ih (h.insertBest rank x)

/-- One value: its key moves on as `argmax` does, the others stay. -/
theorem get_insertBest (rank : α → ρ) (h : Ordered key m) (x : α) (k : κ) :
    get key (insertBest key rank m x) k
      = if key x = k then List.argAux (fun b c => rank c < rank b) (get key m k) x
        else get key m k := by
  unfold insertBest
  by_cases hk : key x = k
  · rw [if_pos hk, hk]
    cases hget : get key m k with
    | none =>
        dsimp only
        rw [get_insert h, if_pos hk]
        rfl
    | some best =>
        dsimp only [List.argAux]
        by_cases hrank : rank best < rank x
        · rw [if_pos hrank, if_pos hrank, get_insert h, if_pos hk]
        · rw [if_neg hrank, if_neg hrank, hget]
  · rw [if_neg hk]
    cases get key m (key x) with
    | none =>
        dsimp only
        rw [get_insert h, if_neg hk]
    | some best =>
        dsimp only
        split
        · rw [get_insert h, if_neg hk]
        · rfl

/-- **THE FIRST BEST VALUE WINS** under its key. -/
theorem get_foldl_insertBest (key : α → κ) (rank : α → ρ) (l : List α) (k : κ) :
    get key (l.foldl (insertBest key rank) []) k
      = (l.filter fun a => key a = k).argmax rank := by
  suffices hs : ∀ (l m : List α), Ordered key m →
      get key (l.foldl (insertBest key rank) m) k
        = (l.filter fun a => key a = k).foldl (List.argAux fun b c => rank c < rank b)
            (get key m k) from
    hs l [] List.Pairwise.nil
  intro l
  induction l with
  | nil => intro m _; rfl
  | cons x l ih =>
      intro m h
      rw [List.foldl_cons, ih _ (h.insertBest rank x), get_insertBest rank h]
      by_cases hk : key x = k
      · rw [if_pos hk, List.filter_cons_of_pos (by simpa using hk), List.foldl_cons]
      · rw [if_neg hk, List.filter_cons_of_neg (by simpa using hk)]

end Best

end OrderedMap

end QemuProfiler.Lib

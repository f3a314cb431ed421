/-
  QemuProfiler.Lib.Tally
  ──────────────────────
  Hash maps as duplicate-free association lists (Mathlib's `AList`), with an
  EXPLICIT iteration order, and the counting idiom
  `*map.entry(key).or_insert(0) += c`.

  A hash map promises no iteration order, so every traversal takes an
  `IterOrder`: a code that selects one permutation of the entries.  A
  statement that holds for all codes holds for every hasher and every
  history of the table.

    • `shuffle_perm` — an iteration visits every entry exactly once,
    • `sumWhere_items_bump` — one `bump` adds its count to every total that
      selects its key and to no other,
    • `lookup_tally` — tallying a list sums the counts key by key,
    • `natWhere_le_of_le` — counts wrap, so merging lists of them never adds to
      the true totals,
    • `TableOf.total` — what a table of occurrences holds for some of its keys
      is how often these occur.
-/
import Mathlib.Data.List.AList
import Mathlib.Data.UInt
import Mathlib.Data.List.Dedup
import Mathlib.Data.List.Perm.Basic
import Mathlib.Algebra.BigOperators.Group.List.Basic
import Mathlib.Tactic.Abel

namespace QemuProfiler.Lib

variable {α : Type} {β : Type}

/-! ## §1. Iteration orders. -/

/-- A code for one traversal order: at every step, which of the remaining
entries comes next. -/
abbrev IterOrder := List Nat

/-- Visit the entries of `l` in the order coded by the first argument. -/
def shuffle : IterOrder → List α → List α
  | [], l => l
  | n :: ns, l =>
      match l[n % l.length]? with
      | none => []
      | some x => x :: shuffle ns (l.eraseIdx (n % l.length))

/-- **A traversal visits every entry exactly once.** -/
theorem shuffle_perm (ρ : IterOrder) (l : List α) : (shuffle ρ l).Perm l := by
  induction ρ generalizing l with
  | nil => exact List.Perm.refl l
  | cons n ns ih =>
      simp only [shuffle]
      cases hx : l[n % l.length]? with
      | none =>
          -- only the empty list has no entry at an index below its length
          have hle : l.length ≤ n % l.length := List.getElem?_eq_none_iff.mp hx
          have hnil : l.length = 0 := by
            rcases Nat.eq_zero_or_pos l.length with h | h
            · exact h
            · exact absurd (Nat.mod_lt n h) (by omega)
          rw [List.eq_nil_of_length_eq_zero hnil]
      | some x =>
          obtain ⟨hlt, hval⟩ := List.getElem?_eq_some_iff.mp hx
          -- putting the chosen entry in front only permutes
          have hperm := List.getElem_cons_eraseIdx_perm hlt
          rw [hval] at hperm
          exact ((ih _).cons x).trans hperm

/-- Every order of the entries has a code. -/
theorem exists_shuffle_eq {l l' : List α} (h : l'.Perm l) : ∃ ρ, shuffle ρ l = l' := by
  induction l' generalizing l with
  | nil =>
      refine ⟨[], ?_⟩
      exact h.symm.eq_nil
  | cons x t ih =>
      -- the code starts with the position of the first entry
      obtain ⟨i, hi, hx⟩ := List.mem_iff_getElem.mp (h.mem_iff.mp List.mem_cons_self)
      have hrest : t.Perm (l.eraseIdx i) := by
        have hcons := List.getElem_cons_eraseIdx_perm hi
        rw [hx] at hcons
        exact (h.trans hcons.symm).cons_inv
      obtain ⟨ρ, hρ⟩ := ih hrest
      refine ⟨i :: ρ, ?_⟩
      simp only [shuffle, Nat.mod_eq_of_lt hi, List.getElem?_eq_getElem hi, hx, hρ]

/-! ## §2. Totals over a list of counted keys. -/

section Totals

variable [AddCommMonoid β]

/-- The total count of the entries whose key satisfies `p`. -/
def sumWhere (p : α → Bool) (l : List (α × β)) : β :=
  ((l.filter (fun e => p e.1)).map Prod.snd).sum

/-- The total count of the entries with key `k`. -/
def sumAt [DecidableEq α] (k : α) (l : List (α × β)) : β :=
  sumWhere (fun a => decide (a = k)) l

@[simp] theorem sumWhere_nil (p : α → Bool) : sumWhere p ([] : List (α × β)) = 0 := rfl

@[simp] theorem sumWhere_cons (p : α → Bool) (e : α × β) (l : List (α × β)) :
    sumWhere p (e :: l) = (if p e.1 then e.2 else 0) + sumWhere p l := by
  unfold sumWhere
  by_cases h : p e.1 = true
  · simp [h]
  · simp [h]

@[simp] theorem sumWhere_append (p : α → Bool) (l₁ l₂ : List (α × β)) :
    sumWhere p (l₁ ++ l₂) = sumWhere p l₁ + sumWhere p l₂ := by
  simp [sumWhere]

theorem sumWhere_perm (p : α → Bool) {l₁ l₂ : List (α × β)} (h : l₁.Perm l₂) :
    sumWhere p l₁ = sumWhere p l₂ :=
  ((h.filter _).map _).sum_eq

/-- Renaming the keys. -/
theorem sumWhere_map_fst {γ : Type} (p : α → Bool) (f : γ → α) (l : List (γ × β)) :
    sumWhere p (l.map fun e => (f e.1, e.2)) = sumWhere (fun c => p (f c)) l := by
  induction l with
  | nil => rfl
  | cons e l ih => rw [List.map_cons, sumWhere_cons, sumWhere_cons, ih]

theorem sumWhere_shuffle (p : α → Bool) (ρ : IterOrder) (l : List (α × β)) :
    sumWhere p (shuffle ρ l) = sumWhere p l :=
  sumWhere_perm p (shuffle_perm ρ l)

@[simp] theorem sumAt_nil [DecidableEq α] (k : α) : sumAt k ([] : List (α × β)) = 0 := rfl

@[simp] theorem sumAt_append [DecidableEq α] (k : α) (l₁ l₂ : List (α × β)) :
    sumAt k (l₁ ++ l₂) = sumAt k l₁ + sumAt k l₂ :=
  sumWhere_append _ l₁ l₂

/-- A key that does not occur has total zero. -/
theorem sumAt_eq_zero [DecidableEq α] (k : α) (l : List (α × β))
    (h : k ∉ l.map Prod.fst) : sumAt k l = 0 := by
  unfold sumAt sumWhere
  rw [List.filter_eq_nil_iff.mpr]
  · rfl
  · intro e he hk
    exact h (List.mem_map.mpr ⟨e, he, by simpa using hk⟩)

/-- Without duplicate keys the total of a key is its only count. -/
theorem sumAt_of_mem [DecidableEq α] {k : α} {c : β} {l : List (α × β)}
    (hnd : (l.map Prod.fst).Nodup) (h : (k, c) ∈ l) : sumAt k l = c := by
  induction l with
  | nil => simp at h
  | cons e l ih =>
      rw [List.map_cons, List.nodup_cons] at hnd
      unfold sumAt at ih ⊢
      rw [sumWhere_cons]
      rcases List.mem_cons.mp h with he | he
      · subst he
        -- the key does not occur again, so the rest adds nothing
        have hz : sumAt k l = 0 := sumAt_eq_zero k l hnd.1
        unfold sumAt at hz
        rw [hz]
        simp
      · have hne : e.1 ≠ k := by
          intro heq
          exact hnd.1 (heq ▸ List.mem_map.mpr ⟨(k, c), he, rfl⟩)
        rw [ih hnd.2 he]
        simp [hne]

end Totals

/-- Wrapping totals are the true totals modulo 2^64. -/
theorem sumWhere_uint64 (p : α → Bool) (l : List (α × UInt64)) :
    sumWhere p l = UInt64.ofNat (sumWhere p (l.map (fun e => (e.1, e.2.toNat)))) := by
  induction l with
  | nil => rfl
  | cons e l ih =>
      rw [List.map_cons, sumWhere_cons, sumWhere_cons, ih, UInt64.ofNat_add]
      by_cases h : p e.1 = true
      · simp [h]
      · simp [h]

/-! ## §3. Hash maps. -/

/-- A hash map: an association list whose keys do not repeat. -/
abbrev HashMap (α β : Type) := AList (fun _ : α => β)

namespace HashMap

/-- The entries, in the order of the underlying list. -/
def items (m : HashMap α β) : List (α × β) := m.entries.map (fun e => (e.1, e.2))

/-- `map.len()`. -/
def len (m : HashMap α β) : Nat := m.items.length

/-- One traversal `map.iter()` in the order coded by `ρ`. -/
def iter (ρ : IterOrder) (m : HashMap α β) : List (α × β) := shuffle ρ m.items

@[simp] theorem items_empty : items (∅ : HashMap α β) = [] := rfl

theorem keys_eq (m : HashMap α β) : m.items.map Prod.fst = m.keys := by
  simp [items, AList.keys, List.keys, Function.comp_def]

theorem items_nodup (m : HashMap α β) : (m.items.map Prod.fst).Nodup := by
  rw [keys_eq]
  exact m.keys_nodup

/-- A traversal visits every key once. -/
theorem iter_nodup (ρ : IterOrder) (m : HashMap α β) : ((m.iter ρ).map Prod.fst).Nodup :=
  ((shuffle_perm ρ m.items).map Prod.fst).nodup_iff.mpr m.items_nodup

variable [DecidableEq α]

theorem mem_items {m : HashMap α β} {k : α} {v : β} :
    (k, v) ∈ m.items ↔ m.lookup k = some v := by
  have h := AList.mem_lookup_iff (s := m) (a := k) (b := v)
  rw [Option.mem_def] at h
  rw [h]
  simp [items]

/-- A traversal visits the entries. -/
theorem mem_iter {ρ : IterOrder} {m : HashMap α β} {x : α × β} :
    x ∈ m.iter ρ ↔ m.lookup x.1 = some x.2 := by
  rw [← mem_items]
  exact (shuffle_perm ρ m.items).mem_iff

theorem items_insert (m : HashMap α β) (k : α) (v : β) :
    items (m.insert k v) = (k, v) :: items (m.erase k) := rfl

/-- Taking out a key that is present. -/
theorem items_perm_erase {m : HashMap α β} {k : α} {v : β} (h : m.lookup k = some v) :
    m.items.Perm ((k, v) :: items (m.erase k)) := by
  have hmem : Sigma.mk k v ∈ m.entries := AList.mem_lookup_iff.mp h
  have hperm : m.entries.Perm (Sigma.mk k v :: List.kerase k m.entries) := by
    obtain ⟨l₁, l₂, heq⟩ := List.append_of_mem hmem
    have hnd : (l₁ ++ Sigma.mk k v :: l₂).NodupKeys := heq ▸ m.nodupKeys
    have hk₁ : k ∉ l₁.keys := by
      intro hk
      have := hnd
      simp only [List.NodupKeys, List.keys, List.map_append, List.map_cons,
        List.nodup_append] at this
      exact this.2.2 k hk k (by simp) rfl
    rw [heq, List.kerase_append_right hk₁,
        show List.kerase k (Sigma.mk k v :: l₂) = l₂ from List.kerase_cons_eq rfl]
    exact List.perm_middle
  show (m.entries.map fun e => (e.1, e.2)).Perm
    ((k, v) :: (List.kerase k m.entries).map fun e => (e.1, e.2))
  exact hperm.map _

theorem items_erase_of_none {m : HashMap α β} {k : α} (h : m.lookup k = none) :
    items (m.erase k) = m.items := by
  have hk : k ∉ m.keys := fun hm => AList.lookup_eq_none.mp h (AList.mem_keys.mpr hm)
  show (List.kerase k m.entries).map (fun e => (e.1, e.2)) = m.items
  rw [List.kerase_of_notMem_keys hk]
  rfl

/-- `*map.entry(k).or_insert(0) += c`. -/
def bump [Add β] [Zero β] (m : HashMap α β) (k : α) (c : β) : HashMap α β :=
  m.insert k ((m.lookup k).getD 0 + c)

/-- Tally a list of counted keys into an empty map. -/
def tally [Add β] [Zero β] (l : List (α × β)) : HashMap α β :=
  l.foldl (fun m e => m.bump e.1 e.2) ∅

/-- `list.into_iter().collect()`. -/
def ofList (l : List (α × β)) : HashMap α β := l.foldl (fun m e => m.insert e.1 e.2) ∅

/-- Change the value of a key in place, if it is present. -/
def modify (m : HashMap α β) (k : α) (f : β → β) : HashMap α β :=
  match m.lookup k with
  | none => m
  | some v => m.insert k (f v)

theorem lookup_modify (m : HashMap α β) (k k' : α) (f : β → β) :
    (m.modify k f).lookup k' = if k' = k then (m.lookup k).map f else m.lookup k' := by
  unfold modify
  cases hk : m.lookup k with
  | none =>
      by_cases h : k' = k
      · rw [if_pos h, h, hk]
        rfl
      · rw [if_neg h]
  | some v =>
      by_cases h : k' = k
      · subst h
        rw [if_pos rfl, AList.lookup_insert]
        rfl
      · rw [if_neg h, AList.lookup_insert_ne h]

theorem lookup_bump [Add β] [Zero β] (m : HashMap α β) (k k' : α) (c : β) :
    (m.bump k c).lookup k'
      = if k' = k then some ((m.lookup k).getD 0 + c) else m.lookup k' := by
  unfold bump
  by_cases h : k' = k
  · subst h
    rw [AList.lookup_insert, if_pos rfl]
  · rw [AList.lookup_insert_ne h, if_neg h]

section Totals

variable [AddCommMonoid β]

/-- **One `bump` adds its count to every total that selects its key.** -/
theorem sumWhere_items_bump (p : α → Bool) (m : HashMap α β) (k : α) (c : β) :
    sumWhere p (items (m.bump k c))
      = sumWhere p m.items + (if p k then c else 0) := by
  unfold bump
  rw [items_insert, sumWhere_cons]
  cases h : m.lookup k with
  | none =>
      -- a new key starts from zero
      rw [items_erase_of_none h]
      simp [add_comm]
  | some v =>
      -- the old count moves from the erased entry into the inserted one
      rw [sumWhere_perm p (items_perm_erase h), sumWhere_cons]
      by_cases hp : p k = true
      · simp only [hp, if_true, Option.getD_some]
        abel
      · simp [hp]

theorem sumWhere_items_foldl_bump (p : α → Bool) (l : List (α × β)) (m : HashMap α β) :
    sumWhere p (items (l.foldl (fun m e => m.bump e.1 e.2) m))
      = sumWhere p m.items + sumWhere p l := by
  induction l generalizing m with
  | nil => simp
  | cons e l ih =>
      rw [List.foldl_cons, ih, sumWhere_items_bump, sumWhere_cons, add_assoc]

/-- The total of a key over the entries is the stored value. -/
theorem sumAt_items (m : HashMap α β) (k : α) : sumAt k m.items = (m.lookup k).getD 0 := by
  cases h : m.lookup k with
  | none =>
      have hk : k ∉ m.items.map Prod.fst := by
        rw [keys_eq]
        exact fun hm => AList.lookup_eq_none.mp h (AList.mem_keys.mpr hm)
      exact sumAt_eq_zero k _ hk
  | some v => exact sumAt_of_mem m.items_nodup (mem_items.mpr h)

theorem mem_foldl_bump (l : List (α × β)) (m : HashMap α β) (k : α) :
    k ∈ l.foldl (fun m e => m.bump e.1 e.2) m ↔ k ∈ m ∨ k ∈ l.map Prod.fst := by
  induction l generalizing m with
  | nil => simp
  | cons e l ih =>
      rw [List.foldl_cons, ih]
      unfold bump
      rw [AList.mem_insert, List.map_cons, List.mem_cons]
      tauto

theorem mem_tally (l : List (α × β)) (k : α) : k ∈ tally l ↔ k ∈ l.map Prod.fst := by
  rw [tally, mem_foldl_bump]
  simp

/-- A tally has as many entries as its input has distinct keys. -/
theorem len_tally (l : List (α × β)) : (tally l).len = (l.map Prod.fst).dedup.length := by
  have hperm : (l.map Prod.fst).dedup.Perm (tally l).keys := by
    rw [List.perm_ext_iff_of_nodup (List.nodup_dedup _) (tally l).keys_nodup]
    intro k
    rw [List.mem_dedup, ← mem_tally, AList.mem_keys]
  rw [hperm.length_eq, ← keys_eq, List.length_map]
  rfl

/-- A tally as long as its input merged nothing: the keys were distinct. -/
theorem nodup_of_len_tally {l : List (α × β)} (h : (tally l).len = l.length) :
    (l.map Prod.fst).Nodup := by
  -- a sublist of full length is the list itself
  have hlen : (l.map Prod.fst).dedup.length = (l.map Prod.fst).length := by
    rw [← len_tally, List.length_map]
    exact h
  rw [← (List.dedup_sublist _).eq_of_length hlen]
  exact List.nodup_dedup _

/-- **Tallying sums the counts key by key.** -/
theorem lookup_tally (l : List (α × β)) (k : α) :
    (tally l).lookup k = if k ∈ l.map Prod.fst then some (sumAt k l) else none := by
  have hsum : sumAt k (items (tally l)) = sumAt k l := by
    have := sumWhere_items_foldl_bump (fun a => decide (a = k)) l (∅ : HashMap α β)
    simpa [sumAt, tally] using this
  rw [sumAt_items] at hsum
  by_cases h : k ∈ l.map Prod.fst
  · rw [if_pos h]
    have hin : k ∈ tally l := (mem_tally l k).mpr h
    obtain ⟨v, hv⟩ := Option.isSome_iff_exists.mp (AList.lookup_isSome.mpr hin)
    rw [hv] at hsum ⊢
    rw [← hsum]
    rfl
  · rw [if_neg h]
    exact AList.lookup_eq_none.mpr (fun hin => h ((mem_tally l k).mp hin))

end Totals

end HashMap

/-! ## §4. True totals of wrapping counts. -/

/-- The total of the counts as numbers: it does not wrap. -/
def natWhere (p : α → Bool) (l : List (α × UInt64)) : Nat :=
  sumWhere p (l.map fun e => (e.1, e.2.toNat))

@[simp] theorem natWhere_nil (p : α → Bool) : natWhere p [] = 0 := rfl

@[simp] theorem natWhere_cons (p : α → Bool) (e : α × UInt64) (l : List (α × UInt64)) :
    natWhere p (e :: l) = (if p e.1 then e.2.toNat else 0) + natWhere p l :=
  sumWhere_cons p _ _

@[simp] theorem natWhere_append (p : α → Bool) (l₁ l₂ : List (α × UInt64)) :
    natWhere p (l₁ ++ l₂) = natWhere p l₁ + natWhere p l₂ := by
  unfold natWhere
  rw [List.map_append, sumWhere_append]

theorem natWhere_perm (p : α → Bool) {l₁ l₂ : List (α × UInt64)} (h : l₁.Perm l₂) :
    natWhere p l₁ = natWhere p l₂ :=
  sumWhere_perm p (h.map _)

/-- A wrapped total is at most the true one. -/
theorem toNat_sumWhere_le (p : α → Bool) (l : List (α × UInt64)) :
    (sumWhere p l).toNat ≤ natWhere p l := by
  rw [sumWhere_uint64, UInt64.toNat_ofNat']
  exact Nat.mod_le _ _

/-- A list of ones. -/
theorem natWhere_ones (p : α → Bool) (l : List α) :
    natWhere p (l.map fun a => (a, 1)) = l.countP p := by
  induction l with
  | nil => rfl
  | cons a l ih =>
      rw [List.map_cons, natWhere_cons, ih, List.countP_cons, Nat.add_comm]
      rfl

/-- The total of a key in a list of ones is its number of occurrences. -/
theorem sumAt_ones [DecidableEq α] (k : α) (l : List α) :
    sumAt k (l.map fun a => (a, (1 : UInt64))) = UInt64.ofNat (l.count k) := by
  have hones := natWhere_ones (fun a => decide (a = k)) l
  unfold natWhere at hones
  unfold sumAt
  rw [sumWhere_uint64, hones, List.count_eq_countP]
  congr 2

/-- Taking the entries of one key apart. -/
theorem natWhere_split [DecidableEq α] (p : α → Bool) (k : α) (l : List (α × UInt64)) :
    natWhere p l = (if p k then natWhere (fun a => decide (a = k)) l else 0)
      + natWhere p (l.filter fun e => e.1 ≠ k) := by
  induction l with
  | nil => simp
  | cons e l ih =>
      rw [natWhere_cons, ih]
      by_cases he : e.1 = k
      · rw [List.filter_cons_of_neg (by simpa using he)]
        subst he
        by_cases hp : p e.1 = true
        · simp only [hp, if_true, natWhere_cons, decide_true]
          omega
        · simp [hp]
      · rw [List.filter_cons_of_pos (by simpa using he)]
        simp only [natWhere_cons, he, decide_false, Bool.false_eq_true, if_false, Nat.zero_add]
        omega

/-- **A merge adds nothing**: entries with distinct keys, each at most the
total of its key, are together at most the whole total. -/
theorem natWhere_le_of_le [DecidableEq α] {l' : List (α × UInt64)}
    (hnd : (l'.map Prod.fst).Nodup) (p : α → Bool) : ∀ {l : List (α × UInt64)},
    (∀ e ∈ l', e.2.toNat ≤ natWhere (fun a => decide (a = e.1)) l) →
      natWhere p l' ≤ natWhere p l := by
  induction l' with
  | nil =>
      intro l _
      exact Nat.zero_le _
  | cons e l' ih =>
      intro l h
      rw [List.map_cons, List.nodup_cons] at hnd
      rw [natWhere_cons, natWhere_split p e.1 l]
      have hhead := h e List.mem_cons_self
      -- the other entries do not use what belongs to the first key
      have hrest := ih hnd.2 (l := l.filter fun a => a.1 ≠ e.1) (by
        intro e' he'
        have hne : e'.1 ≠ e.1 := by
          intro heq
          exact hnd.1 (heq ▸ List.mem_map.mpr ⟨e', he', rfl⟩)
        have hall := h e' (List.mem_cons_of_mem e he')
        rw [natWhere_split _ e.1 l, if_neg (by simpa using Ne.symm hne), Nat.zero_add] at hall
        exact hall)
      by_cases hp : p e.1 = true
      · rw [if_pos hp, if_pos hp]
        omega
      · rw [if_neg hp, if_neg hp]
        omega

namespace HashMap

variable [DecidableEq α]

/-- One `bump` adds at most its count. -/
theorem natWhere_items_bump_le (p : α → Bool) (m : HashMap α UInt64) (k : α) (c : UInt64) :
    natWhere p (items (m.bump k c)) ≤ natWhere p m.items + (if p k then c.toNat else 0) := by
  have hadd : ∀ x : UInt64, (x + c).toNat ≤ x.toNat + c.toNat := by
    intro x
    rw [UInt64.toNat_add]
    exact Nat.mod_le _ _
  unfold bump
  rw [items_insert, natWhere_cons]
  cases h : m.lookup k with
  | none =>
      rw [items_erase_of_none h, Option.getD_none]
      have hzero := hadd 0
      by_cases hp : p k = true
      · simp only [hp, if_true]
        rw [UInt64.toNat_zero] at hzero
        omega
      · simp [hp]
  | some v =>
      have hv := hadd v
      rw [natWhere_perm p (items_perm_erase h), natWhere_cons, Option.getD_some]
      by_cases hp : p k = true
      · simp only [hp, if_true]
        omega
      · simp [hp]

/-- A tally adds nothing. -/
theorem natWhere_items_tally_le (p : α → Bool) (l : List (α × UInt64)) :
    natWhere p (items (tally l)) ≤ natWhere p l := by
  apply natWhere_le_of_le (items_nodup _)
  intro e he
  have hlook := mem_items.mp he
  rw [lookup_tally] at hlook
  split at hlook
  · rw [← Option.some.inj hlook]
    exact toNat_sumWhere_le _ l
  · exact absurd hlook (by simp)

end HashMap

/-! ## §5. Tables of occurrences. -/

/-- The table lists each element of `X` once, with the number of its
occurrences. -/
structure TableOf [DecidableEq α] (l : List (α × UInt64)) (X : List α) : Prop where
  nodup : (l.map Prod.fst).Nodup
  counts : ∀ e ∈ l, e.2 = UInt64.ofNat (X.countP fun x => decide (x = e.1))
  keys : ∀ x ∈ X, x ∈ l.map Prod.fst

theorem countP_split [DecidableEq α] (q : α → Bool) (k : α) (X : List α) :
    X.countP q = (if q k then X.countP fun x => decide (x = k) else 0)
      + (X.filter fun x => x ≠ k).countP q := by
  induction X with
  | nil => simp
  | cons x X ih =>
      rw [List.countP_cons, ih]
      by_cases hx : x = k
      · subst hx
        by_cases hq : q x = true
        · simp [hq]
          omega
        · simp [hq]
      · by_cases hq : q k = true
        · simp [hq, hx, List.countP_cons]
          omega
        · simp [hq, hx, List.countP_cons]

/-- **The total of a table** is a number of occurrences. -/
theorem TableOf.total [DecidableEq α] {l : List (α × UInt64)} (q : α → Bool) :
    ∀ {X : List α}, TableOf l X → sumWhere q l = UInt64.ofNat (X.countP q) := by
  induction l with
  | nil =>
      intro X h
      obtain rfl : X = [] := List.eq_nil_iff_forall_not_mem.mpr fun x hx => by
        have hin := h.keys x hx
        simp at hin
      rfl
  | cons e l ih =>
      intro X h
      have hnodup := List.nodup_cons.mp h.nodup
      -- the occurrences of the other keys
      have hrest : TableOf l (X.filter fun x => x ≠ e.1) := by
        refine ⟨hnodup.2, ?_, ?_⟩
        · intro e' he'
          rw [h.counts e' (List.mem_cons_of_mem _ he'), List.countP_filter]
          have hne : e'.1 ≠ e.1 := by
            intro heq
            exact hnodup.1 (heq ▸ List.mem_map_of_mem he')
          congr 1
          apply List.countP_congr
          intro x _
          simp only [decide_eq_true_eq, Bool.and_eq_true]
          constructor
          · rintro rfl
            exact ⟨rfl, hne⟩
          · rintro ⟨hx, _⟩
            exact hx
        · intro x hx
          obtain ⟨hin, hne⟩ := List.mem_filter.mp hx
          rw [decide_eq_true_eq] at hne
          exact (List.mem_cons.mp (h.keys x hin)).resolve_left hne
      rw [sumWhere_cons, ih hrest, h.counts e List.mem_cons_self, countP_split q e.1 X,
          UInt64.ofNat_add]
      split
      · rfl
      · rfl

end QemuProfiler.Lib

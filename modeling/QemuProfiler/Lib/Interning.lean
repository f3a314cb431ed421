/-
  QemuProfiler.Lib.Interning
  ──────────────────────────
  Numbering names in the order of their first calls, in a table of bounded
  size.

  The table after any calls is the beginning of the list of their distinct
  names (`names_ofCalls`).  It only grows, so a name keeps its number
  (`number_append`), and a name never gets one exactly when the table was full
  at its first call (`number_eq_zero_iff`).
-/
import Mathlib.Data.List.Infix
import Mathlib.Data.List.Nodup
import Mathlib.Data.List.TakeWhile
import QemuProfiler.Lib.Trace

namespace QemuProfiler.Lib

/-- A table of at most `capacity` names, each of them once. -/
structure NameTable (α : Type) (capacity : Nat) where
  names : List α
  nodup : names.Nodup
  bounded : names.length ≤ capacity

namespace NameTable

variable {α : Type} [DecidableEq α] {capacity : Nat}

/-! ## §1. The table. -/

def empty (α : Type) (capacity : Nat) : NameTable α capacity := ⟨[], List.nodup_nil, Nat.zero_le _⟩

/-- A new name goes to the end, while there is room. -/
def note (t : NameTable α capacity) (a : α) : NameTable α capacity :=
  if h : a ∉ t.names ∧ t.names.length < capacity then
    { names := t.names ++ [a]
      nodup := List.nodup_append_comm.mp (List.nodup_cons.mpr ⟨h.1, t.nodup⟩)
      bounded := by
        rw [List.length_append, List.length_singleton]
        omega }
  else t

/-- The numbers start at 1; what the table does not hold has number 0. -/
def number (t : NameTable α capacity) (a : α) : Nat :=
  if a ∈ t.names then t.names.idxOf a + 1 else 0

theorem note_of_mem {t : NameTable α capacity} {a : α} (h : a ∈ t.names) : t.note a = t := by
  unfold note
  rw [dif_neg (fun hnew => hnew.1 h)]

theorem note_of_full {t : NameTable α capacity} (h : t.names.length = capacity) (a : α) :
    t.note a = t := by
  unfold note
  rw [dif_neg (fun hnew => absurd hnew.2 (by omega))]

theorem names_note {t : NameTable α capacity} {a : α} (h : a ∉ t.names)
    (hroom : t.names.length < capacity) : (t.note a).names = t.names ++ [a] := by
  unfold note
  rw [dif_pos ⟨h, hroom⟩]

theorem number_eq_zero {t : NameTable α capacity} {a : α} : t.number a = 0 ↔ a ∉ t.names := by
  unfold number
  by_cases h : a ∈ t.names
  · simp [h]
  · simp [h]

theorem number_le (t : NameTable α capacity) (a : α) : t.number a ≤ t.names.length := by
  unfold number
  by_cases h : a ∈ t.names
  · rw [if_pos h]
    exact List.idxOf_lt_length_of_mem h
  · rw [if_neg h]
    exact Nat.zero_le _

/-- The number tells where the name stands. -/
theorem number_eq_succ_iff {t : NameTable α capacity} {a : α} {i : Nat} :
    t.number a = i + 1 ↔ t.names[i]? = some a := by
  unfold number
  by_cases h : a ∈ t.names
  · rw [if_pos h]
    constructor
    · intro hi
      rw [← Nat.succ.inj hi]
      exact List.getElem?_idxOf h
    · intro hi
      obtain ⟨hlt, hget⟩ := List.getElem?_eq_some_iff.mp hi
      rw [← hget, t.nodup.idxOf_getElem]
  · rw [if_neg h]
    constructor
    · intro hi
      cases hi
    · intro hi
      exact absurd (List.mem_of_getElem? hi) h

/-- Every number up to the size of the table is taken. -/
theorem exists_number {t : NameTable α capacity} {n : Nat} (hpos : 1 ≤ n)
    (hle : n ≤ t.names.length) : ∃ a, t.number a = n := by
  obtain ⟨i, hi⟩ := Nat.exists_eq_succ_of_ne_zero (Nat.ne_of_gt hpos)
  have hlt : i < t.names.length := by omega
  refine ⟨t.names[i], ?_⟩
  rw [hi, Nat.succ_eq_add_one, number_eq_succ_iff]
  exact List.getElem?_eq_getElem hlt

theorem number_inj {t : NameTable α capacity} {a b : α} (ha : t.number a ≠ 0) :
    t.number a = t.number b ↔ a = b := by
  constructor
  · intro h
    obtain ⟨i, hi⟩ := Nat.exists_eq_succ_of_ne_zero ha
    have ha' := number_eq_succ_iff.mp hi
    have hb' := number_eq_succ_iff.mp (h.symm.trans hi)
    exact Option.some.inj (ha'.symm.trans hb')
  · intro h
    rw [h]

/-- The new name has the next number. -/
theorem number_note_self {t : NameTable α capacity} {a : α} (h : a ∉ t.names)
    (hroom : t.names.length < capacity) : (t.note a).number a = t.names.length + 1 := by
  rw [number_eq_succ_iff, names_note h hroom, List.getElem?_concat_length]

/-- The other names keep theirs. -/
theorem number_note_of_ne (t : NameTable α capacity) {a b : α} (h : b ≠ a) :
    (t.note a).number b = t.number b := by
  by_cases hnew : a ∉ t.names ∧ t.names.length < capacity
  · unfold number
    rw [names_note hnew.1 hnew.2]
    by_cases hb : b ∈ t.names
    · rw [if_pos (List.mem_append_left [a] hb), if_pos hb, List.idxOf_append_of_mem hb]
    · rw [if_neg (by simp [hb, h]), if_neg hb]
  · unfold note
    rw [dif_neg hnew]

/-! ## §2. The table after some calls. -/

def ofCalls (capacity : Nat) (calls : List α) : NameTable α capacity :=
  calls.foldl note (empty α capacity)

theorem ofCalls_concat (calls : List α) (a : α) :
    ofCalls capacity (calls ++ [a]) = (ofCalls capacity calls).note a := by
  unfold ofCalls
  rw [List.foldl_append]
  rfl

theorem eraseDups_concat (calls : List α) (a : α) :
    (calls ++ [a]).eraseDups = if a ∈ calls then calls.eraseDups else calls.eraseDups ++ [a] := by
  rw [List.eraseDups_append]
  by_cases h : a ∈ calls
  · rw [if_pos h, show [a].removeAll calls = [] by simp [List.removeAll, h], List.eraseDups_nil,
        List.append_nil]
  · rw [if_neg h, show [a].removeAll calls = [a] by simp [List.removeAll, h]]
    rfl

/-- **The table holds the first distinct names.** -/
theorem names_ofCalls (capacity : Nat) (calls : List α) :
    (ofCalls capacity calls).names = calls.eraseDups.take capacity := by
  induction calls using List.reverseRecOn with
  | nil => rw [List.eraseDups_nil, List.take_nil]; rfl
  | append_singleton calls a ih =>
      have hlen : (ofCalls capacity calls).names.length = min capacity calls.eraseDups.length := by
        rw [ih, List.length_take]
      rw [ofCalls_concat, eraseDups_concat]
      by_cases hroom : calls.eraseDups.length < capacity
      · -- so far every name got in
        rw [List.take_of_length_le (Nat.le_of_lt hroom)] at ih
        by_cases h : a ∈ calls
        · rw [if_pos h, note_of_mem (by rw [ih]; exact List.mem_eraseDups.mpr h), ih,
              List.take_of_length_le (Nat.le_of_lt hroom)]
        · have hnew : a ∉ (ofCalls capacity calls).names := by
            rw [ih]
            exact fun hin => h (List.mem_eraseDups.mp hin)
          rw [if_neg h, names_note hnew (by omega), ih, List.take_of_length_le]
          rw [List.length_append, List.length_singleton]
          omega
      · rw [note_of_full (by omega), ih]
        by_cases h : a ∈ calls
        · rw [if_pos h]
        · rw [if_neg h, List.take_append_of_le_length (Nat.le_of_not_lt hroom)]

theorem length_names_ofCalls (capacity : Nat) (calls : List α) :
    (ofCalls capacity calls).names.length = min capacity calls.eraseDups.length := by
  rw [names_ofCalls, List.length_take]

theorem names_prefix_append (capacity : Nat) (calls more : List α) :
    (ofCalls capacity calls).names <+: (ofCalls capacity (calls ++ more)).names := by
  rw [names_ofCalls, names_ofCalls, List.eraseDups_append]
  exact (List.prefix_append _ _).take capacity

/-- A name that is left out found the table full. -/
theorem full_of_left_out {calls : List α} {a : α} (h : a ∈ calls)
    (hout : a ∉ (ofCalls capacity calls).names) :
    (ofCalls capacity calls).names.length = capacity := by
  rw [length_names_ofCalls]
  apply Nat.min_eq_left
  by_contra hroom
  apply hout
  rw [names_ofCalls, List.take_of_length_le (Nat.le_of_not_le hroom)]
  exact List.mem_eraseDups.mpr h

/-- **A name that was called keeps its number**, or stays without. -/
theorem number_append {calls : List α} {a : α} (h : a ∈ calls) (more : List α) :
    (ofCalls capacity (calls ++ more)).number a = (ofCalls capacity calls).number a := by
  obtain ⟨extra, hextra⟩ := names_prefix_append capacity calls more
  by_cases hin : a ∈ (ofCalls capacity calls).names
  · unfold number
    rw [← hextra, if_pos (List.mem_append_left extra hin), if_pos hin,
        List.idxOf_append_of_mem hin]
  · -- the table was full: there is no `extra`
    have hfull := full_of_left_out h hin
    have hbound := (ofCalls capacity (calls ++ more)).bounded
    rw [← hextra, List.length_append] at hbound
    have hnil : extra = [] := List.eq_nil_of_length_eq_zero (by omega)
    rw [hnil, List.append_nil] at hextra
    unfold number
    rw [hextra]

/-- **Who gets no number**: the names that come first after `capacity` others. -/
theorem number_eq_zero_iff {calls : List α} {a : α} (h : a ∈ calls) :
    (ofCalls capacity calls).number a = 0
      ↔ capacity ≤ (calls.takeWhile (· ≠ a)).eraseDups.length := by
  obtain ⟨before, rest, hcalls, hbefore⟩ := List.eq_append_cons_of_mem h
  have hothers : ∀ b ∈ before, decide (b ≠ a) = true := by
    intro b hb
    exact decide_eq_true fun hba => hbefore (hba ▸ hb)
  have htake : calls.takeWhile (· ≠ a) = before := by
    rw [hcalls, List.takeWhile_append_of_pos hothers, List.takeWhile_cons_of_neg (by simp),
        List.append_nil]
  have hfirst : (ofCalls capacity calls).number a = ((ofCalls capacity before).note a).number a := by
    rw [← ofCalls_concat, hcalls, List.append_cons]
    exact number_append (List.mem_append_right before (List.mem_singleton_self a)) rest
  have hnew : a ∉ (ofCalls capacity before).names := by
    rw [names_ofCalls]
    exact fun hin => hbefore (List.mem_eraseDups.mp (List.mem_of_mem_take hin))
  have hlen := length_names_ofCalls capacity before
  rw [htake, hfirst]
  by_cases hfull : capacity ≤ before.eraseDups.length
  · rw [note_of_full (by omega), number_eq_zero]
    exact iff_of_true hnew hfull
  · rw [number_note_self hnew (by omega)]
    exact iff_of_false (Nat.succ_ne_zero _) hfull

/-! ## §3. Calls that miss. -/

/-- The calls for a name that is not among the first `capacity` distinct ones
before it: they meet a table without their name. -/
def misses (capacity : Nat) (calls : List α) : Nat :=
  (withPast calls).countP fun e => e.2 ∉ e.1.eraseDups.take capacity

theorem misses_concat (calls : List α) (a : α) :
    misses capacity (calls ++ [a])
      = misses capacity calls + if a ∈ (ofCalls capacity calls).names then 0 else 1 := by
  unfold misses
  rw [withPast_concat, List.countP_append, List.countP_singleton, names_ofCalls]
  by_cases h : a ∈ calls.eraseDups.take capacity
  · simp [h]
  · simp [h]

/-- The last call counts among the misses. -/
theorem misses_lt_of_concat {calls : List α} {a : α} {bound : Nat}
    (h : misses capacity (calls ++ [a]) < bound) (hnew : a ∉ (ofCalls capacity calls).names) :
    misses capacity calls + 1 < bound := by
  rw [misses_concat, if_neg hnew] at h
  exact h

theorem misses_le_length (capacity : Nat) (calls : List α) :
    misses capacity calls ≤ calls.length := by
  calc misses capacity calls ≤ (withPast calls).length := List.countP_le_length
    _ = ((withPast calls).map Prod.snd).length := (List.length_map _).symm
    _ = calls.length := by rw [map_snd_withPast]

/-- Every number was given at a miss. -/
theorem length_names_eq_min_misses (capacity : Nat) (calls : List α) :
    (ofCalls capacity calls).names.length = min capacity (misses capacity calls) := by
  induction calls using List.reverseRecOn with
  | nil => exact (Nat.min_eq_right (Nat.zero_le capacity)).symm
  | append_singleton calls a ih =>
      rw [ofCalls_concat, misses_concat]
      by_cases h : a ∈ (ofCalls capacity calls).names
      · rw [note_of_mem h, if_pos h, ih, Nat.add_zero]
      · rw [if_neg h]
        by_cases hroom : (ofCalls capacity calls).names.length < capacity
        · rw [names_note h hroom, List.length_append, List.length_singleton]
          omega
        · have hbound := (ofCalls capacity calls).bounded
          rw [note_of_full (by omega)]
          omega

/-- The call that misses after `n` others. -/
theorem exists_miss {calls : List α} {n : Nat} (h : n < misses capacity calls) :
    ∃ past a rest, calls = past ++ a :: rest ∧ misses capacity past = n
      ∧ a ∉ (ofCalls capacity past).names := by
  induction calls using List.reverseRecOn with
  | nil => exact absurd h (Nat.not_lt_zero n)
  | append_singleton calls a ih =>
      by_cases hbefore : n < misses capacity calls
      · obtain ⟨past, b, rest, hcalls, hpast, hb⟩ := ih hbefore
        exact ⟨past, b, rest ++ [a], by rw [hcalls, List.append_assoc, List.cons_append], hpast, hb⟩
      · -- `a` itself is that miss
        rw [misses_concat] at h
        by_cases ha : a ∈ (ofCalls capacity calls).names
        · rw [if_pos ha] at h
          omega
        · rw [if_neg ha] at h
          exact ⟨calls, a, [], rfl, by omega, ha⟩

/-- Distinct names all miss. -/
theorem misses_of_nodup {calls : List α} (h : calls.Nodup) :
    misses capacity calls = calls.length := by
  induction calls using List.reverseRecOn with
  | nil => rfl
  | append_singleton calls a ih =>
      obtain ⟨ha, hcalls⟩ := List.nodup_cons.mp (List.nodup_append_comm.mp h)
      have hnew : a ∉ (ofCalls capacity calls).names := by
        rw [names_ofCalls]
        exact fun hin => ha (List.mem_eraseDups.mp (List.mem_of_mem_take hin))
      rw [misses_concat, ih hcalls, if_neg hnew, List.length_append, List.length_singleton]

/-- A name that found the table full misses every time. -/
theorem misses_append_replicate {calls : List α} {a : α}
    (hfull : (ofCalls capacity calls).names.length = capacity)
    (ha : a ∉ (ofCalls capacity calls).names) (n : Nat) :
    ofCalls capacity (calls ++ List.replicate n a) = ofCalls capacity calls
      ∧ misses capacity (calls ++ List.replicate n a) = misses capacity calls + n := by
  induction n with
  | zero => rw [List.replicate_zero, List.append_nil]; exact ⟨rfl, rfl⟩
  | succ n ih =>
      obtain ⟨htable, hmisses⟩ := ih
      rw [List.replicate_succ', ← List.append_assoc, ofCalls_concat, misses_concat, htable, hmisses,
          note_of_full hfull, if_neg ha]
      exact ⟨rfl, rfl⟩

end NameTable

end QemuProfiler.Lib

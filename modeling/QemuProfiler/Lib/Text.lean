/-
  QemuProfiler.Lib.Text
  ─────────────────────
  LINE-BASED TEXT FORMATS as character lists: numbers in a base, lines, pairs
  around a separator, and counted sections.  Each printer comes with its
  reader and the law that the reader undoes it.

    • `readDigits_toDigits` — digits in any base up to 16,
    • `linesOf_unlines` — lines without line breaks,
    • `splitPair_append` — two fields around a separator neither contains,
    • `readSection_append` — a count line and that many entry lines.
-/
import Mathlib.Data.List.Basic
import Mathlib.Data.UInt

namespace QemuProfiler.Lib

/-- A text, or a line of one. -/
abbrev Text := List Char

/-! ## §1. Numbers. -/

/-- The value of a digit; `16` for a character that is none. -/
def digitValue (c : Char) : Nat :=
  if '0' ≤ c ∧ c ≤ '9' then c.toNat - 48
  else if 'a' ≤ c ∧ c ≤ 'f' then c.toNat - 87
  else 16

/-- Read a number in base `b`; no digit at all is an error. -/
def readDigits (b : Nat) (t : Text) : Option Nat :=
  if t.isEmpty then none
  else t.foldlM (fun n c => if digitValue c < b then some (b * n + digitValue c) else none) 0

theorem digitValue_digitChar {d : Nat} (h : d < 16) : digitValue (Nat.digitChar d) = d := by
  decide +revert

theorem digitValue_lt_of_mem_toDigits {b : Nat} (hb : 1 < b) (hb' : b ≤ 16) (n : Nat) :
    ∀ c ∈ Nat.toDigits b n, digitValue c < b := by
  induction n using Nat.base_induction b hb with
  | single m hm =>
      intro c hc
      rw [Nat.toDigits_of_lt_base hm, List.mem_singleton] at hc
      rw [hc, digitValue_digitChar (by omega)]
      exact hm
  | digit m k hk hm ih =>
      intro c hc
      rw [← Nat.toDigits_append_toDigits hb hm hk, Nat.toDigits_of_lt_base hk, List.mem_append,
          List.mem_singleton] at hc
      rcases hc with hc | hc
      · exact ih c hc
      · rw [hc, digitValue_digitChar (by omega)]
        exact hk

/-- **Reading digits undoes writing them.** -/
theorem readDigits_toDigits {b : Nat} (hb : 1 < b) (hb' : b ≤ 16) (n : Nat) :
    readDigits b (Nat.toDigits b n) = some n := by
  have hread : ∀ n, (Nat.toDigits b n).foldlM
      (fun n c => if digitValue c < b then some (b * n + digitValue c) else none) 0 = some n := by
    intro n
    induction n using Nat.base_induction b hb with
    | single m hm =>
        rw [Nat.toDigits_of_lt_base hm]
        simp [digitValue_digitChar (show m < 16 by omega), hm]
    | digit m k hk hm ih =>
        -- the last digit goes below the ones already read
        rw [← Nat.toDigits_append_toDigits hb hm hk, Nat.toDigits_of_lt_base hk,
            List.foldlM_append, ih]
        simp [digitValue_digitChar (show k < 16 by omega), hk]
  unfold readDigits
  rw [if_neg (by simp), hread]

/-- A character that is no digit does not occur in a number. -/
theorem not_mem_toDigits {b : Nat} (hb : 1 < b) (hb' : b ≤ 16) (n : Nat) {c : Char}
    (hc : digitValue c = 16) : c ∉ Nat.toDigits b n := by
  intro hmem
  have hlt := digitValue_lt_of_mem_toDigits hb hb' n c hmem
  omega

/-- The `{:x}` rendering of a word. -/
def hexText (x : UInt64) : Text := Nat.toDigits 16 x.toNat

/-- The `{}` rendering of a word. -/
def decText (x : UInt64) : Text := Nat.toDigits 10 x.toNat

/-- Read a 64-bit number in base `b`. -/
def readU64 (b : Nat) (t : Text) : Option UInt64 :=
  (readDigits b t).bind fun n => if n < 2 ^ 64 then some (UInt64.ofNat n) else none

theorem readU64_toDigits {b : Nat} (hb : 1 < b) (hb' : b ≤ 16) (x : UInt64) :
    readU64 b (Nat.toDigits b x.toNat) = some x := by
  unfold readU64
  rw [readDigits_toDigits hb hb', Option.bind_some, if_pos x.toNat_lt, UInt64.ofNat_toNat]

@[simp] theorem readU64_hexText (x : UInt64) : readU64 16 (hexText x) = some x :=
  readU64_toDigits (by omega) (by omega) x

@[simp] theorem readU64_decText (x : UInt64) : readU64 10 (decText x) = some x :=
  readU64_toDigits (by omega) (by omega) x

theorem not_mem_hexText (x : UInt64) {c : Char} (hc : digitValue c = 16) : c ∉ hexText x :=
  not_mem_toDigits (by omega) (by omega) _ hc

theorem not_mem_decText (x : UInt64) {c : Char} (hc : digitValue c = 16) : c ∉ decText x :=
  not_mem_toDigits (by omega) (by omega) _ hc

/-! ## §2. Lines and fields. -/

/-- Every line with its line break, as `writeln!` leaves them. -/
def unlines (ls : List Text) : Text := ls.flatMap fun l => l ++ ['\n']

/-- The lines of a text; the last one must end with a line break as well. -/
def linesOf (t : Text) : Option (List Text) :=
  if (t.splitOn '\n').getLast? = some [] then some (t.splitOn '\n').dropLast else none

theorem unlines_cons (l : Text) (ls : List Text) :
    unlines (l :: ls) = l ++ (['\n'] ++ unlines ls) := by
  show (l ++ ['\n']) ++ unlines ls = _
  rw [List.append_assoc]

theorem unlines_append (ls ms : List Text) : unlines (ls ++ ms) = unlines ls ++ unlines ms :=
  List.flatMap_append

/-- **Lines come back** when no line holds a line break. -/
theorem linesOf_unlines {ls : List Text} (h : ∀ l ∈ ls, '\n' ∉ l) :
    linesOf (unlines ls) = some ls := by
  -- the text is the lines and one empty line, with breaks between them
  have hjoin : unlines ls = ['\n'].intercalate (ls ++ [[]]) := by
    clear h
    induction ls with
    | nil => rfl
    | cons l ls ih =>
        rw [unlines_cons, ih]
        cases ls with
        | nil => simp [List.intercalate]
        | cons m ms => simp [List.intercalate]
  have hsplit : (unlines ls).splitOn '\n' = ls ++ [[]] := by
    rw [hjoin]
    apply List.splitOn_intercalate
    · intro l hl
      rcases List.mem_append.mp hl with hin | hin
      · exact h l hin
      · rw [List.mem_singleton.mp hin]
        exact List.not_mem_nil
    · simp
  unfold linesOf
  rw [hsplit, if_pos (by simp), List.dropLast_concat]

/-- The first field ends at the first separator. -/
theorem append_sep_inj {sep : Char} {a b x y : Text} (ha : sep ∉ a) (hb : sep ∉ b)
    (h : a ++ sep :: x = b ++ sep :: y) : a = b ∧ x = y := by
  induction a generalizing b with
  | nil =>
      cases b with
      | nil => exact ⟨rfl, (List.cons.inj h).2⟩
      | cons d b => exact absurd (List.mem_cons.mpr (.inl (List.cons.inj h).1)) hb
  | cons c a ih =>
      cases b with
      | nil => exact absurd (List.mem_cons.mpr (.inl (List.cons.inj h).1.symm)) ha
      | cons d b =>
          obtain ⟨hcd, htail⟩ := List.cons.inj h
          obtain ⟨hab, hxy⟩ := ih (fun hm => ha (List.mem_cons_of_mem c hm))
            (fun hm => hb (List.mem_cons_of_mem d hm)) htail
          exact ⟨by rw [hcd, hab], hxy⟩

/-- The two fields around a separator. -/
def splitPair (sep : Char) (t : Text) : Option (Text × Text) :=
  match t.splitOn sep with
  | [a, b] => some (a, b)
  | _ => none

theorem splitPair_append {sep : Char} {a b : Text} (ha : sep ∉ a) (hb : sep ∉ b) :
    splitPair sep (a ++ sep :: b) = some (a, b) := by
  have hjoin : a ++ sep :: b = [sep].intercalate [a, b] := by simp [List.intercalate]
  unfold splitPair
  rw [hjoin, List.splitOn_intercalate]
  · intro l hl
    simp only [List.mem_cons, List.not_mem_nil, or_false] at hl
    rcases hl with hl | hl
    · rw [hl]
      exact ha
    · rw [hl]
      exact hb
  · simp

/-! ## §3. Counted sections. -/

/-- A count line and one line per entry. -/
def sectionLines {ε : Type} (print : ε → Text) (entries : List ε) : List Text :=
  Nat.toDigits 10 entries.length :: entries.map print

/-- Read a count and that many entries: the entries and the lines after them. -/
def readSection {ε : Type} (entry : Text → Option ε) : List Text → Option (List ε × List Text)
  | [] => none
  | head :: rest => do
      let n ← readDigits 10 head
      if rest.length < n then none
      else do
        let entries ← (rest.take n).mapM entry
        some (entries, rest.drop n)

/-- **A section comes back**, whatever lines follow it. -/
theorem readSection_append {ε : Type} {print : ε → Text} {entry : Text → Option ε}
    (h : ∀ e, entry (print e) = some e) (entries : List ε) (rest : List Text) :
    readSection entry (sectionLines print entries ++ rest) = some (entries, rest) := by
  have hentries : (entries.map print).mapM entry = some entries := by
    induction entries with
    | nil => rfl
    | cons e es ih => simp [h, ih]
  show readSection entry (Nat.toDigits 10 entries.length :: (entries.map print ++ rest)) = _
  simp only [readSection]
  rw [readDigits_toDigits (by omega) (by omega), Option.bind_eq_bind, Option.bind_some,
      if_neg (by simp), List.take_left' (by simp), List.drop_left' (by simp), hentries]
  rfl

end QemuProfiler.Lib

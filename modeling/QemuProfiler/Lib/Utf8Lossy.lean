/-
  QemuProfiler.Lib.Utf8Lossy
  ──────────────────────────
  UTF-8 on byte lists: the bytes of a string, and the LOSSY decoder of the
  Rust standard library (`String::from_utf8_lossy`), which replaces every
  maximal ill-formed part by U+FFFD and never fails.

  `fromUtf8Lossy_asBytes` — on the bytes of a string the decoder is exact.
-/
import Mathlib.Data.List.Basic

namespace QemuProfiler.Lib

/-- `str::as_bytes`. -/
def asBytes (s : String) : List UInt8 := s.toByteArray.data.toList

/-- U+FFFD, the replacement character. -/
def replacementChar : Char := '\uFFFD'

/-- A continuation byte `10xxxxxx`; the byte past the end of the input reads
as `0`, which is not one. -/
def isCont (b : UInt8) : Bool := b &&& 0xC0 == 0x80

/-- Whether `second` may follow the lead byte `lead` of a three-byte
sequence (no overlong form, no surrogate). -/
def threeByteOk (lead second : UInt8) : Bool :=
  if lead == 0xE0 then 0xA0 ≤ second && second ≤ 0xBF
  else if 0xE1 ≤ lead && lead ≤ 0xEC then 0x80 ≤ second && second ≤ 0xBF
  else if lead == 0xED then 0x80 ≤ second && second ≤ 0x9F
  else if 0xEE ≤ lead && lead ≤ 0xEF then 0x80 ≤ second && second ≤ 0xBF
  else false

/-- Whether `second` may follow the lead byte `lead` of a four-byte sequence
(no overlong form, nothing above U+10FFFF). -/
def fourByteOk (lead second : UInt8) : Bool :=
  if lead == 0xF0 then 0x90 ≤ second && second ≤ 0xBF
  else if 0xF1 ≤ lead && lead ≤ 0xF3 then 0x80 ≤ second && second ≤ 0xBF
  else if lead == 0xF4 then 0x80 ≤ second && second ≤ 0x8F
  else false

/-- How many bytes one replacement character stands for: the lead byte and
the continuation bytes accepted before the sequence broke off. -/
def illFormedLength (bytes : List UInt8) : Nat :=
  let lead := bytes.getD 0 0
  let second := bytes.getD 1 0
  let third := bytes.getD 2 0
  if 0xE0 ≤ lead && lead ≤ 0xEF then
    if threeByteOk lead second then 2 else 1
  else if 0xF0 ≤ lead && lead ≤ 0xF4 then
    if fourByteOk lead second then (if isCont third then 3 else 2) else 1
  else 1

/-- The decoded characters; every step consumes at least one byte, so the
input length is enough fuel. -/
def lossyChars : Nat → List UInt8 → List Char
  | 0, _ => []
  | fuel + 1, bytes =>
      match bytes with
      | [] => []
      | b :: rest =>
          match (b :: rest).toByteArray.utf8DecodeChar? 0 with
          | some c => c :: lossyChars fuel ((b :: rest).drop c.utf8Size)
          | none =>
              replacementChar
                :: lossyChars fuel ((b :: rest).drop (illFormedLength (b :: rest)))

/-- `String::from_utf8_lossy(bytes).to_string()`. -/
def fromUtf8Lossy (bytes : List UInt8) : String :=
  String.ofList (lossyChars bytes.length bytes)

/-- The bytes of a string are the encodings of its characters. -/
theorem asBytes_eq (s : String) : asBytes s = s.toList.flatMap String.utf8EncodeChar := by
  conv_lhs => rw [← String.ofList_toList (s := s)]
  unfold asBytes
  rw [String.toByteArray_ofList]
  simp [List.utf8Encode]

/-- Decoding the encodings of `cs` gives `cs` back, whatever fuel is left. -/
theorem lossyChars_encode (cs : List Char) :
    ∀ (fuel : Nat), (cs.flatMap String.utf8EncodeChar).length ≤ fuel →
      lossyChars fuel (cs.flatMap String.utf8EncodeChar) = cs := by
  induction cs with
  | nil =>
      intro fuel _
      cases fuel <;> rfl
  | cons c cs ih =>
      intro fuel hfuel
      have hpos : 0 < c.utf8Size := c.utf8Size_pos
      have hlen : (String.utf8EncodeChar c).length = c.utf8Size :=
        String.length_utf8EncodeChar c
      rw [List.flatMap_cons, List.length_append, hlen] at hfuel
      obtain ⟨fuel, rfl⟩ : ∃ k, fuel = k + 1 := ⟨fuel - 1, by omega⟩
      -- the head character decodes, and dropping its bytes leaves the rest
      have hdec : ((c :: cs).flatMap String.utf8EncodeChar).toByteArray.utf8DecodeChar? 0
          = some c := by
        rw [List.flatMap_cons, List.toByteArray_append]
        exact ByteArray.utf8DecodeChar?_utf8EncodeChar_append
      have hdrop : ((c :: cs).flatMap String.utf8EncodeChar).drop c.utf8Size
          = cs.flatMap String.utf8EncodeChar := by
        rw [List.flatMap_cons, ← hlen, List.drop_left]
      cases hb : (c :: cs).flatMap String.utf8EncodeChar with
      | nil =>
          have := congrArg List.length hb
          rw [List.flatMap_cons, List.length_append, hlen] at this
          simp only [List.length_nil] at this
          omega
      | cons b rest =>
          rw [hb] at hdec hdrop
          simp only [lossyChars, hdec, hdrop]
          rw [ih fuel (by omega)]

/-- **On the bytes of a string the lossy decoder is exact.** -/
@[simp] theorem fromUtf8Lossy_asBytes (s : String) : fromUtf8Lossy (asBytes s) = s := by
  unfold fromUtf8Lossy
  rw [asBytes_eq, lossyChars_encode s.toList _ (Nat.le_refl _), String.ofList_toList]

example : fromUtf8Lossy [0x61, 0xE2, 0x82, 0x62, 0xFF] = "a\uFFFDb\uFFFD" := by decide

end QemuProfiler.Lib

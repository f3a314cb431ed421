/-
  QemuProfiler.Lib.Bytes
  ──────────────────────
  Byte strings as `List UInt8`: fixed-width little-endian integers, the
  bounds-checked slice a systems language evaluates (`none` is the panic),
  and the `chunks` splitter.

    • `ofLeBytes_leBytes` — the `w`-byte encoding loses nothing below
      `256 ^ w`,
    • `slice_field` — the slice at a field's offset reads the field,
    • `flatten_chunks`, `length_le_of_mem_chunks` — chunking loses nothing
      and every chunk respects the bound.
-/
import Mathlib.Data.List.Basic
import Mathlib.Data.UInt
import Mathlib.Tactic.Ring

namespace QemuProfiler.Lib

/-! ## §1. Little-endian integers. -/

/-- The `w` little-endian bytes of `n` (higher bits are dropped). -/
def leBytes : Nat → Nat → List UInt8
  | 0, _ => []
  | w + 1, n => UInt8.ofNat n :: leBytes w (n / 256)

/-- The natural number with the given little-endian bytes. -/
def ofLeBytes : List UInt8 → Nat
  | [] => 0
  | b :: bs => b.toNat + 256 * ofLeBytes bs

@[simp] theorem length_leBytes (w n : Nat) : (leBytes w n).length = w := by
  induction w generalizing n with
  | zero => rfl
  | succ w ih => simp only [leBytes, List.length_cons, ih]

/-- **Little-endian round trip**: nothing is lost below `256 ^ w`. -/
theorem ofLeBytes_leBytes (w n : Nat) (h : n < 256 ^ w) :
    ofLeBytes (leBytes w n) = n := by
  induction w generalizing n with
  | zero =>
      simp only [Nat.pow_zero, Nat.lt_one_iff] at h
      subst h
      rfl
  | succ w ih =>
      -- the low digit goes into the first byte, the quotient into the others
      have hq : n / 256 < 256 ^ w := by
        rw [Nat.div_lt_iff_lt_mul (by omega)]
        rw [Nat.pow_succ] at h
        exact h
      simp only [leBytes, ofLeBytes, ih (n / 256) hq, UInt8.toNat_ofNat']
      omega

theorem ofLeBytes_lt (bs : List UInt8) : ofLeBytes bs < 256 ^ bs.length := by
  induction bs with
  | nil => simp [ofLeBytes]
  | cons b bs ih =>
      have hb : b.toNat < 256 := b.toNat_lt
      rw [List.length_cons, Nat.pow_succ]
      simp only [ofLeBytes]
      omega

/-- Conversely the bytes are those of their value. -/
theorem leBytes_ofLeBytes (bs : List UInt8) : leBytes bs.length (ofLeBytes bs) = bs := by
  induction bs with
  | nil => rfl
  | cons b bs ih =>
      have hb : b.toNat < 256 := b.toNat_lt
      have hhead : UInt8.ofNat (b.toNat + 256 * ofLeBytes bs) = b := by
        apply UInt8.toNat_inj.mp
        rw [UInt8.toNat_ofNat']
        omega
      have htail : (b.toNat + 256 * ofLeBytes bs) / 256 = ofLeBytes bs := by omega
      simp only [List.length_cons, leBytes, ofLeBytes, hhead, htail, ih]

/-- A leading zero digit changes nothing. -/
theorem ofLeBytes_append_zero (bs : List UInt8) : ofLeBytes (bs ++ [0]) = ofLeBytes bs := by
  induction bs with
  | nil => rfl
  | cons b bs ih => simp only [List.cons_append, ofLeBytes, ih]

/-- `u16::to_le_bytes`. -/
def u16Le (x : UInt16) : List UInt8 := leBytes 2 x.toNat

/-- `u32::to_le_bytes`. -/
def u32Le (x : UInt32) : List UInt8 := leBytes 4 x.toNat

/-- `u64::to_le_bytes`. -/
def u64Le (x : UInt64) : List UInt8 := leBytes 8 x.toNat

/-- `u16::from_le_bytes`. -/
def u16OfLe (bs : List UInt8) : UInt16 := UInt16.ofNat (ofLeBytes bs)

/-- `u32::from_le_bytes`. -/
def u32OfLe (bs : List UInt8) : UInt32 := UInt32.ofNat (ofLeBytes bs)

/-- `u64::from_le_bytes`. -/
def u64OfLe (bs : List UInt8) : UInt64 := UInt64.ofNat (ofLeBytes bs)

@[simp] theorem length_u16Le (x : UInt16) : (u16Le x).length = 2 := length_leBytes 2 _

@[simp] theorem length_u32Le (x : UInt32) : (u32Le x).length = 4 := length_leBytes 4 _

@[simp] theorem length_u64Le (x : UInt64) : (u64Le x).length = 8 := length_leBytes 8 _

@[simp] theorem u16OfLe_u16Le (x : UInt16) : u16OfLe (u16Le x) = x := by
  unfold u16OfLe u16Le
  rw [ofLeBytes_leBytes 2 _ x.toNat_lt, UInt16.ofNat_toNat]

@[simp] theorem u32OfLe_u32Le (x : UInt32) : u32OfLe (u32Le x) = x := by
  unfold u32OfLe u32Le
  rw [ofLeBytes_leBytes 4 _ x.toNat_lt, UInt32.ofNat_toNat]

@[simp] theorem u64OfLe_u64Le (x : UInt64) : u64OfLe (u64Le x) = x := by
  unfold u64OfLe u64Le
  rw [ofLeBytes_leBytes 8 _ x.toNat_lt, UInt64.ofNat_toNat]

/-- The bytes of a word are the only ones that read as it. -/
theorem u64OfLe_eq_iff {bs : List UInt8} (h : bs.length = 8) (x : UInt64) :
    u64OfLe bs = x ↔ bs = u64Le x := by
  constructor
  · intro heq
    have hlt := ofLeBytes_lt bs
    rw [h] at hlt
    have hval : (u64OfLe bs).toNat = ofLeBytes bs := UInt64.toNat_ofNat_of_lt' hlt
    have hbs := leBytes_ofLeBytes bs
    rw [h, ← hval, heq] at hbs
    exact hbs.symm
  · intro heq
    rw [heq, u64OfLe_u64Le]

/-! ## §2. Bounds-checked slices. -/

/-- The `n` bytes from offset `off` on, as far as there are any. -/
def bytesAt (bytes : List UInt8) (off n : Nat) : List UInt8 := (bytes.drop off).take n

/-- `bytes[lo..hi]`: `none` is the out-of-bounds panic. -/
def slice (bytes : List UInt8) (lo hi : Nat) : Option (List UInt8) :=
  if lo ≤ hi ∧ hi ≤ bytes.length then some ((bytes.drop lo).take (hi - lo)) else none

/-- A slice within bounds is the bytes at its offset. -/
theorem slice_eq_some {bytes : List UInt8} {lo hi : Nat} (n : Nat) (hhi : hi = lo + n)
    (h : hi ≤ bytes.length) : slice bytes lo hi = some (bytesAt bytes lo n) := by
  subst hhi
  unfold slice bytesAt
  rw [if_pos ⟨by omega, h⟩, Nat.add_sub_cancel_left]

/-- **The field lemma**: the slice that starts after `pre` and is as long as
`field` reads exactly `field`. -/
theorem slice_field (pre field post : List UInt8) (lo hi : Nat)
    (hlo : lo = pre.length) (hhi : hi = lo + field.length) :
    slice (pre ++ (field ++ post)) lo hi = some field := by
  subst hlo hhi
  unfold slice
  rw [if_pos ⟨by omega, by simp only [List.length_append]; omega⟩,
      List.drop_left, Nat.add_sub_cancel_left, List.take_left]

/-- The field lemma for the last field. -/
theorem slice_last (pre field : List UInt8) (lo hi : Nat)
    (hlo : lo = pre.length) (hhi : hi = lo + field.length) :
    slice (pre ++ field) lo hi = some field := by
  have h := slice_field pre field [] lo hi hlo hhi
  rwa [List.append_nil] at h

/-! ## §3. Chunks. -/

/-- `slice::chunks(n)`, with `fuel` bounding the number of chunks. -/
def chunksFuel {α : Type} (n : Nat) : Nat → List α → List (List α)
  | 0, _ => []
  | fuel + 1, l =>
      match l with
      | [] => []
      | x :: xs => (x :: xs).take n :: chunksFuel n fuel ((x :: xs).drop n)

/-- `slice::chunks(n)` for `0 < n`: consecutive pieces of length `n`, the
last one possibly shorter; the empty slice has no chunk. -/
def chunks {α : Type} (n : Nat) (l : List α) : List (List α) :=
  chunksFuel n l.length l

theorem flatten_chunksFuel {α : Type} (n : Nat) (hn : 0 < n) :
    ∀ (fuel : Nat) (l : List α), l.length ≤ fuel → (chunksFuel n fuel l).flatten = l := by
  intro fuel
  induction fuel with
  | zero =>
      intro l hl
      rw [List.eq_nil_of_length_eq_zero (by omega : l.length = 0)]
      rfl
  | succ fuel ih =>
      intro l hl
      cases l with
      | nil => rfl
      | cons x xs =>
          -- `0 < n`, so every chunk makes the rest shorter and the fuel lasts
          show ((x :: xs).take n :: chunksFuel n fuel ((x :: xs).drop n)).flatten = _
          rw [List.flatten_cons, ih _ (by rw [List.length_drop]; omega),
              List.take_append_drop]

/-- **Chunking loses nothing.** -/
theorem flatten_chunks {α : Type} (n : Nat) (hn : 0 < n) (l : List α) :
    (chunks n l).flatten = l :=
  flatten_chunksFuel n hn l.length l (Nat.le_refl _)

/-- No chunk is longer than the bound. -/
theorem length_le_of_mem_chunks {α : Type} (n : Nat) (l : List α) :
    ∀ c ∈ chunks n l, c.length ≤ n := by
  suffices h : ∀ (fuel : Nat) (l : List α), ∀ c ∈ chunksFuel n fuel l, c.length ≤ n from
    h l.length l
  intro fuel
  induction fuel with
  | zero => intro l c hc; simp [chunksFuel] at hc
  | succ fuel ih =>
      intro l c hc
      cases l with
      | nil => simp [chunksFuel] at hc
      | cons x xs =>
          simp only [chunksFuel, List.mem_cons] at hc
          rcases hc with hc | hc
          · subst hc
            rw [List.length_take]
            omega
          · exact ih _ c hc

end QemuProfiler.Lib

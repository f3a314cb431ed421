/-
  QemuProfiler.Lib.BitFields
  ──────────────────────────
  What shift-and-mask code computes on machine words, in terms of the fields
  of the word (`BitVec.extractLsb'`).

    • `ushiftRight_and_mask` — `(w >> k) & mask` reads a field,
    • `and_mask_eq_iff`, `and_masks_eq_iff` — a masked comparison is a
      comparison of one field or of two,
    • `shiftLeft_sshiftRight_setWidth` — shifting a field up to the sign bit
      and arithmetically back down sign-extends it.
-/
import Mathlib.Data.BitVec

namespace QemuProfiler.Lib

variable {n len : Nat}

/-! ## §1. Reading a field. -/

/-- `(w >> k) & (2^len - 1)` is the field of `len` bits at `k`. -/
theorem ushiftRight_and_mask (w : BitVec n) (k : Nat) :
    (w >>> k) &&& (BitVec.allOnes len).setWidth n = (w.extractLsb' k len).setWidth n := by
  ext i hi
  simp only [BitVec.getElem_and, BitVec.getElem_ushiftRight, BitVec.getElem_setWidth,
    BitVec.getLsbD_allOnes, BitVec.getLsbD_extractLsb']
  rw [Bool.and_comm]

/-- A field of a field. -/
theorem extractLsb'_extractLsb' {s₁ s₂ len₁ len₂ : Nat} (x : BitVec n) (h : s₂ + len₂ ≤ len₁) :
    (x.extractLsb' s₁ len₁).extractLsb' s₂ len₂ = x.extractLsb' (s₁ + s₂) len₂ := by
  ext i hi
  simp only [BitVec.getElem_extractLsb', BitVec.getLsbD_extractLsb']
  rw [decide_eq_true (by omega), Bool.true_and, Nat.add_assoc]

/-- Two words side by side are equal when both are. -/
theorem append_eq_append_iff {m : Nat} {a b : BitVec n} {c d : BitVec m} :
    a ++ c = b ++ d ↔ a = b ∧ c = d := by
  constructor
  · intro h
    constructor
    · rw [← BitVec.extractLsb'_append_eq_left (a := a) (b := c), h,
        BitVec.extractLsb'_append_eq_left]
    · rw [← BitVec.extractLsb'_append_eq_right (a := a) (b := c), h,
        BitVec.extractLsb'_append_eq_right]
  · rintro ⟨rfl, rfl⟩
    rfl

/-- The bits of a field that stands at `k`. -/
theorem getLsbD_setWidth_shiftLeft (v : BitVec len) (k i : Nat) (hi : i < n) :
    (v.setWidth n <<< k).getLsbD i = (decide (k ≤ i) && v.getLsbD (i - k)) := by
  simp only [BitVec.getLsbD_shiftLeft, BitVec.getLsbD_setWidth]
  grind

/-- **A masked comparison compares the field under the mask.** -/
theorem and_mask_eq_iff (w : BitVec n) (k : Nat) (v : BitVec len) (h : k + len ≤ n) :
    w &&& ((BitVec.allOnes len).setWidth n <<< k) = v.setWidth n <<< k ↔
      w.extractLsb' k len = v := by
  constructor
  · intro heq
    apply BitVec.eq_of_getLsbD_eq
    intro i hi
    have hbit : (w &&& ((BitVec.allOnes len).setWidth n <<< k)).getLsbD (k + i)
        = (v.setWidth n <<< k).getLsbD (k + i) := by rw [heq]
    rw [BitVec.getLsbD_and, getLsbD_setWidth_shiftLeft _ k (k + i) (by omega),
      getLsbD_setWidth_shiftLeft _ k (k + i) (by omega)] at hbit
    simpa [hi] using hbit
  · rintro rfl
    apply BitVec.eq_of_getLsbD_eq
    intro i hi
    rw [BitVec.getLsbD_and, getLsbD_setWidth_shiftLeft _ k i hi,
      getLsbD_setWidth_shiftLeft _ k i hi, BitVec.getLsbD_allOnes, BitVec.getLsbD_extractLsb']
    grind

/-- Of a comparison under two disjoint masks, what the first one sees. -/
theorem and_eq_of_and_or_eq_or {w m₁ m₂ v₁ v₂ : BitVec n} (hm : m₁ &&& m₂ = 0#n)
    (h₁ : v₁ &&& m₁ = v₁) (h₂ : v₂ &&& m₂ = v₂) (h : w &&& (m₁ ||| m₂) = v₁ ||| v₂) :
    w &&& m₁ = v₁ := by
  have hm' : m₂ &&& m₁ = 0#n := by rw [BitVec.and_comm, hm]
  have hv₂ : v₂ &&& m₁ = 0#n := by rw [← h₂, BitVec.and_assoc, hm', BitVec.and_zero]
  have hle : (m₁ ||| m₂) &&& m₁ = m₁ := by
    rw [BitVec.and_or_distrib_right, BitVec.and_self, hm', BitVec.or_zero]
  calc w &&& m₁ = w &&& (m₁ ||| m₂) &&& m₁ := by rw [BitVec.and_assoc, hle]
    _ = (v₁ ||| v₂) &&& m₁ := by rw [h]
    _ = v₁ := by rw [BitVec.and_or_distrib_right, h₁, hv₂, BitVec.or_zero]

/-- Under two disjoint masks at once, each is compared on its own. -/
theorem and_or_eq_or_iff (w : BitVec n) {m₁ m₂ v₁ v₂ : BitVec n} (hm : m₁ &&& m₂ = 0#n)
    (h₁ : v₁ &&& m₁ = v₁) (h₂ : v₂ &&& m₂ = v₂) :
    w &&& (m₁ ||| m₂) = v₁ ||| v₂ ↔ w &&& m₁ = v₁ ∧ w &&& m₂ = v₂ := by
  constructor
  · intro h
    constructor
    · exact and_eq_of_and_or_eq_or hm h₁ h₂ h
    · rw [BitVec.or_comm m₁, BitVec.or_comm v₁] at h
      rw [BitVec.and_comm] at hm
      exact and_eq_of_and_or_eq_or hm h₂ h₁ h
  · rintro ⟨h1, h2⟩
    rw [BitVec.and_or_distrib_left, h1, h2]

/-- A field stands under its own mask. -/
theorem setWidth_shiftLeft_and_mask (v : BitVec len) (k : Nat) :
    (v.setWidth n <<< k) &&& ((BitVec.allOnes len).setWidth n <<< k) = v.setWidth n <<< k := by
  apply BitVec.eq_of_getLsbD_eq
  intro i hi
  rw [BitVec.getLsbD_and, getLsbD_setWidth_shiftLeft _ k i hi, getLsbD_setWidth_shiftLeft _ k i hi,
    BitVec.getLsbD_allOnes]
  grind

/-- The masks of a field and of one below it are disjoint. -/
theorem mask_and_mask {len₁ len₂ k₁ k₂ : Nat} (h : k₂ + len₂ ≤ k₁) :
    (BitVec.allOnes len₁).setWidth n <<< k₁ &&& (BitVec.allOnes len₂).setWidth n <<< k₂ = 0#n := by
  apply BitVec.eq_of_getLsbD_eq
  intro i hi
  rw [BitVec.getLsbD_and, getLsbD_setWidth_shiftLeft _ k₁ i hi,
    getLsbD_setWidth_shiftLeft _ k₂ i hi, BitVec.getLsbD_allOnes, BitVec.getLsbD_allOnes,
    BitVec.getLsbD_zero]
  grind

/-- **A comparison under two disjoint masks compares both fields.** -/
theorem and_masks_eq_iff {len₁ len₂ : Nat} (w : BitVec n) (k₁ k₂ : Nat) (v₁ : BitVec len₁)
    (v₂ : BitVec len₂) (h₁ : k₁ + len₁ ≤ n) (h₂ : k₂ + len₂ ≤ k₁) :
    w &&& ((BitVec.allOnes len₁).setWidth n <<< k₁ ||| (BitVec.allOnes len₂).setWidth n <<< k₂)
        = v₁.setWidth n <<< k₁ ||| v₂.setWidth n <<< k₂ ↔
      w.extractLsb' k₁ len₁ = v₁ ∧ w.extractLsb' k₂ len₂ = v₂ := by
  rw [and_or_eq_or_iff w (mask_and_mask h₂) (setWidth_shiftLeft_and_mask v₁ k₁)
    (setWidth_shiftLeft_and_mask v₂ k₂), and_mask_eq_iff w k₁ v₁ h₁,
    and_mask_eq_iff w k₂ v₂ (by omega)]

/-! ## §2. Sign extension by two shifts. -/

/-- **The two-shift sign extension**: `(x << k) >> k` on a signed word of
`n + k` bits extends the `n`-bit `x`. -/
theorem shiftLeft_sshiftRight_setWidth {k m : Nat} (x : BitVec n) (h : n + k = m) :
    ((x.setWidth m) <<< k).sshiftRight k = x.signExtend m := by
  apply BitVec.eq_of_getLsbD_eq
  intro i hi
  -- bit `i` of the right shift is bit `k + i` of the left one, which is bit `i` of `x`, and
  -- from bit `n` on it is the top bit of the word, which is the top bit of `x`
  simp only [BitVec.getLsbD_sshiftRight, BitVec.getLsbD_shiftLeft, BitVec.getLsbD_signExtend,
    BitVec.getLsbD_setWidth, BitVec.msb_eq_getLsbD_last]
  grind

end QemuProfiler.Lib

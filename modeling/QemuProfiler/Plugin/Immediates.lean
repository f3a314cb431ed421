/-
  QemuProfiler.Plugin.Immediates
  ──────────────────────────────
  What the shift-and-mask code of the classifier computes, in terms of the
  fields of the instruction word: every opcode test compares fields, and
  every target is `pc` plus the signed immediate that the fields spell out.

    • `and_eq_iff_field`, `shiftRight_and_eq_field` — masks as fields,
    • `pcPlus_signExtend`, `pcPlus_signExtend_shl2` — the hand-written sign
      extension, as a byte and as a word offset,
    • `hexR22Target_eq`, `hexR15Target_eq`, `aarch64Imm26Target_eq`,
      `riscvJalTarget_eq`, `riscvCjTarget_eq` — the five immediate formats,
      for every instruction word,
    • `classifyRiscv32_eq`, `classifyRiscv16_eq` — the RISC-V tests,
    • `classify_hexagon`, `classify_aarch64`, `classify_riscv_word`,
      `classify_riscv_half` — the word that stands in the bytes.
-/
import QemuProfiler.Lib.BitFields
import QemuProfiler.Plugin.Decoder

namespace QemuProfiler.Plugin

open QemuProfiler.Lib

/-! ## §1. Masks as fields. -/

/-- `insn & mask == value` compares the field under the mask. -/
theorem and_eq_iff_field {len : Nat} (insn : UInt32) {mask value : UInt32} (k : Nat)
    (v : BitVec len) (h : k + len ≤ 32)
    (hm : mask.toBitVec = (BitVec.allOnes len).setWidth 32 <<< k)
    (hv : value.toBitVec = v.setWidth 32 <<< k) :
    insn &&& mask = value ↔ insn.toBitVec.extractLsb' k len = v := by
  rw [← UInt32.toBitVec_inj, UInt32.toBitVec_and, hm, hv]
  exact and_mask_eq_iff insn.toBitVec k v h

/-- The same test of a halfword, on two fields at once. -/
theorem and_eq_iff_fields {len₁ len₂ : Nat} (insn : UInt16) {mask value : UInt16} (k₁ k₂ : Nat)
    (v₁ : BitVec len₁) (v₂ : BitVec len₂) (h₁ : k₁ + len₁ ≤ 16) (h₂ : k₂ + len₂ ≤ k₁)
    (hm : mask.toBitVec = (BitVec.allOnes len₁).setWidth 16 <<< k₁
      ||| (BitVec.allOnes len₂).setWidth 16 <<< k₂)
    (hv : value.toBitVec = v₁.setWidth 16 <<< k₁ ||| v₂.setWidth 16 <<< k₂) :
    insn &&& mask = value ↔
      insn.toBitVec.extractLsb' k₁ len₁ = v₁ ∧ insn.toBitVec.extractLsb' k₂ len₂ = v₂ := by
  rw [← UInt16.toBitVec_inj, UInt16.toBitVec_and, hm, hv]
  exact and_masks_eq_iff insn.toBitVec k₁ k₂ v₁ v₂ h₁ h₂

/-- `(insn >> k) & mask` is a field of the word, in the low bits of a `u32`. -/
theorem shiftRight_and_eq_field (insn k mask : UInt32) (len : Nat)
    (hm : mask.toBitVec = (BitVec.allOnes len).setWidth 32) :
    (insn >>> k) &&& mask
      = UInt32.ofBitVec ((insn.toBitVec.extractLsb' (k.toBitVec % 32).toNat len).setWidth 32) := by
  apply UInt32.toBitVec_inj.mp
  rw [UInt32.toBitVec_and, UInt32.toBitVec_shiftRight, hm]
  exact ushiftRight_and_mask insn.toBitVec _

/-- The same of a halfword widened to a `u32`. -/
theorem toUInt32_shiftRight_and_eq_field (insn : UInt16) (k mask : UInt32) (len : Nat)
    (hm : mask.toBitVec = (BitVec.allOnes len).setWidth 32)
    (hk : (k.toBitVec % 32).toNat + len ≤ 32) :
    (insn.toUInt32 >>> k) &&& mask
      = UInt32.ofBitVec ((insn.toBitVec.extractLsb' (k.toBitVec % 32).toNat len).setWidth 32) := by
  rw [shiftRight_and_eq_field _ k mask len hm, UInt16.toBitVec_toUInt32,
    BitVec.extractLsb'_setWidth_of_le hk]

/-! ## §2. Branch targets. -/

/-- The address `offset` bytes from `pc`, modulo `2 ^ 64`. -/
def branchTarget (pc : UInt64) (offset : Int) : UInt64 := UInt64.ofInt (pc.toNat + offset)

theorem toNat_ofInt (x : Int) : (UInt64.ofInt x).toNat = (x % 2 ^ 64).toNat := by
  show (UInt64.ofNat (x % 2 ^ 64).toNat).toNat = _
  rw [UInt64.toNat_ofNat']
  omega

theorem toBitVec_ofInt (x : Int) : (UInt64.ofInt x).toBitVec = BitVec.ofInt 64 x := by
  apply BitVec.eq_of_toNat_eq
  rw [BitVec.toNat_ofInt]
  exact toNat_ofInt x

theorem toBitVec_branchTarget (pc : UInt64) (offset : Int) :
    (branchTarget pc offset).toBitVec = pc.toBitVec + BitVec.ofInt 64 offset := by
  rw [branchTarget, toBitVec_ofInt, BitVec.ofInt_add, BitVec.ofInt_natCast,
    ← UInt64.toNat_toBitVec, BitVec.ofNat_toNat, BitVec.setWidth_eq]

/-- The two-shift sign extension of an immediate of `n` bits. -/
theorem toBitVec_signExtend {n : Nat} (x : BitVec n) (k : Int32)
    (hk : n + (k.toBitVec.smod 32).toNat = 32) :
    (signExtend (UInt32.ofBitVec (x.setWidth 32)) k).toBitVec = BitVec.ofInt 64 x.toInt := by
  show (((x.setWidth 32) <<< (k.toBitVec.smod 32).toNat).sshiftRight
    (k.toBitVec.smod 32).toNat).signExtend 64 = BitVec.ofInt 64 x.toInt
  rw [shiftLeft_sshiftRight_setWidth x hk]
  show BitVec.ofInt 64 (x.signExtend 32).toInt = BitVec.ofInt 64 x.toInt
  rw [BitVec.toInt_signExtend_of_le (by omega)]

/-- **A byte offset**: `pc` plus the sign-extended immediate. -/
theorem pcPlus_signExtend {n : Nat} (pc : UInt64) (x : BitVec n) (k : Int32)
    (hk : n + (k.toBitVec.smod 32).toNat = 32) :
    pcPlus pc (signExtend (UInt32.ofBitVec (x.setWidth 32)) k) = branchTarget pc x.toInt := by
  apply UInt64.toBitVec_inj.mp
  rw [toBitVec_branchTarget, ← toBitVec_signExtend x k hk]
  rfl

/-- **A word offset**: `pc` plus four times the sign-extended immediate. -/
theorem pcPlus_signExtend_shl2 {n : Nat} (pc : UInt64) (x : BitVec n) (k : Int32)
    (hk : n + (k.toBitVec.smod 32).toNat = 32) :
    pcPlus pc (signExtend (UInt32.ofBitVec (x.setWidth 32)) k <<< 2)
      = branchTarget pc (4 * x.toInt) := by
  apply UInt64.toBitVec_inj.mp
  have hshl : (signExtend (UInt32.ofBitVec (x.setWidth 32)) k <<< (2 : Int64)).toBitVec
      = BitVec.ofInt 64 (4 * x.toInt) := by
    calc (signExtend (UInt32.ofBitVec (x.setWidth 32)) k <<< (2 : Int64)).toBitVec
        = (signExtend (UInt32.ofBitVec (x.setWidth 32)) k).toBitVec <<< 2 := rfl
      _ = BitVec.ofInt 64 x.toInt <<< 2 := by rw [toBitVec_signExtend x k hk]
      _ = BitVec.ofInt 64 x.toInt * BitVec.ofInt 64 4 := by
        rw [BitVec.shiftLeft_eq_mul_twoPow]
        rfl
      _ = BitVec.ofInt 64 (4 * x.toInt) := by rw [BitVec.ofInt_mul, BitVec.mul_comm]
  rw [toBitVec_branchTarget, ← hshl]
  rfl

/-! ## §3. The immediates, as the fields spell them. -/

/-- The immediate of `J2_call` and `J2_jump`: `insn[24, 23:16, 13:8, 7:1]`. -/
def hexR22 (w : BitVec 32) : BitVec 22 :=
  w.extractLsb' 24 1 ++ w.extractLsb' 16 8 ++ w.extractLsb' 8 6 ++ w.extractLsb' 1 7

/-- The immediate of `J2_callt` and `J2_callf`: `insn[23:22, 20:16, 13, 7:1]`. -/
def hexR15 (w : BitVec 32) : BitVec 15 :=
  w.extractLsb' 22 2 ++ w.extractLsb' 16 5 ++ w.extractLsb' 13 1 ++ w.extractLsb' 1 7

/-- The immediate of `B` and `BL`: `insn[25:0]`. -/
def aarch64Imm26 (w : BitVec 32) : BitVec 26 := w.extractLsb' 0 26

/-- The immediate of `JAL`: `imm[20|10:1|11|19:12]` stands at `insn[31:12]`. -/
def riscvJal (w : BitVec 32) : BitVec 21 :=
  w.extractLsb' 31 1 ++ w.extractLsb' 12 8 ++ w.extractLsb' 20 1 ++ w.extractLsb' 21 10 ++ 0#1

/-- The immediate of `C.J` and `C.JAL`: `offset[11|4|9:8|10|6|7|3:1|5]` stands at
`insn[12:2]`. -/
def riscvCj (w : BitVec 16) : BitVec 12 :=
  w.extractLsb' 12 1 ++ w.extractLsb' 8 1 ++ w.extractLsb' 9 2 ++ w.extractLsb' 6 1
    ++ w.extractLsb' 7 1 ++ w.extractLsb' 2 1 ++ w.extractLsb' 11 1 ++ w.extractLsb' 3 3 ++ 0#1

/-- `hex_r22_target`, for every word. -/
theorem hexR22Target_eq (insn : UInt32) (pc : UInt64) :
    hexR22Target insn pc = branchTarget pc (4 * (hexR22 insn.toBitVec).toInt) := by
  rw [← pcPlus_signExtend_shl2 pc _ 10 (by decide), hexR22,
    BitVec.setWidth_append_append_append_eq_shiftLeft_setWidth_or]
  unfold hexR22Target
  rw [shiftRight_and_eq_field insn 24 1 1 rfl,
    shiftRight_and_eq_field insn 16 0xFF 8 rfl,
    shiftRight_and_eq_field insn 8 0x3F 6 rfl,
    shiftRight_and_eq_field insn 1 0x7F 7 rfl]
  rfl

/-- `hex_r15_target`, for every word. -/
theorem hexR15Target_eq (insn : UInt32) (pc : UInt64) :
    hexR15Target insn pc = branchTarget pc (4 * (hexR15 insn.toBitVec).toInt) := by
  rw [← pcPlus_signExtend_shl2 pc _ 17 (by decide), hexR15,
    BitVec.setWidth_append_append_append_eq_shiftLeft_setWidth_or]
  unfold hexR15Target
  rw [shiftRight_and_eq_field insn 22 0x3 2 rfl,
    shiftRight_and_eq_field insn 16 0x1F 5 rfl,
    shiftRight_and_eq_field insn 13 1 1 rfl,
    shiftRight_and_eq_field insn 1 0x7F 7 rfl]
  rfl

/-- `aarch64_imm26_target`, for every word. -/
theorem aarch64Imm26Target_eq (insn : UInt32) (pc : UInt64) :
    aarch64Imm26Target insn pc = branchTarget pc (4 * (aarch64Imm26 insn.toBitVec).toInt) := by
  rw [← pcPlus_signExtend_shl2 pc _ 6 (by decide)]
  have himm : insn &&& 0x03FFFFFF
      = UInt32.ofBitVec ((aarch64Imm26 insn.toBitVec).setWidth 32) := by
    have hfield := shiftRight_and_eq_field insn 0 0x03FFFFFF 26 rfl
    rwa [UInt32.shiftRight_zero] at hfield
  unfold aarch64Imm26Target
  rw [himm]

/-- `riscv_jal_target`, for every word. -/
theorem riscvJalTarget_eq (insn : UInt32) (pc : UInt64) :
    riscvJalTarget insn pc = branchTarget pc (riscvJal insn.toBitVec).toInt := by
  rw [← pcPlus_signExtend pc _ 11 (by decide)]
  simp only [riscvJal, BitVec.setWidth_append_eq_shiftLeft_setWidth_or,
    BitVec.shiftLeft_or_distrib, ← BitVec.shiftLeft_add, BitVec.setWidth_zero, BitVec.or_zero]
  unfold riscvJalTarget
  rw [shiftRight_and_eq_field insn 31 1 1 rfl,
    shiftRight_and_eq_field insn 21 0x3FF 10 rfl,
    shiftRight_and_eq_field insn 20 1 1 rfl,
    shiftRight_and_eq_field insn 12 0xFF 8 rfl]
  rfl

/-- The fields of the compressed jump in the order of the source, which is the order
in which they stand in the halfword. -/
theorem setWidth_riscvCj (w : BitVec 16) :
    (riscvCj w).setWidth 32
      = (w.extractLsb' 12 1).setWidth 32 <<< 11 ||| (w.extractLsb' 11 1).setWidth 32 <<< 4
        ||| (w.extractLsb' 9 2).setWidth 32 <<< 8 ||| (w.extractLsb' 8 1).setWidth 32 <<< 10
        ||| (w.extractLsb' 7 1).setWidth 32 <<< 6 ||| (w.extractLsb' 6 1).setWidth 32 <<< 7
        ||| (w.extractLsb' 3 3).setWidth 32 <<< 1 ||| (w.extractLsb' 2 1).setWidth 32 <<< 5 := by
  simp only [riscvCj, BitVec.setWidth_append_eq_shiftLeft_setWidth_or,
    BitVec.shiftLeft_or_distrib, ← BitVec.shiftLeft_add, BitVec.setWidth_zero, BitVec.or_zero]
  simp only [Nat.reduceAdd]
  ac_rfl

/-- `riscv_cj_target`, for every halfword. -/
theorem riscvCjTarget_eq (insn : UInt16) (pc : UInt64) :
    riscvCjTarget insn pc = branchTarget pc (riscvCj insn.toBitVec).toInt := by
  rw [← pcPlus_signExtend pc _ 20 (by decide), setWidth_riscvCj]
  dsimp only [riscvCjTarget]
  rw [toUInt32_shiftRight_and_eq_field insn 12 1 1 rfl (by decide),
    toUInt32_shiftRight_and_eq_field insn 11 1 1 rfl (by decide),
    toUInt32_shiftRight_and_eq_field insn 9 3 2 rfl (by decide),
    toUInt32_shiftRight_and_eq_field insn 8 1 1 rfl (by decide),
    toUInt32_shiftRight_and_eq_field insn 7 1 1 rfl (by decide),
    toUInt32_shiftRight_and_eq_field insn 6 1 1 rfl (by decide),
    toUInt32_shiftRight_and_eq_field insn 3 7 3 rfl (by decide),
    toUInt32_shiftRight_and_eq_field insn 2 1 1 rfl (by decide)]
  rfl

/-! ## §4. The RISC-V tests, in the fields of the opcode maps. -/

/-- The test for a compressed jump through a register: the code reads `rs2` and `op` as one
field. -/
theorem and_funct4_eq_iff (w : BitVec 16) (value : UInt16) (funct4 : BitVec 4)
    (hv : value.toBitVec = funct4.setWidth 16 <<< 12 ||| (0b0000010#7).setWidth 16 <<< 0) :
    UInt16.ofBitVec w &&& 0xF07F = value ↔
      w.extractLsb' 12 4 = funct4 ∧ w.extractLsb' 2 5 = 0b00000#5 ∧ w.extractLsb' 0 2 = 0b10#2 := by
  have hsplit : w.extractLsb' 2 5 ++ w.extractLsb' 0 2 = w.extractLsb' 0 7 :=
    BitVec.extractLsb'_append_extractLsb'_eq_extractLsb' rfl
  have hlow : w.extractLsb' 0 7 = 0b00000#5 ++ 0b10#2 ↔
      w.extractLsb' 2 5 = 0b00000#5 ∧ w.extractLsb' 0 2 = 0b10#2 := by
    rw [← hsplit]
    exact append_eq_append_iff
  rw [← hlow]
  exact and_eq_iff_fields (UInt16.ofBitVec w) 12 0 funct4 0b0000010#7 (by omega) (by omega) rfl hv

/-- `classify_riscv16`, test by test. -/
theorem classifyRiscv16_eq (w : BitVec 16) (pc : UInt64) :
    classifyRiscv16 (UInt16.ofBitVec w) pc =
      if w.extractLsb' 13 3 = 0b101#3 ∧ w.extractLsb' 0 2 = 0b01#2 then
        .direct (branchTarget pc (riscvCj w).toInt)
      else if w.extractLsb' 13 3 = 0b001#3 ∧ w.extractLsb' 0 2 = 0b01#2 then
        .direct (branchTarget pc (riscvCj w).toInt)
      else if w.extractLsb' 12 4 = 0b1000#4 ∧ w.extractLsb' 2 5 = 0b00000#5
          ∧ w.extractLsb' 0 2 = 0b10#2 then .indirect
      else if w.extractLsb' 12 4 = 0b1001#4 ∧ w.extractLsb' 2 5 = 0b00000#5
          ∧ w.extractLsb' 0 2 = 0b10#2 then .indirect
      else .other := by
  have hcj : UInt16.ofBitVec w &&& 0xE003 = 0xA001 ↔
      w.extractLsb' 13 3 = 0b101#3 ∧ w.extractLsb' 0 2 = 0b01#2 :=
    and_eq_iff_fields (UInt16.ofBitVec w) 13 0 0b101#3 0b01#2 (by omega) (by omega) rfl rfl
  have hcjal : UInt16.ofBitVec w &&& 0xE003 = 0x2001 ↔
      w.extractLsb' 13 3 = 0b001#3 ∧ w.extractLsb' 0 2 = 0b01#2 :=
    and_eq_iff_fields (UInt16.ofBitVec w) 13 0 0b001#3 0b01#2 (by omega) (by omega) rfl rfl
  simp only [classifyRiscv16, hcj, hcjal, and_funct4_eq_iff w 0x8002 0b1000#4 rfl,
    and_funct4_eq_iff w 0x9002 0b1001#4 rfl, riscvCjTarget_eq]

/-- `classify_riscv32`, test by test. -/
theorem classifyRiscv32_eq (w : BitVec 32) (pc : UInt64) :
    classifyRiscv32 (UInt32.ofBitVec w) pc =
      if w.extractLsb' 0 7 = 0b1101111#7 then .direct (branchTarget pc (riscvJal w).toInt)
      else if w.extractLsb' 0 7 = 0b1100111#7 then .indirect
      else .other := by
  have hjal : UInt32.ofBitVec w &&& 0x7F = 0x6F ↔ w.extractLsb' 0 7 = 0b1101111#7 :=
    and_eq_iff_field (UInt32.ofBitVec w) 0 0b1101111#7 (by omega) rfl rfl
  have hjalr : UInt32.ofBitVec w &&& 0x7F = 0x67 ↔ w.extractLsb' 0 7 = 0b1100111#7 :=
    and_eq_iff_field (UInt32.ofBitVec w) 0 0b1100111#7 (by omega) rfl rfl
  simp only [classifyRiscv32, hjal, hjalr, riscvJalTarget_eq]

/-! ## §5. From the bytes to the word. -/

theorem take_u32Le_append (w : UInt32) (rest : List UInt8) :
    (u32Le w ++ rest).take 4 = u32Le w := by
  rw [← length_u32Le w]
  exact List.take_left

theorem take_u16Le_append (w : UInt16) (rest : List UInt8) :
    (u16Le w ++ rest).take 2 = u16Le w := by
  rw [← length_u16Le w]
  exact List.take_left

theorem not_length_u32Le_append_lt (w : UInt32) (rest : List UInt8) :
    ¬ (u32Le w ++ rest).length < 4 := by
  rw [List.length_append, length_u32Le]
  omega

theorem classify_hexagon (w : UInt32) (rest : List UInt8) (pc : UInt64) (insnSize : Nat) :
    classify .hexagon (u32Le w ++ rest) pc insnSize = classifyHexagon w pc := by
  show (if (u32Le w ++ rest).length < 4 then InsnClass.other
    else classifyHexagon (u32OfLe ((u32Le w ++ rest).take 4)) pc) = _
  rw [if_neg (not_length_u32Le_append_lt w rest), take_u32Le_append, u32OfLe_u32Le]

theorem classify_aarch64 (w : UInt32) (rest : List UInt8) (pc : UInt64) (insnSize : Nat) :
    classify .aarch64 (u32Le w ++ rest) pc insnSize = classifyAarch64 w pc := by
  show (if (u32Le w ++ rest).length < 4 then InsnClass.other
    else classifyAarch64 (u32OfLe ((u32Le w ++ rest).take 4)) pc) = _
  rw [if_neg (not_length_u32Le_append_lt w rest), take_u32Le_append, u32OfLe_u32Le]

/-- The low two bits of the first byte are those of the number. -/
theorem ofNat_and_three_eq_iff (n : Nat) : UInt8.ofNat n &&& 0x03 = 0x03 ↔ n % 4 = 3 := by
  rw [← UInt8.toNat_inj, UInt8.toNat_and, UInt8.toNat_ofNat']
  show n % 256 &&& 2 ^ 2 - 1 = 3 ↔ _
  rw [Nat.and_two_pow_sub_one_eq_mod]
  omega

/-- A word whose low bits are `11` is classified as a 32-bit instruction. -/
theorem classify_riscv_word (w : UInt32) (hw : w.toBitVec.extractLsb' 0 2 = 0b11#2)
    (rest : List UInt8) (pc : UInt64) (insnSize : Nat) :
    classify .riscv (u32Le w ++ rest) pc insnSize = classifyRiscv32 w pc := by
  have hlow : w.toNat % 4 = 3 := congrArg BitVec.toNat hw
  have hbits : (u32Le w ++ rest).getD 0 0 &&& 0x03 = 0x03 :=
    (ofNat_and_three_eq_iff w.toNat).mpr hlow
  have hlen4 := not_length_u32Le_append_lt w rest
  have hlen2 : ¬ (u32Le w ++ rest).length < 2 := by omega
  show classifyRiscv (u32Le w ++ rest) pc = _
  unfold classifyRiscv
  rw [if_neg hlen2, if_pos hbits, if_neg hlen4, take_u32Le_append, u32OfLe_u32Le]

/-- A halfword whose low bits are not `11` is classified as a compressed instruction. -/
theorem classify_riscv_half (w : UInt16) (hw : w.toBitVec.extractLsb' 0 2 ≠ 0b11#2)
    (rest : List UInt8) (pc : UInt64) (insnSize : Nat) :
    classify .riscv (u16Le w ++ rest) pc insnSize = classifyRiscv16 w pc := by
  have hbits : ¬ (u16Le w ++ rest).getD 0 0 &&& 0x03 = 0x03 := by
    intro h
    have hlow : w.toNat % 4 = 3 := (ofNat_and_three_eq_iff w.toNat).mp h
    exact hw (BitVec.eq_of_toNat_eq hlow)
  have hlen : ¬ (u16Le w ++ rest).length < 2 := by
    rw [List.length_append, length_u16Le]
    omega
  show classifyRiscv (u16Le w ++ rest) pc = _
  unfold classifyRiscv
  rw [if_neg hlen, if_neg hbits, take_u16Le_append, u16OfLe_u16Le]

end QemuProfiler.Plugin

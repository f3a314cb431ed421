/-
  QemuProfiler.Plugin.Decoder
  ───────────────────────────
  The opcode-based instruction classifier (`plugin/src/decoder.rs`): bitmask
  tables on raw instruction bytes, for the call tracking of tier 2 and the
  resource flags of tier 3.

  `u32`/`u64` arithmetic is `UInt32`/`UInt64`, the sign extensions go through
  `Int32`/`Int64` exactly as the casts of the source do.  `pc + insn_size`
  wraps (release build).
-/
import QemuProfiler.Lib.Bytes

namespace QemuProfiler.Plugin

open QemuProfiler.Lib

/-! ## §1. Architectures and classes. -/

/-- Target architecture for opcode classification. -/
inductive Arch where
  | hexagon
  | aarch64
  | riscv
  | x86
  | unknown
  deriving DecidableEq, Repr

/-- Resolve the architecture from the emulator's target name. -/
def Arch.fromName (name : String) : Arch :=
  if name = "hexagon" then .hexagon
  else if name = "aarch64" ∨ name = "aarch64_be" then .aarch64
  else if name = "riscv32" ∨ name = "riscv64" then .riscv
  else if name = "x86_64" ∨ name = "i386" then .x86
  else .unknown

/-- Instruction classification for call and branch tracking. -/
inductive InsnClass where
  /-- Direct call or unconditional jump with a computable target. -/
  | direct (target : UInt64)
  /-- Indirect call, jump, or return via register. -/
  | indirect
  /-- Not relevant to tier 2. -/
  | other
  deriving DecidableEq, Repr

/-- `(((imm as i32) << k) >> k) as i64`. -/
def signExtend (imm : UInt32) (k : Int32) : Int64 := ((imm.toInt32 <<< k) >>> k).toInt64

/-- `(pc as i64).wrapping_add(offset) as u64`. -/
def pcPlus (pc : UInt64) (offset : Int64) : UInt64 := (pc.toInt64 + offset).toUInt64

/-! ## §2. Hexagon. -/

/-- 22 bits scattered at `insn[24, 23:16, 13:8, 7:1]`. -/
def hexR22Target (insn : UInt32) (pc : UInt64) : UInt64 :=
  let bit24 := (insn >>> 24) &&& 1
  let bits23_16 := (insn >>> 16) &&& 0xFF
  let bits13_8 := (insn >>> 8) &&& 0x3F
  let bits7_1 := (insn >>> 1) &&& 0x7F
  let imm22 := (bit24 <<< 21) ||| (bits23_16 <<< 13) ||| (bits13_8 <<< 7) ||| bits7_1
  pcPlus pc (signExtend imm22 10 <<< 2)

/-- 15 bits scattered at `insn[23:22, 20:16, 13, 7:1]`. -/
def hexR15Target (insn : UInt32) (pc : UInt64) : UInt64 :=
  let bits23_22 := (insn >>> 22) &&& 0x3
  let bits20_16 := (insn >>> 16) &&& 0x1F
  let bit13 := (insn >>> 13) &&& 1
  let bits7_1 := (insn >>> 1) &&& 0x7F
  let imm15 := (bits23_22 <<< 13) ||| (bits20_16 <<< 8) ||| (bit13 <<< 7) ||| bits7_1
  pcPlus pc (signExtend imm15 17 <<< 2)

def classifyHexagon (insn : UInt32) (pc : UInt64) : InsnClass :=
  -- parse bits 00: a duplex, whose class bits are not an opcode
  if (insn >>> 14) &&& 3 = 0 then .other
  else if insn &&& 0xFC000000 = 0x50000000 then .indirect
  -- J2_call
  else if insn &&& 0xFE000000 = 0x5A000000 then .direct (hexR22Target insn pc)
  -- J2_jump
  else if insn &&& 0xFE000000 = 0x58000000 then .direct (hexR22Target insn pc)
  -- J2_callt/callf
  else if insn &&& 0xFF000000 = 0x5D000000 then .direct (hexR15Target insn pc)
  else .other

/-! ## §3. AArch64. -/

def aarch64Imm26Target (insn : UInt32) (pc : UInt64) : UInt64 :=
  let imm26 := insn &&& 0x03FFFFFF
  pcPlus pc (signExtend imm26 6 <<< 2)

def classifyAarch64 (insn : UInt32) (pc : UInt64) : InsnClass :=
  -- BL imm26
  if insn &&& 0xFC000000 = 0x94000000 then .direct (aarch64Imm26Target insn pc)
  -- B imm26
  else if insn &&& 0xFC000000 = 0x14000000 then .direct (aarch64Imm26Target insn pc)
  -- BLR Xn
  else if insn &&& 0xFFFFFC1F = 0xD63F0000 then .indirect
  -- BR Xn
  else if insn &&& 0xFFFFFC1F = 0xD61F0000 then .indirect
  -- RET
  else if insn &&& 0xFFFFFC1F = 0xD65F0000 then .indirect
  else .other

/-! ## §4. RISC-V. -/

/-- `imm[20|10:1|11|19:12]` from `insn[31|30:21|20|19:12]`. -/
def riscvJalTarget (insn : UInt32) (pc : UInt64) : UInt64 :=
  let imm20 := ((insn >>> 31) &&& 1) <<< 20
  let imm10_1 := ((insn >>> 21) &&& 0x3FF) <<< 1
  let imm11 := ((insn >>> 20) &&& 1) <<< 11
  let imm19_12 := ((insn >>> 12) &&& 0xFF) <<< 12
  let imm := imm20 ||| imm19_12 ||| imm11 ||| imm10_1
  pcPlus pc (signExtend imm 11)

/-- `offset[11|4|9:8|10|6|7|3:1|5]` from `insn[12:2]`. -/
def riscvCjTarget (insn : UInt16) (pc : UInt64) : UInt64 :=
  let w := insn.toUInt32
  let offset := (((w >>> 12) &&& 1) <<< 11)
    ||| (((w >>> 11) &&& 1) <<< 4)
    ||| (((w >>> 9) &&& 3) <<< 8)
    ||| (((w >>> 8) &&& 1) <<< 10)
    ||| (((w >>> 7) &&& 1) <<< 6)
    ||| (((w >>> 6) &&& 1) <<< 7)
    ||| (((w >>> 3) &&& 7) <<< 1)
    ||| (((w >>> 2) &&& 1) <<< 5)
  pcPlus pc (signExtend offset 20)

def classifyRiscv32 (insn : UInt32) (pc : UInt64) : InsnClass :=
  let opcode := insn &&& 0x7F
  -- JAL
  if opcode = 0x6F then .direct (riscvJalTarget insn pc)
  -- JALR
  else if opcode = 0x67 then .indirect
  else .other

def classifyRiscv16 (insn : UInt16) (pc : UInt64) : InsnClass :=
  -- C.J
  if insn &&& 0xE003 = 0xA001 then .direct (riscvCjTarget insn pc)
  -- C.JAL (RV32 only)
  else if insn &&& 0xE003 = 0x2001 then .direct (riscvCjTarget insn pc)
  -- C.JR
  else if insn &&& 0xF07F = 0x8002 then .indirect
  -- C.JALR
  else if insn &&& 0xF07F = 0x9002 then .indirect
  else .other

def classifyRiscv (bytes : List UInt8) (pc : UInt64) : InsnClass :=
  if bytes.length < 2 then .other
  -- 32-bit instruction: bits[1:0] = 11
  else if bytes.getD 0 0 &&& 0x03 = 0x03 then
    if bytes.length < 4 then .other
    else classifyRiscv32 (u32OfLe (bytes.take 4)) pc
  else classifyRiscv16 (u16OfLe (bytes.take 2)) pc

/-! ## §5. x86. -/

/-- A legacy or REX byte in front of the opcode. -/
def isLegacyOrRex (b : UInt8) : Bool :=
  b ∈ [0x66, 0x67, 0x26, 0x2E, 0x36, 0x3E, 0x64, 0x65, 0xF0, 0xF2, 0xF3]
    || (0x40 ≤ b && b ≤ 0x4F)

/-- The bytes from the opcode on. -/
def skipLegacyAndRex : List UInt8 → List UInt8
  | [] => []
  | b :: bs => if isLegacyOrRex b then skipLegacyAndRex bs else b :: bs

def classifyX86 (bytes : List UInt8) (pc : UInt64) (insnSize : Nat) : InsnClass :=
  match skipLegacyAndRex bytes with
  | [] => .other
  | opcode :: rest =>
      let nextPc := pc + UInt64.ofNat insnSize
      -- CALL rel32, JMP rel32
      if (opcode = 0xE8 ∨ opcode = 0xE9) ∧ 4 ≤ rest.length then
        let rel := (u32OfLe (rest.take 4)).toInt32
        .direct (nextPc + rel.toInt64.toUInt64)
      -- JMP rel8
      else if opcode = 0xEB ∧ 1 ≤ rest.length then
        let rel := (rest.getD 0 0).toInt8
        .direct (nextPc + rel.toInt64.toUInt64)
      -- FF /2 = CALL r/m, FF /4 = JMP r/m
      else if opcode = 0xFF ∧ 1 ≤ rest.length then
        let reg := (rest.getD 0 0 >>> 3) &&& 7
        if reg = 2 ∨ reg = 4 then .indirect else .other
      else .other

/-- Classify a guest instruction from its raw bytes. -/
def classify (arch : Arch) (bytes : List UInt8) (pc : UInt64) (insnSize : Nat) : InsnClass :=
  match arch with
  | .hexagon =>
      if bytes.length < 4 then .other else classifyHexagon (u32OfLe (bytes.take 4)) pc
  | .aarch64 =>
      if bytes.length < 4 then .other else classifyAarch64 (u32OfLe (bytes.take 4)) pc
  | .riscv => classifyRiscv bytes pc
  | .x86 => classifyX86 bytes pc insnSize
  | .unknown => .other

/-! ## §6. Coprocessor resources (tier 3). -/

def coprocHvx : UInt32 := 0x1

def coprocHmx : UInt32 := 0x2

def coprocFp : UInt32 := 0x4

def coprocSimd : UInt32 := 0x10

/-- The flags of all rules whose masked value matches. -/
def matchRules (rules : List (UInt32 × UInt32 × UInt32)) (insn : UInt32) : UInt32 :=
  rules.foldl (fun flags (mask, value, flag) =>
    if insn &&& mask = value then flags ||| flag else flags) 0

/-- The mask table of the Hexagon resource rules. -/
def hexagonRules : List (UInt32 × UInt32 × UInt32) :=
  [(0xF8000000, 0x18000000, coprocHvx), (0xF8000000, 0x28000000, coprocHvx),
    (0xFFE00000, 0x92000000, coprocHmx), (0xFFE00000, 0xA6E00000, coprocHmx),
    (0xFF000000, 0xEB000000, coprocFp), (0xFF800060, 0xE8000060, coprocFp),
    (0xFF800060, 0xEA000060, coprocFp), (0xFF800000, 0xEF800000, coprocFp),
    (0xFFE00000, 0x80E00000, coprocFp), (0xFF800000, 0x84800000, coprocFp),
    (0xFF0000E0, 0x88000020, coprocFp), (0xFF000000, 0x8B000000, coprocFp),
    (0xFFE00000, 0x85E00000, coprocFp), (0xFF000000, 0xD6000000, coprocFp),
    (0xFF000000, 0xD9000000, coprocFp), (0xFF000000, 0xDC000000, coprocFp)]

def classifyResourcesHexagon (insn : UInt32) : UInt32 :=
  -- duplex: no coprocessor usage
  if (insn >>> 14) &&& 3 = 0 then 0 else matchRules hexagonRules insn

def classifyResourcesAarch64 (insn : UInt32) : UInt32 :=
  matchRules [(0x0E000000, 0x0E000000, coprocSimd ||| coprocFp),
    (0x1E000000, 0x04000000, coprocSimd)] insn

def classifyResourcesRiscv (bytes : List UInt8) : UInt32 :=
  if bytes.length < 2 then 0
  else if bytes.getD 0 0 &&& 0x03 = 0x03 then
    if bytes.length < 4 then 0
    else
      let insn := u32OfLe (bytes.take 4)
      let opcode := insn &&& 0x7F
      let width := (insn >>> 12) &&& 0x7
      if opcode = 0x57 then coprocSimd
      else if opcode = 0x07 ∨ opcode = 0x27 then
        -- vector loads and stores have width >= 5
        if width ≥ 5 then coprocFp ||| coprocSimd else coprocFp
      else if opcode = 0x53 ∨ opcode = 0x43 ∨ opcode = 0x47 ∨ opcode = 0x4B ∨ opcode = 0x4F then
        coprocFp
      else 0
  else 0

def classifyResourcesX86 (bytes : List UInt8) : UInt32 :=
  match skipLegacyAndRex bytes with
  | [] => 0
  | opcode :: _ =>
      -- VEX and EVEX
      if opcode = 0xC5 ∨ opcode = 0xC4 ∨ opcode = 0x62 then coprocSimd
      -- x87
      else if 0xD8 ≤ opcode ∧ opcode ≤ 0xDF then coprocFp
      else 0

/-- Classify a guest instruction's coprocessor usage from its raw bytes. -/
def classifyResources (arch : Arch) (bytes : List UInt8) : UInt32 :=
  match arch with
  | .hexagon =>
      if bytes.length < 4 then 0 else classifyResourcesHexagon (u32OfLe (bytes.take 4))
  | .aarch64 =>
      if bytes.length < 4 then 0 else classifyResourcesAarch64 (u32OfLe (bytes.take 4))
  | .riscv => classifyResourcesRiscv bytes
  | .x86 => classifyResourcesX86 bytes
  | .unknown => 0

end QemuProfiler.Plugin

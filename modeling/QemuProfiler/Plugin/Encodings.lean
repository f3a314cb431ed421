/-
  QemuProfiler.Plugin.Encodings
  ─────────────────────────────
  The direct branches of the four instruction sets, written out as the
  instruction sets encode them, and the classifier over the encodings.

  `DirectBranch` is the assembler's side: an instruction with its immediate
  and with every bit the immediate leaves free.  `DirectBranch.bytes` lays
  the immediate out over the word, `DirectBranch.offset` is what the
  instruction adds to its own address.  Nothing here is read off the
  classifier's masks.

    • `classify_direct` — the classifier returns the branch's target, for
      every branch, address and trailing bytes,
    • `classify_inverts_encoding` — with the indirect branches of x86 and the
      duplex words of Hexagon.
-/
import QemuProfiler.Plugin.Immediates

namespace QemuProfiler.Plugin

open QemuProfiler.Lib

/-! ## §1. The encodings. -/

/-- Parse bits of a Hexagon word that is no duplex. -/
structure ParseBits where
  bits : BitVec 2
  notDuplex : bits ≠ 0b00#2

/-- What x86 allows in front of an opcode: a legacy prefix or a REX byte. -/
inductive Prefix where
  | operandSize
  | addressSize
  /-- Segment overrides. -/
  | es
  | cs
  | ss
  | ds
  | fs
  | gs
  | lock
  | repne
  | rep
  /-- REX, with its bits W, R, X and B. -/
  | rex (wrxb : BitVec 4)

def Prefix.byte : Prefix → UInt8
  | .operandSize => 0x66
  | .addressSize => 0x67
  | .es => 0x26
  | .cs => 0x2E
  | .ss => 0x36
  | .ds => 0x3E
  | .fs => 0x64
  | .gs => 0x65
  | .lock => 0xF0
  | .repne => 0xF2
  | .rep => 0xF3
  | .rex wrxb => UInt8.ofBitVec (0x4#4 ++ wrxb)

abbrev Prefixes := List Prefix

def Prefixes.bytes (prefixes : Prefixes) : List UInt8 := prefixes.map Prefix.byte

/-- A direct branch, with the bits its encoding leaves free. -/
inductive DirectBranch where
  /-- `J2_call #r22:2` -/
  | j2Call (imm : BitVec 22) (pp : ParseBits) (bit0 : BitVec 1)
  /-- `J2_jump #r22:2` -/
  | j2Jump (imm : BitVec 22) (pp : ParseBits) (bit0 : BitVec 1)
  /-- `J2_callt`, `J2_callf #r15:2`: the sense at bit 21, the predicate in bits 12 to 8. -/
  | j2CallIf (sense : BitVec 1) (imm : BitVec 15) (pp : ParseBits) (pred : BitVec 5)
      (bit0 : BitVec 1)
  | b (imm : BitVec 26)
  | bl (imm : BitVec 26)
  /-- `JAL rd, 2*imm` -/
  | jal (imm : BitVec 20) (rd : BitVec 5)
  /-- `C.J 2*imm` -/
  | cj (imm : BitVec 11)
  | callRel32 (prefixes : Prefixes) (rel : UInt32)
  | jmpRel32 (prefixes : Prefixes) (rel : UInt32)
  | jmpRel8 (prefixes : Prefixes) (rel : UInt8)

/-- `ooooooo i iiiiiiii PP iiiiii iiiiiii b` -/
def r22Word (opcode : BitVec 7) (imm : BitVec 22) (pp : BitVec 2) (bit0 : BitVec 1) : BitVec 32 :=
  opcode ++ imm.extractLsb' 13 9 ++ pp ++ imm.extractLsb' 0 13 ++ bit0

/-- `01011101 ii s iiiii PP i ppppp iiiiiii b` -/
def r15Word (sense : BitVec 1) (imm : BitVec 15) (pp : BitVec 2) (pred : BitVec 5)
    (bit0 : BitVec 1) : BitVec 32 :=
  0b01011101#8 ++ imm.extractLsb' 13 2 ++ sense ++ imm.extractLsb' 8 5 ++ pp
    ++ imm.extractLsb' 7 1 ++ pred ++ imm.extractLsb' 0 7 ++ bit0

/-- `imm[20|10:1|11|19:12] rd 1101111`, with the immediate counted in halfwords. -/
def jalWord (imm : BitVec 20) (rd : BitVec 5) : BitVec 32 :=
  imm.extractLsb' 19 1 ++ imm.extractLsb' 0 10 ++ imm.extractLsb' 10 1 ++ imm.extractLsb' 11 8
    ++ rd ++ 0b1101111#7

/-- `funct3 imm[11|4|9:8|10|6|7|3:1|5] 01`, with the immediate counted in halfwords. -/
def cjWord (funct3 : BitVec 3) (imm : BitVec 11) : BitVec 16 :=
  funct3 ++ imm.extractLsb' 10 1 ++ imm.extractLsb' 3 1 ++ imm.extractLsb' 7 2
    ++ imm.extractLsb' 9 1 ++ imm.extractLsb' 5 1 ++ imm.extractLsb' 6 1 ++ imm.extractLsb' 0 3
    ++ imm.extractLsb' 4 1 ++ 0b01#2

namespace DirectBranch

def arch : DirectBranch → Arch
  | j2Call .. | j2Jump .. | j2CallIf .. => .hexagon
  | b _ | bl _ => .aarch64
  | jal .. | cj _ => .riscv
  | callRel32 .. | jmpRel32 .. | jmpRel8 .. => .x86

/-- The instruction as it stands in memory. -/
def bytes : DirectBranch → List UInt8
  | j2Call imm pp bit0 => u32Le (UInt32.ofBitVec (r22Word 0b0101101#7 imm pp.bits bit0))
  | j2Jump imm pp bit0 => u32Le (UInt32.ofBitVec (r22Word 0b0101100#7 imm pp.bits bit0))
  | j2CallIf sense imm pp pred bit0 =>
      u32Le (UInt32.ofBitVec (r15Word sense imm pp.bits pred bit0))
  | b imm => u32Le (UInt32.ofBitVec (0b000101#6 ++ imm))
  | bl imm => u32Le (UInt32.ofBitVec (0b100101#6 ++ imm))
  | jal imm rd => u32Le (UInt32.ofBitVec (jalWord imm rd))
  | cj imm => u16Le (UInt16.ofBitVec (cjWord 0b101#3 imm))
  | callRel32 prefixes rel => prefixes.bytes ++ 0xE8 :: u32Le rel
  | jmpRel32 prefixes rel => prefixes.bytes ++ 0xE9 :: u32Le rel
  | jmpRel8 prefixes rel => prefixes.bytes ++ [0xEB, rel]

/-- What the branch adds to its address; x86 counts from the next instruction. -/
def offset (insnSize : Nat) : DirectBranch → Int
  | j2Call imm .. | j2Jump imm .. => 4 * imm.toInt
  | j2CallIf _ imm .. => 4 * imm.toInt
  | b imm | bl imm => 4 * imm.toInt
  | jal imm _ => 2 * imm.toInt
  | cj imm => 2 * imm.toInt
  | callRel32 _ rel | jmpRel32 _ rel => insnSize + rel.toInt32.toInt
  | jmpRel8 _ rel => insnSize + rel.toInt8.toInt

end DirectBranch

/-! ## §2. The fields of the encodings. -/

section Fields

variable (opcode : BitVec 7) (imm22 : BitVec 22) (imm15 : BitVec 15) (pp : BitVec 2)
  (pred : BitVec 5) (sense bit0 : BitVec 1)

theorem r22Word_opcode : (r22Word opcode imm22 pp bit0).extractLsb' 25 7 = opcode := by
  simp (disch := decide) only [r22Word, BitVec.extractLsb'_append_eq_of_le]
  exact BitVec.extractLsb'_eq_self

theorem r22Word_parse : (r22Word opcode imm22 pp bit0).extractLsb' 14 2 = pp := by
  simp (disch := decide) only [r22Word, BitVec.extractLsb'_append_eq_of_le,
    BitVec.extractLsb'_append_eq_of_add_le]
  exact BitVec.extractLsb'_eq_self

theorem r22Word_notDuplex (parse : ParseBits) :
    (r22Word opcode imm22 parse.bits bit0).extractLsb' 14 2 ≠ 0b00#2 := by
  rw [r22Word_parse]
  exact parse.notDuplex

theorem hexR22_r22Word : hexR22 (r22Word opcode imm22 pp bit0) = imm22 := by
  simp (disch := decide) only [hexR22, r22Word, BitVec.extractLsb'_append_eq_of_le,
    BitVec.extractLsb'_append_eq_of_add_le, extractLsb'_extractLsb',
    BitVec.extractLsb'_append_extractLsb'_eq_extractLsb']
  exact BitVec.extractLsb'_eq_self

theorem r15Word_opcode : (r15Word sense imm15 pp pred bit0).extractLsb' 24 8 = 0b01011101#8 := by
  simp (disch := decide) only [r15Word, BitVec.extractLsb'_append_eq_of_le]
  exact BitVec.extractLsb'_eq_self

theorem r15Word_parse : (r15Word sense imm15 pp pred bit0).extractLsb' 14 2 = pp := by
  simp (disch := decide) only [r15Word, BitVec.extractLsb'_append_eq_of_le,
    BitVec.extractLsb'_append_eq_of_add_le]
  exact BitVec.extractLsb'_eq_self

theorem r15Word_notDuplex (parse : ParseBits) :
    (r15Word sense imm15 parse.bits pred bit0).extractLsb' 14 2 ≠ 0b00#2 := by
  rw [r15Word_parse]
  exact parse.notDuplex

theorem hexR15_r15Word : hexR15 (r15Word sense imm15 pp pred bit0) = imm15 := by
  simp (disch := decide) only [hexR15, r15Word, BitVec.extractLsb'_append_eq_of_le,
    BitVec.extractLsb'_append_eq_of_add_le, extractLsb'_extractLsb',
    BitVec.extractLsb'_append_extractLsb'_eq_extractLsb']
  exact BitVec.extractLsb'_eq_self

end Fields

theorem jalWord_opcode (imm : BitVec 20) (rd : BitVec 5) :
    (jalWord imm rd).extractLsb' 0 7 = 0b1101111#7 :=
  BitVec.extractLsb'_append_eq_right

theorem riscvJal_jalWord (imm : BitVec 20) (rd : BitVec 5) :
    riscvJal (jalWord imm rd) = imm ++ 0#1 := by
  have himm : (jalWord imm rd).extractLsb' 31 1 ++ (jalWord imm rd).extractLsb' 12 8
      ++ (jalWord imm rd).extractLsb' 20 1 ++ (jalWord imm rd).extractLsb' 21 10 = imm := by
    simp (disch := decide) only [jalWord, BitVec.extractLsb'_append_eq_of_le,
      BitVec.extractLsb'_append_eq_of_add_le, extractLsb'_extractLsb',
      BitVec.extractLsb'_append_extractLsb'_eq_extractLsb']
    exact BitVec.extractLsb'_eq_self
  rw [riscvJal, himm]

theorem cjWord_op (funct3 : BitVec 3) (imm : BitVec 11) :
    (cjWord funct3 imm).extractLsb' 0 2 = 0b01#2 :=
  BitVec.extractLsb'_append_eq_right

theorem cjWord_funct3 (funct3 : BitVec 3) (imm : BitVec 11) :
    (cjWord funct3 imm).extractLsb' 13 3 = funct3 := by
  simp (disch := decide) only [cjWord, BitVec.extractLsb'_append_eq_of_le]
  exact BitVec.extractLsb'_eq_self

theorem riscvCj_cjWord (funct3 : BitVec 3) (imm : BitVec 11) :
    riscvCj (cjWord funct3 imm) = imm ++ 0#1 := by
  have himm : (cjWord funct3 imm).extractLsb' 12 1 ++ (cjWord funct3 imm).extractLsb' 8 1
      ++ (cjWord funct3 imm).extractLsb' 9 2 ++ (cjWord funct3 imm).extractLsb' 6 1
      ++ (cjWord funct3 imm).extractLsb' 7 1 ++ (cjWord funct3 imm).extractLsb' 2 1
      ++ (cjWord funct3 imm).extractLsb' 11 1 ++ (cjWord funct3 imm).extractLsb' 3 3 = imm := by
    simp (disch := decide) only [cjWord, BitVec.extractLsb'_append_eq_of_le,
      BitVec.extractLsb'_append_eq_of_add_le, extractLsb'_extractLsb',
      BitVec.extractLsb'_append_extractLsb'_eq_extractLsb']
    exact BitVec.extractLsb'_eq_self
  rw [riscvCj, himm]

/-- A halfword immediate, with its zero bit. -/
theorem toInt_append_zero {n : Nat} (x : BitVec (n + 1)) : (x ++ 0#1).toInt = 2 * x.toInt := by
  simp [BitVec.toInt_append]

/-! ## §3. The fixed-width sets. -/

/-- The parse bits of the duplex test. -/
theorem parse_eq_zero_iff (insn : UInt32) :
    (insn >>> 14) &&& 3 = 0 ↔ insn.toBitVec.extractLsb' 14 2 = 0b00#2 := by
  rw [shiftRight_and_eq_field insn 14 3 2 rfl, ← UInt32.toBitVec_inj]
  show (insn.toBitVec.extractLsb' 14 2).setWidth 32 = 0#32 ↔ _
  constructor
  · intro h
    have hlow : ((insn.toBitVec.extractLsb' 14 2).setWidth 32).setWidth 2 = (0#32).setWidth 2 := by
      rw [h]
    simpa using hlow
  · intro h
    rw [h]
    rfl

/-- What one mask has seen rules out the tests of a smaller one. -/
theorem and_ne_of_and_eq {insn mask value mask' value' : UInt32} (h : insn &&& mask = value)
    (hle : mask &&& mask' = mask') (hne : value &&& mask' ≠ value') : insn &&& mask' ≠ value' := by
  rw [← hle, ← UInt32.and_assoc, h]
  exact hne

theorem classifyHexagon_duplex (insn : UInt32) (pc : UInt64)
    (hpp : insn.toBitVec.extractLsb' 14 2 = 0b00#2) : classifyHexagon insn pc = .other :=
  if_pos ((parse_eq_zero_iff insn).mpr hpp)

theorem classifyHexagon_call (insn : UInt32) (pc : UInt64)
    (hpp : insn.toBitVec.extractLsb' 14 2 ≠ 0b00#2)
    (hop : insn.toBitVec.extractLsb' 25 7 = 0b0101101#7) :
    classifyHexagon insn pc = .direct (branchTarget pc (4 * (hexR22 insn.toBitVec).toInt)) := by
  have hmask : insn &&& 0xFE000000 = 0x5A000000 :=
    (and_eq_iff_field insn 25 0b0101101#7 (by omega) rfl rfl).mpr hop
  have hjumpr : insn &&& 0xFC000000 ≠ 0x50000000 :=
    and_ne_of_and_eq hmask (by decide) (by decide)
  unfold classifyHexagon
  rw [if_neg (mt (parse_eq_zero_iff insn).mp hpp), if_neg hjumpr, if_pos hmask, hexR22Target_eq]

theorem classifyHexagon_jump (insn : UInt32) (pc : UInt64)
    (hpp : insn.toBitVec.extractLsb' 14 2 ≠ 0b00#2)
    (hop : insn.toBitVec.extractLsb' 25 7 = 0b0101100#7) :
    classifyHexagon insn pc = .direct (branchTarget pc (4 * (hexR22 insn.toBitVec).toInt)) := by
  have hmask : insn &&& 0xFE000000 = 0x58000000 :=
    (and_eq_iff_field insn 25 0b0101100#7 (by omega) rfl rfl).mpr hop
  have hjumpr : insn &&& 0xFC000000 ≠ 0x50000000 :=
    and_ne_of_and_eq hmask (by decide) (by decide)
  have hcall : insn &&& 0xFE000000 ≠ 0x5A000000 :=
    and_ne_of_and_eq hmask (by decide) (by decide)
  unfold classifyHexagon
  rw [if_neg (mt (parse_eq_zero_iff insn).mp hpp), if_neg hjumpr, if_neg hcall, if_pos hmask,
    hexR22Target_eq]

/-- The conditional call is tested last: its opcode differs from those of the three tests before
it in the bits that each of them sees. -/
theorem classifyHexagon_callIf (insn : UInt32) (pc : UInt64)
    (hpp : insn.toBitVec.extractLsb' 14 2 ≠ 0b00#2)
    (hop : insn.toBitVec.extractLsb' 24 8 = 0b01011101#8) :
    classifyHexagon insn pc = .direct (branchTarget pc (4 * (hexR15 insn.toBitVec).toInt)) := by
  have hmask : insn &&& 0xFF000000 = 0x5D000000 :=
    (and_eq_iff_field insn 24 0b01011101#8 (by omega) rfl rfl).mpr hop
  have hjumpr : insn &&& 0xFC000000 ≠ 0x50000000 :=
    and_ne_of_and_eq hmask (by decide) (by decide)
  have hcall : insn &&& 0xFE000000 ≠ 0x5A000000 :=
    and_ne_of_and_eq hmask (by decide) (by decide)
  have hjump : insn &&& 0xFE000000 ≠ 0x58000000 :=
    and_ne_of_and_eq hmask (by decide) (by decide)
  unfold classifyHexagon
  rw [if_neg (mt (parse_eq_zero_iff insn).mp hpp), if_neg hjumpr, if_neg hcall, if_neg hjump,
    if_pos hmask, hexR15Target_eq]

theorem classifyAarch64_bl (insn : UInt32) (pc : UInt64)
    (hop : insn.toBitVec.extractLsb' 26 6 = 0b100101#6) :
    classifyAarch64 insn pc
      = .direct (branchTarget pc (4 * (aarch64Imm26 insn.toBitVec).toInt)) := by
  have hmask : insn &&& 0xFC000000 = 0x94000000 :=
    (and_eq_iff_field insn 26 0b100101#6 (by omega) rfl rfl).mpr hop
  unfold classifyAarch64
  rw [if_pos hmask, aarch64Imm26Target_eq]

theorem classifyAarch64_b (insn : UInt32) (pc : UInt64)
    (hop : insn.toBitVec.extractLsb' 26 6 = 0b000101#6) :
    classifyAarch64 insn pc
      = .direct (branchTarget pc (4 * (aarch64Imm26 insn.toBitVec).toInt)) := by
  have hmask : insn &&& 0xFC000000 = 0x14000000 :=
    (and_eq_iff_field insn 26 0b000101#6 (by omega) rfl rfl).mpr hop
  have hbl : insn &&& 0xFC000000 ≠ 0x94000000 :=
    and_ne_of_and_eq hmask (by decide) (by decide)
  unfold classifyAarch64
  rw [if_neg hbl, if_pos hmask, aarch64Imm26Target_eq]

/-! ## §4. x86. -/

/-- The decoder's list of prefixes is that of the instruction set. -/
theorem isLegacyOrRex_iff (b : UInt8) : isLegacyOrRex b = true ↔ ∃ p : Prefix, p.byte = b := by
  constructor
  · intro h
    rcases Bool.or_eq_true_iff.mp h with hlegacy | hrex
    · simp only [decide_eq_true_eq, List.mem_cons, List.not_mem_nil, or_false] at hlegacy
      rcases hlegacy with rfl | rfl | rfl | rfl | rfl | rfl | rfl | rfl | rfl | rfl | rfl
      · exact ⟨.operandSize, rfl⟩
      · exact ⟨.addressSize, rfl⟩
      · exact ⟨.es, rfl⟩
      · exact ⟨.cs, rfl⟩
      · exact ⟨.ss, rfl⟩
      · exact ⟨.ds, rfl⟩
      · exact ⟨.fs, rfl⟩
      · exact ⟨.gs, rfl⟩
      · exact ⟨.lock, rfl⟩
      · exact ⟨.repne, rfl⟩
      · exact ⟨.rep, rfl⟩
    · -- the high half is 4, the low half is W, R, X and B
      have hbits : ∀ x : BitVec 8, (0x40#8 ≤ x && x ≤ 0x4F#8) = true →
          0x4#4 ++ x.setWidth 4 = x := by decide
      exact ⟨.rex (b.toBitVec.setWidth 4), UInt8.toBitVec_inj.mp (hbits b.toBitVec hrex)⟩
  · intro hex
    obtain ⟨p, rfl⟩ := hex
    cases p with
    | rex wrxb =>
        revert wrxb
        decide
    | _ => rfl

/-- The loop over the prefixes skips them. -/
theorem skipLegacyAndRex_skipped (prefixes : Prefixes) (bytes : List UInt8) :
    skipLegacyAndRex (prefixes.bytes ++ bytes) = skipLegacyAndRex bytes := by
  induction prefixes with
  | nil => rfl
  | cons p prefixes ih =>
      -- one turn of the loop: `i += 1`
      show (if isLegacyOrRex p.byte then skipLegacyAndRex (Prefixes.bytes prefixes ++ bytes)
        else _) = _
      rw [if_pos ((isLegacyOrRex_iff p.byte).mpr ⟨p, rfl⟩)]
      exact ih

/-- … and stops at the opcode. -/
theorem skipLegacyAndRex_append (prefixes : Prefixes) {opcode : UInt8} (rest : List UInt8)
    (hop : isLegacyOrRex opcode = false) :
    skipLegacyAndRex (prefixes.bytes ++ opcode :: rest) = opcode :: rest := by
  rw [skipLegacyAndRex_skipped]
  show (if isLegacyOrRex opcode then skipLegacyAndRex rest else opcode :: rest) = _
  rw [hop]
  rfl

/-- The address after the instruction plus a relative offset. -/
theorem nextPc_add_eq_branchTarget (pc : UInt64) (insnSize : Nat) (rel : Int64) :
    pc + UInt64.ofNat insnSize + rel.toUInt64 = branchTarget pc (insnSize + rel.toInt) := by
  apply UInt64.toBitVec_inj.mp
  rw [toBitVec_branchTarget, BitVec.ofInt_add, ← BitVec.add_assoc, BitVec.ofInt_natCast]
  show pc.toBitVec + BitVec.ofNat 64 insnSize + rel.toBitVec = _
  rw [← Int64.toInt_toBitVec, BitVec.ofInt_toInt]

theorem classifyX86_rel32 (prefixes : Prefixes) {opcode : UInt8}
    (hop : opcode = 0xE8 ∨ opcode = 0xE9) (rel : UInt32) (rest : List UInt8) (pc : UInt64)
    (insnSize : Nat) :
    classifyX86 (prefixes.bytes ++ opcode :: (u32Le rel ++ rest)) pc insnSize
      = .direct (branchTarget pc (insnSize + rel.toInt32.toInt)) := by
  have hskip := skipLegacyAndRex_append prefixes (u32Le rel ++ rest)
    (show isLegacyOrRex opcode = false by rcases hop with rfl | rfl <;> decide)
  have hlen : 4 ≤ (u32Le rel ++ rest).length :=
    Nat.not_lt.mp (not_length_u32Le_append_lt rel rest)
  unfold classifyX86
  rw [hskip]
  dsimp only
  rw [if_pos ⟨hop, hlen⟩, take_u32Le_append, u32OfLe_u32Le, nextPc_add_eq_branchTarget,
    Int32.toInt_toInt64]

theorem classifyX86_rel8 (prefixes : Prefixes) (rel : UInt8) (rest : List UInt8) (pc : UInt64)
    (insnSize : Nat) :
    classifyX86 (prefixes.bytes ++ 0xEB :: rel :: rest) pc insnSize
      = .direct (branchTarget pc (insnSize + rel.toInt8.toInt)) := by
  have hskip := skipLegacyAndRex_append prefixes (rel :: rest)
    (show isLegacyOrRex 0xEB = false by decide)
  have hrel32 : ¬ (((0xEB : UInt8) = 0xE8 ∨ (0xEB : UInt8) = 0xE9) ∧ 4 ≤ (rel :: rest).length) :=
    fun h => absurd h.1 (by decide)
  unfold classifyX86
  rw [hskip]
  dsimp only
  rw [if_neg hrel32, if_pos ⟨rfl, Nat.le_add_left 1 rest.length⟩, nextPc_add_eq_branchTarget,
    Int8.toInt_toInt64]
  rfl

/-- `FF /2` (`CALL r/m`) and `FF /4` (`JMP r/m`), with any addressing mode. -/
def ffBytes (jump : Bool) (mode : BitVec 2) (rm : BitVec 3) : List UInt8 :=
  [0xFF, UInt8.ofBitVec (mode ++ (if jump then 4#3 else 2#3) ++ rm)]

/-- The register field of a ModRM byte. -/
theorem modRm_reg (mode : BitVec 2) (reg rm : BitVec 3) :
    (UInt8.ofBitVec (mode ++ reg ++ rm) >>> 3) &&& 7 = UInt8.ofBitVec (reg.setWidth 8) := by
  apply UInt8.toBitVec_inj.mp
  rw [UInt8.toBitVec_and, UInt8.toBitVec_shiftRight]
  show ((mode ++ reg ++ rm) >>> 3) &&& (BitVec.allOnes 3).setWidth 8 = reg.setWidth 8
  rw [ushiftRight_and_mask]
  simp (disch := decide) only [BitVec.extractLsb'_append_eq_of_le,
    BitVec.extractLsb'_append_eq_of_add_le]
  exact congrArg (BitVec.setWidth 8) BitVec.extractLsb'_eq_self

theorem classifyX86_ff (prefixes : Prefixes) (jump : Bool) (mode : BitVec 2) (rm : BitVec 3)
    (rest : List UInt8) (pc : UInt64) (insnSize : Nat) :
    classifyX86 (prefixes.bytes ++ (ffBytes jump mode rm ++ rest)) pc insnSize = .indirect := by
  set modRm := UInt8.ofBitVec (mode ++ (if jump then 4#3 else 2#3) ++ rm) with hmodRm
  have hreg : (modRm >>> 3) &&& 7 = 2 ∨ (modRm >>> 3) &&& 7 = 4 := by
    rw [hmodRm, modRm_reg]
    cases jump <;> decide
  have hskip := skipLegacyAndRex_append prefixes (modRm :: rest)
    (show isLegacyOrRex 0xFF = false by decide)
  have hrel32 : ¬ (((0xFF : UInt8) = 0xE8 ∨ (0xFF : UInt8) = 0xE9) ∧ 4 ≤ (modRm :: rest).length) :=
    fun h => absurd h.1 (by decide)
  have hrel8 : ¬ ((0xFF : UInt8) = 0xEB ∧ 1 ≤ (modRm :: rest).length) :=
    fun h => absurd h.1 (by decide)
  show classifyX86 (prefixes.bytes ++ 0xFF :: modRm :: rest) pc insnSize = .indirect
  unfold classifyX86
  rw [hskip]
  dsimp only
  rw [if_neg hrel32, if_neg hrel8, if_pos ⟨rfl, Nat.le_add_left 1 rest.length⟩]
  exact if_pos hreg

/-! ## §5. The classifier inverts the encodings. -/

/-- **Direct branches**: the classifier finds the target of every encoded branch. -/
theorem classify_direct (branch : DirectBranch) (rest : List UInt8) (pc : UInt64)
    (insnSize : Nat) :
    classify branch.arch (branch.bytes ++ rest) pc insnSize
      = .direct (branchTarget pc (branch.offset insnSize)) := by
  cases branch with
  -- each case: the word is read back, its opcode selects the arm, its fields give the offset
  | j2Call imm pp bit0 =>
      refine (classify_hexagon _ rest pc insnSize).trans ?_
      rw [classifyHexagon_call (UInt32.ofBitVec (r22Word _ imm pp.bits bit0)) pc
        (r22Word_notDuplex _ imm bit0 pp) (r22Word_opcode _ imm _ bit0), hexR22_r22Word]
      rfl
  | j2Jump imm pp bit0 =>
      refine (classify_hexagon _ rest pc insnSize).trans ?_
      rw [classifyHexagon_jump (UInt32.ofBitVec (r22Word _ imm pp.bits bit0)) pc
        (r22Word_notDuplex _ imm bit0 pp) (r22Word_opcode _ imm _ bit0), hexR22_r22Word]
      rfl
  | j2CallIf sense imm pp pred bit0 =>
      refine (classify_hexagon _ rest pc insnSize).trans ?_
      rw [classifyHexagon_callIf (UInt32.ofBitVec (r15Word sense imm pp.bits pred bit0)) pc
        (r15Word_notDuplex imm pred sense bit0 pp) (r15Word_opcode imm _ pred sense bit0),
        hexR15_r15Word]
      rfl
  | b imm =>
      refine (classify_aarch64 _ rest pc insnSize).trans ?_
      rw [classifyAarch64_b _ pc BitVec.extractLsb'_append_eq_left, aarch64Imm26,
        BitVec.extractLsb'_append_eq_right]
      rfl
  | bl imm =>
      refine (classify_aarch64 _ rest pc insnSize).trans ?_
      rw [classifyAarch64_bl _ pc BitVec.extractLsb'_append_eq_left, aarch64Imm26,
        BitVec.extractLsb'_append_eq_right]
      rfl
  -- RISC-V tells a word from a half word by the low two bits
  | jal imm rd =>
      have hlow : (jalWord imm rd).extractLsb' 0 2 = 0b11#2 := by
        rw [← extractLsb'_extractLsb' (jalWord imm rd) (show 0 + 2 ≤ 7 by omega), jalWord_opcode]
        rfl
      refine (classify_riscv_word (UInt32.ofBitVec (jalWord imm rd)) hlow rest pc insnSize).trans ?_
      rw [classifyRiscv32_eq, if_pos (jalWord_opcode imm rd), riscvJal_jalWord, toInt_append_zero]
      rfl
  | cj imm =>
      have hlow : (cjWord 0b101#3 imm).extractLsb' 0 2 ≠ 0b11#2 := by
        rw [cjWord_op]
        decide
      refine (classify_riscv_half (UInt16.ofBitVec (cjWord 0b101#3 imm)) hlow rest pc insnSize).trans ?_
      rw [classifyRiscv16_eq, if_pos ⟨cjWord_funct3 _ imm, cjWord_op _ imm⟩, riscvCj_cjWord,
        toInt_append_zero]
      rfl
  | callRel32 prefixes rel =>
      show classifyX86 (prefixes.bytes ++ 0xE8 :: u32Le rel ++ rest) pc insnSize = _
      rw [List.append_assoc]
      exact classifyX86_rel32 prefixes (.inl rfl) rel rest pc insnSize
  | jmpRel32 prefixes rel =>
      show classifyX86 (prefixes.bytes ++ 0xE9 :: u32Le rel ++ rest) pc insnSize = _
      rw [List.append_assoc]
      exact classifyX86_rel32 prefixes (.inr rfl) rel rest pc insnSize
  | jmpRel8 prefixes rel =>
      show classifyX86 (prefixes.bytes ++ [0xEB, rel] ++ rest) pc insnSize = _
      rw [List.append_assoc]
      exact classifyX86_rel8 prefixes rel rest pc insnSize

/-- **Decoding inverts the encodings**: every direct branch is classified with its target, the
register-indirect branches of x86 as indirect, and no duplex word as a branch. -/
theorem classify_inverts_encoding :
    (∀ (branch : DirectBranch) (rest : List UInt8) (pc : UInt64) (insnSize : Nat),
      classify branch.arch (branch.bytes ++ rest) pc insnSize
        = .direct (branchTarget pc (branch.offset insnSize)))
    ∧ (∀ (prefixes : Prefixes) (jump : Bool) (mode : BitVec 2) (rm : BitVec 3)
        (rest : List UInt8) (pc : UInt64) (insnSize : Nat),
      classify .x86 (prefixes.bytes ++ (ffBytes jump mode rm ++ rest)) pc insnSize = .indirect)
    ∧ (∀ (high : BitVec 16) (low : BitVec 14) (rest : List UInt8) (pc : UInt64) (insnSize : Nat),
      classify .hexagon (u32Le (UInt32.ofBitVec (high ++ 0b00#2 ++ low)) ++ rest) pc insnSize
        = .other) := by
  refine ⟨classify_direct, classifyX86_ff, ?_⟩
  intro high low rest pc insnSize
  have hpp : (high ++ 0b00#2 ++ low).extractLsb' 14 2 = 0b00#2 := by
    rw [BitVec.extractLsb'_append_eq_of_le (by omega)]
    exact BitVec.extractLsb'_append_eq_right
  rw [classify_hexagon]
  exact classifyHexagon_duplex _ pc hpp

end QemuProfiler.Plugin

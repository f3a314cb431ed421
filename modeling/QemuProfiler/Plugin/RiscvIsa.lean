/-
  QemuProfiler.Plugin.RiscvIsa
  ────────────────────────────
  The jumps of RISC-V as the instruction set defines them, for both targets
  that `Arch::from_name` maps to the one RISC-V classifier.

  `Encoding` is any 16- or 32-bit encoding, `Encoding.decode` the opcode maps
  of the base set and of the C extension as far as they tell the jumps from
  everything else, `Insn.isaClass` what a classifier of that instruction set
  would answer.  The two targets read one point of the compressed map
  differently and wrap addresses at different widths; the classifier knows
  neither.

    • `classify_agrees_iff` — for every valid encoding, the classifier answers
      as the instruction set does exactly when the instruction is not `C.EBREAK`
      nor `C.ADDIW`, and a jump on riscv32 stays inside the address space.
-/
import QemuProfiler.Plugin.Immediates

namespace QemuProfiler.Plugin

open QemuProfiler.Lib

/-! ## §1. The two targets. -/

/-- The RISC-V targets of the emulator. -/
inductive RiscvTarget where
  | riscv32
  | riscv64
  deriving DecidableEq, Repr

namespace RiscvTarget

/-- The target's name, as the emulator reports it. -/
def name : RiscvTarget → String
  | riscv32 => "riscv32"
  | riscv64 => "riscv64"

/-- The width of an address. -/
def xlen : RiscvTarget → Nat
  | riscv32 => 32
  | riscv64 => 64

/-- The address `offset` bytes from `pc`, in the target's address space. -/
def jumpTarget (target : RiscvTarget) (pc : UInt64) (offset : Int) : UInt64 :=
  UInt64.ofInt ((pc.toNat + offset) % 2 ^ target.xlen)

end RiscvTarget

/-! ## §2. Encodings and instructions. -/

/-- A 16- or 32-bit encoding: the low bits tell the length. -/
inductive Encoding where
  | half (w : BitVec 16) (short : w.extractLsb' 0 2 ≠ 0b11#2)
  | word (w : BitVec 32) (long : w.extractLsb' 0 2 = 0b11#2)
      (notLonger : w.extractLsb' 2 3 ≠ 0b111#3)

/-- An instruction, as far as jumps are concerned: the jumps, the two instructions that
share a jump's place in the opcode map, and the place of any other. -/
inductive Insn where
  | jal (offset : BitVec 21)
  | jalr
  | cJ (offset : BitVec 12)
  | cJal (offset : BitVec 12)
  | cJr
  | cJalr
  | cAddiw
  | cEbreak
  /-- Another 32-bit instruction, with its major opcode. -/
  | base (opcode : BitVec 7)
  /-- Another compressed instruction, with its quadrant and `funct3`. -/
  | compressed (op : BitVec 2) (funct3 : BitVec 3)
  deriving DecidableEq, Repr

/-- The 32-bit encodings; `JALR` with a nonzero `funct3` is reserved. -/
def decodeWord (w : BitVec 32) : Option Insn :=
  if w.extractLsb' 0 7 = 0b1101111#7 then some (.jal (riscvJal w))
  else if w.extractLsb' 0 7 = 0b1100111#7 then
    if w.extractLsb' 12 3 = 0b000#3 then some .jalr else none
  else some (.base (w.extractLsb' 0 7))

/-- The compressed encodings; `C.ADDIW` to `x0` and `C.JR` through `x0` are reserved. -/
def decodeHalf (target : RiscvTarget) (w : BitVec 16) : Option Insn :=
  if w.extractLsb' 13 3 = 0b101#3 ∧ w.extractLsb' 0 2 = 0b01#2 then some (.cJ (riscvCj w))
  else if w.extractLsb' 13 3 = 0b001#3 ∧ w.extractLsb' 0 2 = 0b01#2 then
    match target with
    | .riscv32 => some (.cJal (riscvCj w))
    | .riscv64 => if w.extractLsb' 7 5 = 0b00000#5 then none else some .cAddiw
  else if w.extractLsb' 12 4 = 0b1000#4 ∧ w.extractLsb' 2 5 = 0b00000#5
      ∧ w.extractLsb' 0 2 = 0b10#2 then
    if w.extractLsb' 7 5 = 0b00000#5 then none else some .cJr
  else if w.extractLsb' 12 4 = 0b1001#4 ∧ w.extractLsb' 2 5 = 0b00000#5
      ∧ w.extractLsb' 0 2 = 0b10#2 then
    if w.extractLsb' 7 5 = 0b00000#5 then some .cEbreak else some .cJalr
  else some (.compressed (w.extractLsb' 0 2) (w.extractLsb' 13 3))

namespace Encoding

/-- The instruction as it stands in memory. -/
def bytes : Encoding → List UInt8
  | half w _ => u16Le (UInt16.ofBitVec w)
  | word w _ _ => u32Le (UInt32.ofBitVec w)

/-- The instruction a target decodes; `none` for the reserved encodings next to the jumps
(reserved encodings elsewhere in the maps count as some other instruction). -/
def decode (target : RiscvTarget) : Encoding → Option Insn
  | half w _ => decodeHalf target w
  | word w _ _ => decodeWord w

end Encoding

namespace Insn

/-- The offset of a direct jump. -/
def jumpOffset : Insn → Option Int
  | jal offset => some offset.toInt
  | cJ offset => some offset.toInt
  | cJal offset => some offset.toInt
  | _ => none

/-- The class the instruction set gives the instruction at `pc`. -/
def isaClass (target : RiscvTarget) (pc : UInt64) : Insn → InsnClass
  | jal offset => .direct (target.jumpTarget pc offset.toInt)
  | cJ offset => .direct (target.jumpTarget pc offset.toInt)
  | cJal offset => .direct (target.jumpTarget pc offset.toInt)
  | jalr | cJr | cJalr => .indirect
  | _ => .other

/-- The condition of the main result: the instruction is neither of the two that share a
jump's place in the opcode map, and no jump of riscv32 leaves the 32-bit address space. -/
def Separated (target : RiscvTarget) (pc : UInt64) (insn : Insn) : Prop :=
  insn ≠ cEbreak ∧ insn ≠ cAddiw
    ∧ (target = .riscv32 → ∀ offset ∈ insn.jumpOffset,
        0 ≤ pc.toNat + offset ∧ pc.toNat + offset < 2 ^ 32)

theorem isaClass_of_jumpOffset {insn : Insn} {offset : Int} (h : insn.jumpOffset = some offset)
    (target : RiscvTarget) (pc : UInt64) :
    insn.isaClass target pc = .direct (target.jumpTarget pc offset) := by
  cases insn <;> simp only [jumpOffset, Option.some.injEq, reduceCtorEq] at h <;> subst h <;> rfl

end Insn

/-- Both target names resolve to the one classifier. -/
theorem fromName_riscv (target : RiscvTarget) : Arch.fromName target.name = .riscv := by
  cases target <;> decide

/-! ## §3. Targets. -/

/-- **The 64-bit sum is the jump target unless a 32-bit address wraps.** -/
theorem branchTarget_eq_jumpTarget_iff {target : RiscvTarget} {pc : UInt64}
    (hpc : pc.toNat < 2 ^ target.xlen) {offset : Int} (hlo : -2 ^ 31 ≤ offset)
    (hhi : offset < 2 ^ 31) :
    branchTarget pc offset = target.jumpTarget pc offset ↔
      (target = .riscv32 → 0 ≤ pc.toNat + offset ∧ pc.toNat + offset < 2 ^ 32) := by
  rw [← UInt64.toNat_inj, branchTarget, RiscvTarget.jumpTarget, toNat_ofInt, toNat_ofInt]
  cases target with
  | riscv32 =>
      -- the sum is less than `2 ^ 31` outside the address space, so the two residues agree
      -- only where neither reduction does anything
      simp only [RiscvTarget.xlen, forall_const] at hpc ⊢
      omega
  | riscv64 => simp [RiscvTarget.xlen]

theorem toInt_bounds {n : Nat} (x : BitVec n) (hn : n ≤ 32) :
    -2 ^ 31 ≤ x.toInt ∧ x.toInt < 2 ^ 31 := by
  have hpow : (2 : Int) ^ n ≤ 2 ^ 32 := by exact_mod_cast Nat.pow_le_pow_right (by omega) hn
  have hlt : 2 * x.toInt < 2 ^ n := BitVec.two_mul_toInt_lt
  have hle : -2 ^ n ≤ 2 * x.toInt := BitVec.le_two_mul_toInt
  omega

/-- A direct jump that the classifier takes for a direct jump. -/
theorem direct_agrees_iff {target : RiscvTarget} {pc : UInt64} (hpc : pc.toNat < 2 ^ target.xlen)
    {n : Nat} (imm : BitVec n) (hn : n ≤ 32) {insn : Insn}
    (hoffset : insn.jumpOffset = some imm.toInt) :
    .direct (branchTarget pc imm.toInt) = insn.isaClass target pc ↔ insn.Separated target pc := by
  obtain ⟨hlo, hhi⟩ := toInt_bounds imm hn
  have hebreak : insn ≠ .cEbreak := by
    rintro rfl
    cases hoffset
  have haddiw : insn ≠ .cAddiw := by
    rintro rfl
    cases hoffset
  rw [Insn.isaClass_of_jumpOffset hoffset, InsnClass.direct.injEq,
    branchTarget_eq_jumpTarget_iff hpc hlo hhi]
  simp [Insn.Separated, hebreak, haddiw, hoffset]

/-- Neither a jump nor one of the two instructions beside them, and classified so. -/
theorem other_agrees_iff {target : RiscvTarget} {pc : UInt64} {insn : Insn} {c : InsnClass}
    (hclass : insn.isaClass target pc = c) (hoffset : insn.jumpOffset = none)
    (hebreak : insn ≠ .cEbreak) (haddiw : insn ≠ .cAddiw) :
    c = insn.isaClass target pc ↔ insn.Separated target pc := by
  simp [Insn.Separated, hclass, hoffset, hebreak, haddiw]

/-- One of the two instructions beside the jumps, classified as a jump. -/
theorem shared_agrees_iff {target : RiscvTarget} {pc : UInt64} {insn : Insn} {c : InsnClass}
    (hclass : insn.isaClass target pc = .other) (hshared : insn = .cEbreak ∨ insn = .cAddiw)
    (hc : c ≠ .other) :
    c = insn.isaClass target pc ↔ insn.Separated target pc := by
  rw [hclass]
  apply iff_of_false hc
  rintro ⟨hebreak, haddiw, -⟩
  exact hshared.elim hebreak haddiw

/-- The 32-bit encodings. -/
theorem classifyRiscv32_agrees_iff {target : RiscvTarget} {pc : UInt64}
    (hpc : pc.toNat < 2 ^ target.xlen) {w : BitVec 32} {insn : Insn}
    (hvalid : decodeWord w = some insn) :
    classifyRiscv32 (UInt32.ofBitVec w) pc = insn.isaClass target pc ↔
      insn.Separated target pc := by
  rw [classifyRiscv32_eq]
  unfold decodeWord at hvalid
  by_cases hjal : w.extractLsb' 0 7 = 0b1101111#7
  · rw [if_pos hjal, Option.some.injEq] at hvalid
    rw [if_pos hjal, ← hvalid]
    exact direct_agrees_iff hpc (riscvJal w) (by omega) rfl
  rw [if_neg hjal] at hvalid ⊢
  by_cases hjalr : w.extractLsb' 0 7 = 0b1100111#7
  · rw [if_pos hjalr] at hvalid ⊢
    by_cases hfunct3 : w.extractLsb' 12 3 = 0b000#3
    · rw [if_pos hfunct3, Option.some.injEq] at hvalid
      rw [← hvalid]
      exact other_agrees_iff rfl rfl nofun nofun
    · rw [if_neg hfunct3] at hvalid
      exact nomatch hvalid
  · rw [if_neg hjalr, Option.some.injEq] at hvalid
    rw [if_neg hjalr, ← hvalid]
    exact other_agrees_iff rfl rfl nofun nofun

/-- The compressed encodings. -/
theorem classifyRiscv16_agrees_iff {target : RiscvTarget} {pc : UInt64}
    (hpc : pc.toNat < 2 ^ target.xlen) {w : BitVec 16} {insn : Insn}
    (hvalid : decodeHalf target w = some insn) :
    classifyRiscv16 (UInt16.ofBitVec w) pc = insn.isaClass target pc ↔
      insn.Separated target pc := by
  rw [classifyRiscv16_eq]
  unfold decodeHalf at hvalid
  by_cases hcj : w.extractLsb' 13 3 = 0b101#3 ∧ w.extractLsb' 0 2 = 0b01#2
  · rw [if_pos hcj, Option.some.injEq] at hvalid
    rw [if_pos hcj, ← hvalid]
    exact direct_agrees_iff hpc (riscvCj w) (by omega) rfl
  rw [if_neg hcj] at hvalid ⊢
  by_cases hcjal : w.extractLsb' 13 3 = 0b001#3 ∧ w.extractLsb' 0 2 = 0b01#2
  · rw [if_pos hcjal] at hvalid ⊢
    -- the one point of the map that the targets read differently
    cases target with
    | riscv32 =>
        rw [← Option.some.inj hvalid]
        exact direct_agrees_iff hpc (riscvCj w) (by omega) rfl
    | riscv64 =>
        by_cases hrd : w.extractLsb' 7 5 = 0b00000#5
        · exact nomatch (if_pos hrd).symm.trans hvalid
        · have haddiw : insn = .cAddiw := (Option.some.inj ((if_neg hrd).symm.trans hvalid)).symm
          rw [haddiw]
          exact shared_agrees_iff rfl (.inr rfl) nofun
  rw [if_neg hcjal] at hvalid ⊢
  by_cases hcjr : w.extractLsb' 12 4 = 0b1000#4 ∧ w.extractLsb' 2 5 = 0b00000#5
      ∧ w.extractLsb' 0 2 = 0b10#2
  · rw [if_pos hcjr] at hvalid ⊢
    by_cases hrs1 : w.extractLsb' 7 5 = 0b00000#5
    · rw [if_pos hrs1] at hvalid
      exact nomatch hvalid
    · rw [if_neg hrs1, Option.some.injEq] at hvalid
      rw [← hvalid]
      exact other_agrees_iff rfl rfl nofun nofun
  rw [if_neg hcjr] at hvalid ⊢
  by_cases hcjalr : w.extractLsb' 12 4 = 0b1001#4 ∧ w.extractLsb' 2 5 = 0b00000#5
      ∧ w.extractLsb' 0 2 = 0b10#2
  · rw [if_pos hcjalr] at hvalid ⊢
    -- the test for `C.JALR` does not look at `rs1`, and `x0` there is `C.EBREAK`
    by_cases hrs1 : w.extractLsb' 7 5 = 0b00000#5
    · rw [if_pos hrs1, Option.some.injEq] at hvalid
      rw [← hvalid]
      exact shared_agrees_iff rfl (.inl rfl) nofun
    · rw [if_neg hrs1, Option.some.injEq] at hvalid
      rw [← hvalid]
      exact other_agrees_iff rfl rfl nofun nofun
  · rw [if_neg hcjalr, Option.some.injEq] at hvalid
    rw [if_neg hcjalr, ← hvalid]
    exact other_agrees_iff rfl rfl nofun nofun

/-! ## §4. Agreement with the instruction set. -/

/-- **The classifier against the instruction set**: on every valid encoding of either target it
answers as the instruction set does exactly when the instruction is neither `C.EBREAK` nor
`C.ADDIW`, and no jump of riscv32 wraps around the address space. -/
theorem classify_agrees_iff (target : RiscvTarget) (e : Encoding) (insn : Insn)
    (hvalid : e.decode target = some insn) (pc : UInt64) (hpc : pc.toNat < 2 ^ target.xlen)
    (size : Nat) :
    classify (Arch.fromName target.name) e.bytes pc size = insn.isaClass target pc ↔
      insn.Separated target pc := by
  rw [fromName_riscv]
  cases e with
  | half w short =>
      have hclass := classify_riscv_half (UInt16.ofBitVec w) short [] pc size
      rw [List.append_nil] at hclass
      show classify .riscv (u16Le (UInt16.ofBitVec w)) pc size = _ ↔ _
      rw [hclass]
      exact classifyRiscv16_agrees_iff hpc hvalid
  | word w long notLonger =>
      have hclass := classify_riscv_word (UInt32.ofBitVec w) long [] pc size
      rw [List.append_nil] at hclass
      show classify .riscv (u32Le (UInt32.ofBitVec w)) pc size = _ ↔ _
      rw [hclass]
      exact classifyRiscv32_agrees_iff hpc hvalid

/-- `C.J .+2` at `0x1000` of riscv32. -/
theorem classify_agrees_shortJump :
    (Encoding.half 0xA009#16 (by decide)).decode .riscv32 = some (.cJ 2#12)
      ∧ classify (Arch.fromName RiscvTarget.riscv32.name)
          (Encoding.half 0xA009#16 (by decide)).bytes 0x1000 2
        = (Insn.cJ 2#12).isaClass .riscv32 0x1000 := by
  have hsep : (Insn.cJ 2#12).Separated .riscv32 0x1000 := by
    refine ⟨nofun, nofun, ?_⟩
    intro _ offset hoffset
    have hval : offset = 2 := (Option.some.inj hoffset).symm
    rw [hval]
    decide
  exact ⟨by decide, (classify_agrees_iff .riscv32 (.half 0xA009#16 (by decide)) (.cJ 2#12)
    (by decide) 0x1000 (by decide) 2).mpr hsep⟩

/-- Where the classifier leaves the instruction set: `c.addiw a0, 1` of riscv64 is taken for a
direct jump, `c.ebreak` for a jump through a register, and `c.j .+2` at the last halfword of
riscv32 gets a target outside the address space. -/
theorem classify_disagrees_shared :
    ((Encoding.half 0x2505#16 (by decide)).decode .riscv64 = some .cAddiw
      ∧ classify (Arch.fromName "riscv64") [0x05, 0x25] 0x1000 2
        ≠ Insn.cAddiw.isaClass .riscv64 0x1000)
    ∧ ((Encoding.half 0x9002#16 (by decide)).decode .riscv64 = some .cEbreak
      ∧ classify (Arch.fromName "riscv64") [0x02, 0x90] 0x1000 2
        ≠ Insn.cEbreak.isaClass .riscv64 0x1000)
    ∧ ((Encoding.half 0xA009#16 (by decide)).decode .riscv32 = some (.cJ 2#12)
      ∧ classify (Arch.fromName "riscv32") [0x09, 0xA0] 0xFFFFFFFE 2
        ≠ (Insn.cJ 2#12).isaClass .riscv32 0xFFFFFFFE) := by
  decide

end QemuProfiler.Plugin

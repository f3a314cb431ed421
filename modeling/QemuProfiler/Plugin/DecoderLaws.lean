/-
  QemuProfiler.Plugin.DecoderLaws
  ───────────────────────────────
  **WHAT THE CLASSIFIER DEPENDS ON**, on every architecture and every byte
  string.

    • `classify_relative` — a target moves with the instruction, and x86
      prefixes count for nothing but their length,
    • `hexagon_packet_position` — the place of an instruction in its packet
      does not matter to what it is,
    • `resources_of_branch` — no branch or call uses a coprocessor.
-/
import QemuProfiler.Plugin.Encodings

namespace QemuProfiler.Plugin

open QemuProfiler.Lib

/-! ## §1. Relocation. -/

/-- The same instruction, `δ` bytes further on. -/
def InsnClass.moved (δ : UInt64) : InsnClass → InsnClass
  | .direct target => .direct (target + δ)
  | c => c

theorem pcPlus_eq (pc : UInt64) (offset : Int64) : pcPlus pc offset = pc + offset.toUInt64 := by
  apply UInt64.toBitVec_inj.mp
  rfl

theorem pcPlus_add (pc δ : UInt64) (offset : Int64) :
    pcPlus (pc + δ) offset = pcPlus pc offset + δ := by
  rw [pcPlus_eq, pcPlus_eq, add_right_comm]

theorem moved_ite (δ : UInt64) (p : Prop) [Decidable p] (c c' : InsnClass) :
    (if p then c else c').moved δ = if p then c.moved δ else c'.moved δ :=
  apply_ite (InsnClass.moved δ) p c c'

theorem classifyHexagon_add (insn : UInt32) (pc δ : UInt64) :
    classifyHexagon insn (pc + δ) = (classifyHexagon insn pc).moved δ := by
  have h22 : hexR22Target insn (pc + δ) = hexR22Target insn pc + δ := pcPlus_add pc δ _
  have h15 : hexR15Target insn (pc + δ) = hexR15Target insn pc + δ := pcPlus_add pc δ _
  unfold classifyHexagon
  simp only [moved_ite, h22, h15]
  rfl

theorem classifyAarch64_add (insn : UInt32) (pc δ : UInt64) :
    classifyAarch64 insn (pc + δ) = (classifyAarch64 insn pc).moved δ := by
  have h26 : aarch64Imm26Target insn (pc + δ) = aarch64Imm26Target insn pc + δ := pcPlus_add pc δ _
  unfold classifyAarch64
  simp only [moved_ite, h26]
  rfl

theorem classifyRiscv_add (bytes : List UInt8) (pc δ : UInt64) :
    classifyRiscv bytes (pc + δ) = (classifyRiscv bytes pc).moved δ := by
  have hjal : ∀ insn, riscvJalTarget insn (pc + δ) = riscvJalTarget insn pc + δ :=
    fun insn => pcPlus_add pc δ _
  have hcj : ∀ insn, riscvCjTarget insn (pc + δ) = riscvCjTarget insn pc + δ :=
    fun insn => pcPlus_add pc δ _
  unfold classifyRiscv classifyRiscv32 classifyRiscv16
  simp only [moved_ite, hjal, hcj]
  rfl

theorem classifyX86_add (bytes : List UInt8) (pc δ : UInt64) (insnSize : Nat) :
    classifyX86 bytes (pc + δ) insnSize = (classifyX86 bytes pc insnSize).moved δ := by
  unfold classifyX86
  cases skipLegacyAndRex bytes with
  | nil => rfl
  | cons opcode rest =>
      dsimp only
      have hnext : ∀ rel : UInt64, pc + δ + UInt64.ofNat insnSize + rel
          = pc + UInt64.ofNat insnSize + rel + δ := by
        intro rel
        rw [add_right_comm pc, add_right_comm]
      simp only [moved_ite, hnext]
      rfl

/-- **CLASSES ARE RELATIVE TO THE INSTRUCTION.**  Wherever an instruction is
moved, its class is the same and a direct target moves along; and x86 prefixes
in front of an instruction change nothing, if its address and its size take
them into account. -/
theorem classify_relative :
    (∀ arch bytes pc δ insnSize,
        classify arch bytes (pc + δ) insnSize = (classify arch bytes pc insnSize).moved δ)
      ∧ ∀ (prefixes : Prefixes) (bytes : List UInt8) (pc : UInt64) (insnSize : Nat),
        classify .x86 (prefixes.bytes ++ bytes) pc (prefixes.bytes.length + insnSize)
            = classify .x86 bytes (pc + UInt64.ofNat prefixes.bytes.length) insnSize
          ∧ classifyResources .x86 (prefixes.bytes ++ bytes) = classifyResources .x86 bytes := by
  constructor
  · intro arch bytes pc δ insnSize
    unfold classify
    cases arch with
    | hexagon =>
        dsimp only
        rw [moved_ite, classifyHexagon_add]
        rfl
    | aarch64 =>
        dsimp only
        rw [moved_ite, classifyAarch64_add]
        rfl
    | riscv => exact classifyRiscv_add bytes pc δ
    | x86 => exact classifyX86_add bytes pc δ insnSize
    | unknown => rfl
  · intro prefixes bytes pc insnSize
    have hskip := skipLegacyAndRex_skipped prefixes bytes
    constructor
    · show classifyX86 _ _ _ = classifyX86 _ _ _
      unfold classifyX86
      -- the decoder passes the prefixes over; the next instruction is at the same address
      have hnext : pc + UInt64.ofNat (prefixes.bytes.length + insnSize)
          = pc + UInt64.ofNat prefixes.bytes.length + UInt64.ofNat insnSize := by
        rw [UInt64.ofNat_add, add_assoc]
      rw [hskip, hnext]
    · show classifyResourcesX86 _ = classifyResourcesX86 _
      unfold classifyResourcesX86
      rw [hskip]

/-! ## §2. Masks. -/

/-- A wider mask decides a narrower one. -/
theorem and_of_and_eq {insn mask value mask' : UInt32} (h : insn &&& mask = value)
    (hsub : mask &&& mask' = mask') : insn &&& mask' = value &&& mask' := by
  rw [← hsub, ← UInt32.and_assoc, h, hsub]

/-- The rules that do not match give no flag. -/
theorem matchRules_none {rules : List (UInt32 × UInt32 × UInt32)} {insn : UInt32}
    (h : ∀ r ∈ rules, insn &&& r.1 ≠ r.2.1) : matchRules rules insn = 0 := by
  have hfold : ∀ flags : UInt32, rules.foldl (fun flags r =>
      if insn &&& r.1 = r.2.1 then flags ||| r.2.2 else flags) flags = flags := by
    induction rules with
    | nil =>
        intro flags
        rfl
    | cons r rules ih =>
        intro flags
        rw [List.foldl_cons, if_neg (h r List.mem_cons_self)]
        exact ih (fun r' hr' => h r' (List.mem_cons_of_mem _ hr')) flags
  exact hfold 0

/-! ## §3. Packets. -/

/-- All bits but the parse bits and the lowest one. -/
def opcodeAndOperands : UInt32 := 0xFFFF3FFE

/-- The parse bits of a duplex. -/
def IsDuplex (insn : UInt32) : Prop := (insn >>> 14) &&& 3 = 0

theorem masked_congr {insn insn' mask : UInt32}
    (h : insn &&& opcodeAndOperands = insn' &&& opcodeAndOperands)
    (hsub : opcodeAndOperands &&& mask = mask) : insn &&& mask = insn' &&& mask := by
  rw [and_of_and_eq h hsub, UInt32.and_assoc, hsub]

/-- A field outside the parse bits and the lowest bit. -/
theorem shifted_congr {insn insn' k mask : UInt32}
    (h : insn &&& opcodeAndOperands = insn' &&& opcodeAndOperands)
    (hsub : (opcodeAndOperands >>> k) &&& mask = mask) :
    (insn >>> k) &&& mask = (insn' >>> k) &&& mask := by
  have hfield : ∀ w : UInt32, (w >>> k) &&& mask = ((w &&& opcodeAndOperands) >>> k) &&& mask := by
    intro w
    rw [UInt32.shiftRight_and, UInt32.and_assoc, hsub]
  rw [hfield insn, hfield insn', h]

theorem matchRules_congr {rules : List (UInt32 × UInt32 × UInt32)} {insn insn' : UInt32}
    (h : ∀ r ∈ rules, insn &&& r.1 = insn' &&& r.1) :
    matchRules rules insn = matchRules rules insn' := by
  unfold matchRules
  have hfold : ∀ flags : UInt32, rules.foldl (fun flags r =>
        if insn &&& r.1 = r.2.1 then flags ||| r.2.2 else flags) flags
      = rules.foldl (fun flags r =>
        if insn' &&& r.1 = r.2.1 then flags ||| r.2.2 else flags) flags := by
    induction rules with
    | nil =>
        intro flags
        rfl
    | cons r rules ih =>
        intro flags
        rw [List.foldl_cons, List.foldl_cons, h r List.mem_cons_self]
        exact ih (fun r' hr' => h r' (List.mem_cons_of_mem _ hr')) _
  exact hfold 0

/-- **THE PLACE IN THE PACKET DOES NOT MATTER.**  Two Hexagon words that differ
in nothing but their parse bits and the lowest bit, neither of them a duplex,
have the same class, the same target and the same coprocessor flags. -/
theorem hexagon_packet_position {insn insn' : UInt32}
    (h : insn &&& opcodeAndOperands = insn' &&& opcodeAndOperands)
    (hduplex : ¬ IsDuplex insn) (hduplex' : ¬ IsDuplex insn') (pc : UInt64) :
    classifyHexagon insn pc = classifyHexagon insn' pc
      ∧ classifyResourcesHexagon insn = classifyResourcesHexagon insn' := by
  constructor
  · have hfield : ∀ k mask : UInt32, (opcodeAndOperands >>> k) &&& mask = mask →
        (insn >>> k) &&& mask = (insn' >>> k) &&& mask := fun k mask hsub => shifted_congr h hsub
    have h22 : hexR22Target insn pc = hexR22Target insn' pc := by
      have h24 := hfield 24 1 (by decide)
      have h16 := hfield 16 0xFF (by decide)
      have h8 := hfield 8 0x3F (by decide)
      have h1 := hfield 1 0x7F (by decide)
      unfold hexR22Target
      rw [h24, h16, h8, h1]
    have h15 : hexR15Target insn pc = hexR15Target insn' pc := by
      have h22' := hfield 22 3 (by decide)
      have h16 := hfield 16 0x1F (by decide)
      have h13 := hfield 13 1 (by decide)
      have h1 := hfield 1 0x7F (by decide)
      unfold hexR15Target
      rw [h22', h16, h13, h1]
    have hindirect : insn &&& 0xFC000000 = insn' &&& 0xFC000000 := masked_congr h (by decide)
    have hcall : insn &&& 0xFE000000 = insn' &&& 0xFE000000 := masked_congr h (by decide)
    have hcond : insn &&& 0xFF000000 = insn' &&& 0xFF000000 := masked_congr h (by decide)
    unfold classifyHexagon
    rw [if_neg (show ¬ (insn >>> 14) &&& 3 = 0 from hduplex),
        if_neg (show ¬ (insn' >>> 14) &&& 3 = 0 from hduplex'), hindirect, hcall, hcond, h22, h15]
  · -- run through the table, never through the words
    have hall : (hexagonRules.all fun r => decide (opcodeAndOperands &&& r.1 = r.1)) = true := by
      decide
    unfold classifyResourcesHexagon
    rw [if_neg (show ¬ (insn >>> 14) &&& 3 = 0 from hduplex),
        if_neg (show ¬ (insn' >>> 14) &&& 3 = 0 from hduplex')]
    exact matchRules_congr fun r hr =>
      masked_congr h (of_decide_eq_true (List.all_eq_true.mp hall r hr))

/-- `call` at two places of a packet. -/
theorem hexagon_packet_position_call :
    classifyHexagon 0x5A004008 0x1000 = classifyHexagon 0x5A00C009 0x1000
      ∧ classifyResourcesHexagon 0x5A004008 = classifyResourcesHexagon 0x5A00C009 :=
  hexagon_packet_position (by decide) (show ¬ _ = _ by decide) (show ¬ _ = _ by decide) 0x1000

/-! ## §4. Branches and coprocessors. -/

/-- Hexagon branches are in class J, the rules in others. -/
theorem resources_of_hexagon {insn : UInt32} {pc : UInt64} (h : classifyHexagon insn pc ≠ .other) :
    classifyResourcesHexagon insn = 0 := by
  have hclass : insn &&& 0xF0000000 = 0x50000000 := by
    unfold classifyHexagon at h
    split at h
    · exact absurd rfl h
    · split at h
      · rename_i hbits
        exact and_of_and_eq hbits (by decide)
      · split at h
        · rename_i hbits
          exact and_of_and_eq hbits (by decide)
        · split at h
          · rename_i hbits
            exact and_of_and_eq hbits (by decide)
          · split at h
            · rename_i hbits
              exact and_of_and_eq hbits (by decide)
            · exact absurd rfl h
  have hrules : (hexagonRules.all fun r => decide (r.1 &&& 0xF0000000 = 0xF0000000
      ∧ r.2.1 &&& 0xF0000000 ≠ 0x50000000)) = true := by
    decide
  unfold classifyResourcesHexagon
  split
  · rfl
  · refine matchRules_none fun r hr hmatch => ?_
    obtain ⟨hsub, hne⟩ := of_decide_eq_true (List.all_eq_true.mp hrules r hr)
    exact hne ((and_of_and_eq hmatch hsub).symm.trans hclass)

/-- AArch64 branches have 101 in bits 28:26, the rules 010, 011 and 111. -/
theorem resources_of_aarch64 {insn : UInt32} {pc : UInt64} (h : classifyAarch64 insn pc ≠ .other) :
    classifyResourcesAarch64 insn = 0 := by
  have hclass : insn &&& 0x1C000000 = 0x14000000 := by
    unfold classifyAarch64 at h
    split at h
    · rename_i hbits
      exact and_of_and_eq hbits (by decide)
    · split at h
      · rename_i hbits
        exact and_of_and_eq hbits (by decide)
      · split at h
        · rename_i hbits
          exact and_of_and_eq hbits (by decide)
        · split at h
          · rename_i hbits
            exact and_of_and_eq hbits (by decide)
          · split at h
            · rename_i hbits
              exact and_of_and_eq hbits (by decide)
            · exact absurd rfl h
  -- the three bits of a branch contradict both rules
  have hsimd : insn &&& 0x0E000000 ≠ 0x0E000000 := by
    intro hbits
    have hlow : insn &&& 0x0C000000 = 0x0C000000 := and_of_and_eq hbits (by decide)
    have hlow' : insn &&& 0x0C000000 = 0x04000000 := and_of_and_eq hclass (by decide)
    exact absurd (hlow.symm.trans hlow') (by decide)
  have hsve : insn &&& 0x1E000000 ≠ 0x04000000 := by
    intro hbits
    have hclass' : insn &&& 0x1C000000 = 0x04000000 := and_of_and_eq hbits (by decide)
    exact absurd (hclass'.symm.trans hclass) (by decide)
  refine matchRules_none fun r hr => ?_
  simp only [List.mem_cons, List.not_mem_nil, or_false] at hr
  rcases hr with rfl | rfl
  · exact hsimd
  · exact hsve

/-- RISC-V branches have their own opcodes, and halfwords no flags. -/
theorem resources_of_riscv {bytes : List UInt8} {pc : UInt64}
    (h : classifyRiscv bytes pc ≠ .other) : classifyResourcesRiscv bytes = 0 := by
  unfold classifyRiscv at h
  unfold classifyResourcesRiscv
  by_cases hshort : bytes.length < 2
  · rw [if_pos hshort]
  · rw [if_neg hshort] at h ⊢
    by_cases hword : bytes.getD 0 0 &&& 0x03 = 0x03
    · rw [if_pos hword] at h ⊢
      by_cases hcut : bytes.length < 4
      · rw [if_pos hcut]
      · rw [if_neg hcut] at h ⊢
        have hopcode : u32OfLe (bytes.take 4) &&& 0x7F = 0x6F
            ∨ u32OfLe (bytes.take 4) &&& 0x7F = 0x67 := by
          unfold classifyRiscv32 at h
          by_cases hjal : u32OfLe (bytes.take 4) &&& 0x7F = 0x6F
          · exact Or.inl hjal
          · by_cases hjalr : u32OfLe (bytes.take 4) &&& 0x7F = 0x67
            · exact Or.inr hjalr
            · exact absurd (by dsimp only; rw [if_neg hjal, if_neg hjalr]) h
        dsimp only
        rcases hopcode with hop | hop
        · rw [hop]
          rfl
        · rw [hop]
          rfl
    · rw [if_neg hword]

/-- x86 branches have their own opcodes. -/
theorem resources_of_x86 {bytes : List UInt8} {pc : UInt64} {insnSize : Nat}
    (h : classifyX86 bytes pc insnSize ≠ .other) : classifyResourcesX86 bytes = 0 := by
  unfold classifyX86 at h
  unfold classifyResourcesX86
  cases hskip : skipLegacyAndRex bytes with
  | nil => rfl
  | cons opcode rest =>
      rw [hskip] at h
      dsimp only at h ⊢
      have hopcode : opcode = 0xE8 ∨ opcode = 0xE9 ∨ opcode = 0xEB ∨ opcode = 0xFF := by
        by_contra hnone
        simp only [not_or] at hnone
        obtain ⟨hcall, hjmp, hshort, hff⟩ := hnone
        refine h ?_
        rw [if_neg (by simp [hcall, hjmp]), if_neg (by simp [hshort]), if_neg (by simp [hff])]
      rcases hopcode with rfl | rfl | rfl | rfl <;> decide

/-- **NO BRANCH OR CALL USES A COPROCESSOR**: on every architecture and every
byte string, what tier 2 follows has no flag of tier 3. -/
theorem resources_of_branch {arch : Arch} {bytes : List UInt8} {pc : UInt64} {insnSize : Nat}
    (h : classify arch bytes pc insnSize ≠ .other) : classifyResources arch bytes = 0 := by
  unfold classify at h
  unfold classifyResources
  cases arch with
  | hexagon =>
      dsimp only at h ⊢
      by_cases hshort : bytes.length < 4
      · rw [if_pos hshort]
      · rw [if_neg hshort] at h ⊢
        exact resources_of_hexagon h
  | aarch64 =>
      dsimp only at h ⊢
      by_cases hshort : bytes.length < 4
      · rw [if_pos hshort]
      · rw [if_neg hshort] at h ⊢
        exact resources_of_aarch64 h
  | riscv => exact resources_of_riscv h
  | x86 => exact resources_of_x86 h
  | unknown => rfl

/-- `jal ra, .` -/
theorem resources_of_branch_jal :
    classify .riscv [0xEF, 0x00, 0x00, 0x00] 0x1000 4 = .direct 0x1000
      ∧ classifyResources .riscv [0xEF, 0x00, 0x00, 0x00] = 0 := by
  have hjal : classify .riscv [0xEF, 0x00, 0x00, 0x00] 0x1000 4 = .direct 0x1000 := by decide
  exact ⟨hjal, resources_of_branch (by rw [hjal]; simp)⟩

end QemuProfiler.Plugin

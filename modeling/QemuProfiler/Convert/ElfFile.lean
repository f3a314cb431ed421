/-
  QemuProfiler.Convert.ElfFile
  ────────────────────────────
  Building the symbol index (`ElfIndex::from_file` in `convert/src/elf_index.rs`)
  from what goblin reads of an ELF file.

  Conventions of the model:
    • a string table is its look-up function `get_at`,
    • the ordered map of the symbols is the list of its values
      (`Lib.OrderedMap`), keyed by their addresses,
    • `name.len()` counts bytes, `u64` sums wrap (release build).

  The loop over the symbols keeps the FIRST BEST candidate of every address
  (`get_symbolMap`), and the second pass gives each symbol of unknown size the
  gap to the next one (`inferSizes_eq`).
-/
import Mathlib.Data.Prod.Lex
import QemuProfiler.Convert.ElfIndex
import QemuProfiler.Lib.OrderedMap

namespace QemuProfiler.Convert

open QemuProfiler.Lib

/-! ## §1. A parsed file. -/

/-- A symbol table entry. -/
structure Sym where
  stName : Nat
  stInfo : UInt8
  stValue : UInt64
  stSize : UInt64
  deriving DecidableEq, Repr

/-- `sym.st_type()`. -/
def Sym.stType (sym : Sym) : UInt8 := sym.stInfo &&& 0xf

def sttFunc : UInt8 := 2

/-- `strtab.get_at(offset)`. -/
abbrev Strtab := Nat → Option String

structure ProgramHeader where
  pType : UInt32
  pFlags : UInt32
  pVaddr : UInt64
  deriving DecidableEq, Repr

def ptLoad : UInt32 := 1

def pfX : UInt32 := 1

/-- What the index reads of a parsed ELF file: `.symtab` with its string
table, `.dynsym` with its own, and the program headers. -/
structure Elf where
  syms : List Sym
  dynsyms : List Sym
  strtab : Strtab
  dynstrtab : Strtab
  programHeaders : List ProgramHeader

/-! ## §2. Indexing the symbols. -/

/-- The loop body: functions with an address and a name; the one with a size,
or the longer name, of two at one address. -/
def indexSym (strtab : Strtab) (symbols : List Symbol) (sym : Sym) : List Symbol :=
  if sym.stType ≠ sttFunc then symbols
  else if sym.stValue = 0 then symbols
  else
    let name := (strtab sym.stName).getD ""
    if name.isEmpty then symbols
    else
      let fresh : Symbol := { name := name, addr := sym.stValue, size := sym.stSize }
      match OrderedMap.get Symbol.addr symbols sym.stValue with
      | none => OrderedMap.insert Symbol.addr fresh symbols
      | some existing =>
          -- prefer entry with size > 0, or longer name
          if existing.size > 0 ∧ sym.stSize = 0 then symbols
          else if existing.size = 0 ∧ sym.stSize > 0 then
            OrderedMap.insert Symbol.addr fresh symbols
          else if name.utf8ByteSize ≤ existing.name.utf8ByteSize then symbols
          else OrderedMap.insert Symbol.addr fresh symbols

/-- Index both `.symtab` and `.dynsym`. -/
def symbolMap (elf : Elf) : List Symbol :=
  (elf.syms ++ elf.dynsyms).foldl (indexSym elf.strtab) []

/-! ## §3. Inferring sizes. -/

/-- `symbols.get_mut(&addr)`, and the symbol changed in place. -/
def patch (addr : UInt64) (f : Symbol → Symbol) (symbols : List Symbol) : List Symbol :=
  symbols.map fun sym => if sym.addr = addr then f sym else sym

/-- A size of 0 becomes the gap to `nextAddr`, capped at 64KB. -/
def inferSize (nextAddr : UInt64) (sym : Symbol) : Symbol :=
  if sym.size = 0 then { sym with size := min (nextAddr - sym.addr) 0x10000 } else sym

/-- The next symbol's address, or 4KB further after the last one. -/
def nextAddrOf (addrs : List UInt64) (i : Nat) (addr : UInt64) : UInt64 :=
  match addrs[i + 1]? with
  | some next => next
  | none => addr + 0x1000

/-- The addresses are collected first, then the sizes are patched. -/
def inferSizes (symbols : List Symbol) : List Symbol :=
  let addrs := symbols.map Symbol.addr
  addrs.zipIdx.foldl
    (fun symbols entry => patch entry.1 (inferSize (nextAddrOf addrs entry.2 entry.1)) symbols)
    symbols

/-! ## §4. What the loop keeps. -/

/-- A symbol the index considers, with its name as read. -/
def readSym (strtab : Strtab) (sym : Sym) : Option Symbol :=
  if sym.stType = sttFunc ∧ sym.stValue ≠ 0 ∧ ¬ ((strtab sym.stName).getD "").isEmpty then
    some { name := (strtab sym.stName).getD "", addr := sym.stValue, size := sym.stSize }
  else none

/-- The symbols considered, in the order of the tables. -/
def retained (elf : Elf) : List Symbol :=
  (elf.syms ++ elf.dynsyms).filterMap (readSym elf.strtab)

/-- A size beats no size; of two with or two without, the longer name. -/
def Symbol.Beats (s t : Symbol) : Prop :=
  (0 < s.size ∧ t.size = 0)
    ∨ ((0 < s.size ↔ 0 < t.size) ∧ t.name.utf8ByteSize < s.name.utf8ByteSize)

/-- A size first, then the length of the name. -/
def Symbol.rank (sym : Symbol) : ℕ ×ₗ ℕ :=
  toLex (if 0 < sym.size then 1 else 0, sym.name.utf8ByteSize)

theorem size_eq_zero_iff (sym : Symbol) : sym.size = 0 ↔ ¬ 0 < sym.size := by
  rw [UInt64.not_lt, ← UInt64.toNat_inj, UInt64.le_iff_toNat_le]
  show _ ↔ sym.size.toNat ≤ 0
  exact Nat.le_zero.symm

theorem Symbol.rank_lt_iff (s t : Symbol) : t.rank < s.rank ↔ s.Beats t := by
  unfold Symbol.rank Symbol.Beats
  rw [Prod.Lex.toLex_lt_toLex, size_eq_zero_iff]
  by_cases hs : 0 < s.size
  · by_cases ht : 0 < t.size
    · simp [hs, ht]
    · simp [hs, ht]
  · by_cases ht : 0 < t.size
    · simp [hs, ht]
    · simp [hs, ht]

theorem indexSym_of_none {strtab : Strtab} {sym : Sym} (h : readSym strtab sym = none)
    (symbols : List Symbol) : indexSym strtab symbols sym = symbols := by
  unfold indexSym
  by_cases hfunc : sym.stType ≠ sttFunc
  · rw [if_pos hfunc]
  · rw [if_neg hfunc]
    by_cases hvalue : sym.stValue = 0
    · rw [if_pos hvalue]
    · rw [if_neg hvalue]
      by_cases hname : ((strtab sym.stName).getD "").isEmpty = true
      · dsimp only
        rw [if_pos hname]
      · unfold readSym at h
        rw [if_pos ⟨not_not.mp hfunc, hvalue, hname⟩] at h
        cases h

/-- **The three branches for an address that is taken compare ranks.** -/
theorem indexSym_of_some {strtab : Strtab} {sym : Sym} {fresh : Symbol}
    (h : readSym strtab sym = some fresh) (symbols : List Symbol) :
    indexSym strtab symbols sym
      = OrderedMap.insertBest Symbol.addr Symbol.rank symbols fresh := by
  unfold readSym at h
  by_cases hkeep : sym.stType = sttFunc ∧ sym.stValue ≠ 0
      ∧ ¬ ((strtab sym.stName).getD "").isEmpty = true
  · rw [if_pos hkeep] at h
    have hfresh := (Option.some.inj h).symm
    subst hfresh
    unfold indexSym OrderedMap.insertBest
    rw [if_neg (not_not.mpr hkeep.1), if_neg hkeep.2.1]
    dsimp only
    rw [if_neg hkeep.2.2]
    cases OrderedMap.get Symbol.addr symbols sym.stValue with
    | none => rfl
    | some existing =>
        dsimp only
        simp only [Symbol.rank_lt_iff, Symbol.Beats]
        -- with a size already, or without: then an explicit size wins
        by_cases hold : 0 < existing.size
        · have hold₀ : ¬ existing.size = 0 := fun hz => (size_eq_zero_iff existing).mp hz hold
          by_cases hnew : sym.stSize = 0
          · rw [if_pos ⟨hold, hnew⟩, if_neg (by simp [hold, hnew])]
          · have hpos : 0 < sym.stSize := UInt64.pos_iff_ne_zero.mpr hnew
            rw [if_neg (fun hc => hnew hc.2), if_neg (fun hc => hold₀ hc.1)]
            simp only [hold, hold₀, hpos, and_false, false_or, true_and, ← Nat.not_le]
            split <;> rfl
        · have hold₀ : existing.size = 0 := (size_eq_zero_iff existing).mpr hold
          rw [if_neg (fun hc => hold hc.1)]
          by_cases hnew : 0 < sym.stSize
          · rw [if_pos ⟨hold₀, hnew⟩, if_pos (.inl ⟨hnew, hold₀⟩)]
          · rw [if_neg (fun hc => hnew hc.2)]
            simp only [hold, hnew, false_and, false_or, true_and, ← Nat.not_le]
            split <;> rfl
  · rw [if_neg hkeep] at h
    cases h

/-- The loop over both tables keeps the best of what it reads. -/
theorem symbolMap_eq (elf : Elf) :
    symbolMap elf
      = (retained elf).foldl (OrderedMap.insertBest Symbol.addr Symbol.rank) [] := by
  suffices hs : ∀ (syms : List Sym) (symbols : List Symbol),
      syms.foldl (indexSym elf.strtab) symbols
        = (syms.filterMap (readSym elf.strtab)).foldl
            (OrderedMap.insertBest Symbol.addr Symbol.rank) symbols from
    hs (elf.syms ++ elf.dynsyms) []
  intro syms
  induction syms with
  | nil => intro symbols; rfl
  | cons sym syms ih =>
      intro symbols
      rw [List.foldl_cons, ih]
      cases hread : readSym elf.strtab sym with
      | none => rw [indexSym_of_none hread, List.filterMap_cons_none hread]
      | some fresh => rw [indexSym_of_some hread, List.filterMap_cons_some hread, List.foldl_cons]

theorem symbolMap_ordered (elf : Elf) : OrderedMap.Ordered Symbol.addr (symbolMap elf) := by
  rw [symbolMap_eq]
  exact OrderedMap.Ordered.foldl_insertBest Symbol.rank _ List.Pairwise.nil

/-- The candidates for an address. -/
def candidates (elf : Elf) (addr : UInt64) : List Symbol :=
  (retained elf).filter fun sym => sym.addr = addr

/-- **The first best candidate** of every address. -/
theorem get_symbolMap (elf : Elf) (addr : UInt64) :
    OrderedMap.get Symbol.addr (symbolMap elf) addr
      = (candidates elf addr).argmax Symbol.rank := by
  rw [symbolMap_eq]
  exact OrderedMap.get_foldl_insertBest Symbol.addr Symbol.rank (retained elf) addr

/-! ## §5. What the second pass leaves. -/

/-- Every symbol with the next one beside it. -/
def withNext : List Symbol → List Symbol
  | [] => []
  | [last] => [inferSize (last.addr + 0x1000) last]
  | sym :: next :: rest => inferSize next.addr sym :: withNext (next :: rest)

@[simp] theorem inferSize_addr (nextAddr : UInt64) (sym : Symbol) :
    (inferSize nextAddr sym).addr = sym.addr := by
  unfold inferSize
  split
  · rfl
  · rfl

@[simp] theorem inferSize_name (nextAddr : UInt64) (sym : Symbol) :
    (inferSize nextAddr sym).name = sym.name := by
  unfold inferSize
  split
  · rfl
  · rfl

theorem map_addr_withNext (l : List Symbol) : (withNext l).map Symbol.addr = l.map Symbol.addr := by
  fun_induction withNext l with
  | case1 => rfl
  | case2 last => simp
  | case3 sym next rest ih =>
      rw [List.map_cons, ih, inferSize_addr]
      rfl

theorem withNext_cons (sym : Symbol) (rest : List Symbol) :
    withNext (sym :: rest)
      = inferSize (((rest.map Symbol.addr)[0]?).getD (sym.addr + 0x1000)) sym
        :: withNext rest := by
  cases rest with
  | nil => rfl
  | cons next rest => rfl

theorem getElem?_behind {α : Type} (front : List α) (a : α) (rest : List α) :
    (front ++ a :: rest)[front.length + 1]? = rest[0]? := by
  rw [List.getElem?_append_right (by omega), Nat.add_sub_cancel_left]
  rfl

/-- A patch reaches the one symbol at its address. -/
theorem patch_middle {done rest : List Symbol} {sym : Symbol} (f : Symbol → Symbol)
    (hdone : ∀ d ∈ done, d.addr ≠ sym.addr) (hrest : ∀ t ∈ rest, t.addr ≠ sym.addr) :
    patch sym.addr f (done ++ sym :: rest) = done ++ f sym :: rest := by
  have hsame : ∀ l : List Symbol, (∀ t ∈ l, t.addr ≠ sym.addr) →
      (l.map fun t => if t.addr = sym.addr then f t else t) = l := by
    intro l hl
    calc (l.map fun t => if t.addr = sym.addr then f t else t) = l.map id := by
          apply List.map_congr_left
          intro t ht
          rw [if_neg (hl t ht)]
          rfl
      _ = l := List.map_id l
  unfold patch
  rw [List.map_append, List.map_cons, hsame done hdone, hsame rest hrest, if_pos rfl]

/-- The patched symbol joins the finished ones. -/
theorem finished_append {done rest : List Symbol} {sym : Symbol} (nextAddr : UInt64)
    (hdone : ∀ d ∈ done, ∀ t ∈ sym :: rest, d.addr ≠ t.addr)
    (hsym : ∀ t ∈ rest, sym.addr < t.addr) :
    ∀ d ∈ done ++ [inferSize nextAddr sym], ∀ t ∈ rest, d.addr ≠ t.addr := by
  intro d hd t ht
  rcases List.mem_append.mp hd with hin | hin
  · exact hdone d hin t (List.mem_cons_of_mem sym ht)
  · rw [List.mem_singleton.mp hin, inferSize_addr]
    exact Std.ne_of_lt (hsym t ht)

/-- **The in-place pass** gives every symbol the gap to the next one: what is
already patched keeps its address, so the look-ups still meet the right one. -/
theorem inferSizes_eq {symbols : List Symbol} (h : OrderedMap.Ordered Symbol.addr symbols) :
    inferSizes symbols = withNext symbols := by
  suffices hs : ∀ (l : List Symbol) (front : List UInt64) (done : List Symbol),
      OrderedMap.Ordered Symbol.addr l → (∀ d ∈ done, ∀ t ∈ l, d.addr ≠ t.addr) →
      ((l.map Symbol.addr).zipIdx front.length).foldl
          (fun symbols entry => patch entry.1
            (inferSize (nextAddrOf (front ++ l.map Symbol.addr) entry.2 entry.1)) symbols)
          (done ++ l)
        = done ++ withNext l by
    exact hs symbols [] [] h (by simp)
  intro l
  induction l with
  | nil => intro front done _ _; simp [withNext]
  | cons sym rest ih =>
      intro front done hord hdone
      have hsym := List.pairwise_cons.mp hord
      -- the address behind the symbol, or 4KB on for the last one
      have hnext : nextAddrOf (front ++ (sym :: rest).map Symbol.addr) front.length sym.addr
          = ((rest.map Symbol.addr)[0]?).getD (sym.addr + 0x1000) := by
        unfold nextAddrOf
        rw [List.map_cons, getElem?_behind]
        cases (rest.map Symbol.addr)[0]? with
        | none => rfl
        | some next => rfl
      rw [List.map_cons, List.zipIdx_cons, List.foldl_cons]
      dsimp only
      rw [← List.map_cons, hnext,
          patch_middle _ (fun d hd => hdone d hd sym List.mem_cons_self)
            (fun t ht => (Std.ne_of_lt (hsym.1 t ht)).symm)]
      have hih := ih (front ++ [sym.addr])
        (done ++ [inferSize (((rest.map Symbol.addr)[0]?).getD (sym.addr + 0x1000)) sym])
        hsym.2 (finished_append _ hdone hsym.1)
      rw [List.length_append, List.append_assoc, List.append_assoc, List.append_assoc] at hih
      rw [withNext_cons]
      exact hih

/-- What the second pass makes of the symbol `w` of the map `l`: a positive
size, the explicit one if there is one, else one that stays before the next
symbol, within 64KB, and within 4KB after the last. -/
structure Sized (l : List Symbol) (w s : Symbol) : Prop where
  addr : s.addr = w.addr
  name : s.name = w.name
  pos : 0 < s.size
  explicit : w.size ≠ 0 → s.size = w.size
  gap : w.size = 0 → ∀ t ∈ l, w.addr < t.addr → s.addr.toNat + s.size.toNat ≤ t.addr.toNat
  cap : w.size = 0 → s.size.toNat ≤ 0x10000
  last : w.size = 0 → (∀ t ∈ l, t.addr ≤ w.addr) → s.size.toNat ≤ 0x1000

theorem toNat_min (a b : UInt64) : (min a b).toNat = min a.toNat b.toNat := by
  show (if a ≤ b then a else b).toNat = _
  by_cases hle : a ≤ b
  · rw [if_pos hle, Nat.min_eq_left (UInt64.le_iff_toNat_le.mp hle)]
  · rw [if_neg hle, Nat.min_eq_right (UInt64.le_iff_toNat_le.mp (UInt64.le_of_lt
      (UInt64.not_le.mp hle)))]

/-- An inferred size, and an explicit one. -/
theorem inferSize_size (nextAddr : UInt64) (sym : Symbol) :
    (sym.size = 0 →
        (inferSize nextAddr sym).size.toNat = min (nextAddr - sym.addr).toNat 0x10000)
      ∧ (sym.size ≠ 0 → inferSize nextAddr sym = sym) := by
  unfold inferSize
  constructor
  · intro hzero
    rw [if_pos hzero]
    exact toNat_min _ _
  · intro hne
    rw [if_neg hne]

/-- A symbol is `Sized` once its inferred size is known to be right. -/
theorem Sized.of_inferred {l : List Symbol} {sym : Symbol} {nextAddr : UInt64}
    (hpos : 0 < (nextAddr - sym.addr).toNat)
    (hgap : ∀ t ∈ l, sym.addr < t.addr →
      sym.addr.toNat + (nextAddr - sym.addr).toNat ≤ t.addr.toNat)
    (hlast : (∀ t ∈ l, t.addr ≤ sym.addr) → (nextAddr - sym.addr).toNat ≤ 0x1000) :
    Sized l sym (inferSize nextAddr sym) := by
  obtain ⟨hinferred, hexplicit⟩ := inferSize_size nextAddr sym
  refine ⟨inferSize_addr _ _, inferSize_name _ _, ?_, ?_, ?_, ?_, ?_⟩
  · by_cases hzero : sym.size = 0
    · rw [UInt64.lt_iff_toNat_lt, hinferred hzero]
      show 0 < _
      omega
    · rw [hexplicit hzero]
      exact UInt64.pos_iff_ne_zero.mpr hzero
  · intro hne
    rw [hexplicit hne]
  · intro hzero t ht hlt
    have hle := hgap t ht hlt
    rw [inferSize_addr, hinferred hzero]
    omega
  · intro hzero
    rw [hinferred hzero]
    omega
  · intro hzero hall
    have hle := hlast hall
    rw [hinferred hzero]
    omega

/-- Symbols before all of `l` do not matter for `l`. -/
theorem Sized.cons {l : List Symbol} {sym w s : Symbol} (h : Sized l w s)
    (hlt : sym.addr < w.addr) : Sized (sym :: l) w s := by
  refine ⟨h.addr, h.name, h.pos, h.explicit, ?_, h.cap, ?_⟩
  · intro hzero t ht hwt
    rcases List.mem_cons.mp ht with hts | htl
    · rw [hts] at hwt
      exact absurd (UInt64.lt_trans hwt hlt) (UInt64.lt_irrefl _)
    · exact h.gap hzero t htl hwt
  · intro hzero hall
    exact h.last hzero fun t ht => hall t (List.mem_cons_of_mem sym ht)

/-- **The second pass sizes every symbol.** -/
theorem sized_withNext (l : List Symbol) (h : OrderedMap.Ordered Symbol.addr l) :
    ∀ s ∈ withNext l, ∃ w ∈ l, Sized l w s := by
  fun_induction withNext l with
  | case1 => simp
  | case2 last =>
      intro s hs
      rw [List.mem_singleton] at hs
      subst hs
      -- 4KB, also where the sum wraps
      have hgap : (last.addr + 0x1000 - last.addr).toNat = 0x1000 := by
        rw [show last.addr + 0x1000 - last.addr = 0x1000 by
          rw [UInt64.add_comm, UInt64.add_sub_cancel]]
        rfl
      refine ⟨last, List.mem_singleton_self last, Sized.of_inferred (by omega) ?_ (by omega)⟩
      intro t ht hlt
      rw [List.mem_singleton.mp ht] at hlt
      exact absurd hlt (UInt64.lt_irrefl _)
  | case3 sym next rest ih =>
      have hsym := List.pairwise_cons.mp h
      have hnext := List.pairwise_cons.mp hsym.2
      have hlt : sym.addr < next.addr := hsym.1 next List.mem_cons_self
      intro s hs
      rcases List.mem_cons.mp hs with hs | hs
      · subst hs
        have hsub := UInt64.toNat_sub_of_le next.addr sym.addr (UInt64.le_of_lt hlt)
        have hltNat := UInt64.lt_iff_toNat_lt.mp hlt
        refine ⟨sym, List.mem_cons_self, Sized.of_inferred (by omega) ?_ ?_⟩
        · intro t ht htlt
          have hle : next.addr.toNat ≤ t.addr.toNat := by
            rcases List.mem_cons.mp ht with hts | htn
            · rw [hts] at htlt
              exact absurd htlt (UInt64.lt_irrefl _)
            · rcases List.mem_cons.mp htn with htn | htr
              · rw [htn]
              · exact Nat.le_of_lt (UInt64.lt_iff_toNat_lt.mp (hnext.1 t htr))
          omega
        · intro hall
          have hle := UInt64.le_iff_toNat_le.mp (hall next (by simp))
          omega
      · obtain ⟨w, hw, hsized⟩ := ih hsym.2 s hs
        exact ⟨w, List.mem_cons_of_mem sym hw, hsized.cons (hsym.1 w hw)⟩

/-! ## §6. The index. -/

/-- The address of the first LOAD segment with exec flag. -/
def loadAddrOf (elf : Elf) : UInt64 :=
  ((elf.programHeaders.find? fun phdr =>
      phdr.pType = ptLoad ∧ phdr.pFlags &&& pfX ≠ 0).map ProgramHeader.pVaddr).getD 0

theorem ordered_inferSizes (elf : Elf) :
    (inferSizes (symbolMap elf)).Pairwise fun a b => a.addr < b.addr := by
  have hord := symbolMap_ordered elf
  rw [inferSizes_eq hord]
  have hmap : ((withNext (symbolMap elf)).map Symbol.addr).Pairwise (· < ·) := by
    rw [map_addr_withNext]
    exact List.pairwise_map.mpr hord
  exact List.pairwise_map.mp hmap

/-- Parse an ELF binary and build the symbol index. -/
def ElfIndex.fromFile (elf : Elf) : ElfIndex where
  symbols := inferSizes (symbolMap elf)
  loadAddr := loadAddrOf elf
  sorted := ordered_inferSizes elf

end QemuProfiler.Convert

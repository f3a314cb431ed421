/-
  QemuProfiler.Convert.Cgprof
  ───────────────────────────
  The call graph ordering file (`convert/src/cgprof.rs`).

  The weight of a caller and a callee is the SUM of what three kinds of
  records hold for them: direct calls, indirect calls, and branch edges that
  cross from one function into another (`weight_le`).  Nothing looks at
  whether two records are about the same transfer.

  `ρ` is the iteration order of the hash map of the weights.  The lines are
  sorted by weight ALONE, so pairs of equal weight are printed in the order of
  the map (`emit_deterministic_iff`).
-/
import QemuProfiler.Convert.ElfIndex
import QemuProfiler.Convert.Native
import QemuProfiler.Lib.SortTies
import QemuProfiler.Lib.Text

namespace QemuProfiler.Convert

open QemuProfiler.Lib

/-- A call as a counted key. -/
def CallRecord.counted (c : CallRecord) : (UInt64 × UInt64) × UInt64 :=
  ((c.callsite, c.target), c.count)

namespace Cgprof

/-! ## §1. The emitter. -/

/-- Caller and callee of a direct call, unless one of them is unknown. -/
def callPair (elf : ElfIndex) (call : UInt64 × UInt64) : Option (String × String) :=
  let caller := elf.nameAt call.1
  let callee := elf.nameAt call.2
  if caller ≠ "[unknown]" ∧ callee ≠ "[unknown]" then some (caller, callee) else none

/-- The same for an indirect call; a target of 0 is unresolved. -/
def indirectPair (elf : ElfIndex) (call : UInt64 × UInt64) : Option (String × String) :=
  if call.2 = 0 then none else callPair elf call

/-- The functions of a branch edge that crosses function boundaries. -/
def edgePair (elf : ElfIndex) (edge : UInt64 × UInt64) : Option (String × String) :=
  match elf.symbolAt edge.1, elf.symbolAt edge.2 with
  | some f, some t => if f.name ≠ t.name then some (f.name, t.name) else none
  | _, _ => none

/-- `*cg.entry(..).or_insert(0) += count`, when there is an entry to count. -/
def addCount (pair : UInt64 × UInt64 → Option (String × String))
    (cg : HashMap (String × String) UInt64) (e : (UInt64 × UInt64) × UInt64) :
    HashMap (String × String) UInt64 :=
  match pair e.1 with
  | none => cg
  | some key => cg.bump key e.2

/-- The call graph: direct calls, indirect calls, and branch edges crossing
function boundaries. -/
def callGraph (profile : Profile) (elf : ElfIndex) : HashMap (String × String) UInt64 :=
  let cg := (profile.directCalls.map CallRecord.counted).foldl (addCount (callPair elf)) ∅
  let cg := (profile.indirectCalls.map CallRecord.counted).foldl (addCount (indirectPair elf)) cg
  (profile.branchEdges.map EdgeRecord.counted).foldl (addCount (edgePair elf)) cg

/-- Sorted by weight, descending. -/
def entries (ρ : IterOrder) (profile : Profile) (elf : ElfIndex) :
    List ((String × String) × UInt64) :=
  ((callGraph profile elf).iter ρ).insertionSort fun a b => b.2 ≤ a.2

/-- `name.replace(' ', "_")`. -/
def sanitized (name : String) : Text := name.toList.map fun c => if c = ' ' then '_' else c

/-- `{} {} {}`. -/
def line (e : (String × String) × UInt64) : Text :=
  sanitized e.1.1 ++ ' ' :: (sanitized e.1.2 ++ ' ' :: decText e.2)

/-- The call graph ordering file. -/
def emit (ρ : IterOrder) (profile : Profile) (elf : ElfIndex) : Text :=
  unlines ((entries ρ profile elf).map line)

/-! ## §2. What a weight is made of. -/

/-- The counted records of one kind, under caller and callee. -/
def paired (pair : UInt64 × UInt64 → Option (String × String))
    (l : List ((UInt64 × UInt64) × UInt64)) : List ((String × String) × UInt64) :=
  l.filterMap fun e => (pair e.1).map fun key => (key, e.2)

theorem foldl_addCount (pair : UInt64 × UInt64 → Option (String × String))
    (l : List ((UInt64 × UInt64) × UInt64)) :
    ∀ cg, l.foldl (addCount pair) cg
      = (paired pair l).foldl (fun cg e => cg.bump e.1 e.2) cg := by
  induction l with
  | nil =>
      intro cg
      rfl
  | cons e l ih =>
      intro cg
      rw [List.foldl_cons, ih]
      unfold paired addCount
      cases hp : pair e.1 with
      | none => rw [List.filterMap_cons_none (by rw [hp]; rfl)]
      | some key => rw [List.filterMap_cons_some (by rw [hp]; rfl), List.foldl_cons]

/-- All counted records of the profile, under caller and callee. -/
def recorded (profile : Profile) (elf : ElfIndex) : List ((String × String) × UInt64) :=
  paired (callPair elf) (profile.directCalls.map CallRecord.counted)
    ++ (paired (indirectPair elf) (profile.indirectCalls.map CallRecord.counted)
    ++ paired (edgePair elf) (profile.branchEdges.map EdgeRecord.counted))

/-- All three kinds in one tally. -/
theorem callGraph_eq (profile : Profile) (elf : ElfIndex) :
    callGraph profile elf = HashMap.tally (recorded profile elf) := by
  unfold callGraph recorded HashMap.tally
  rw [List.foldl_append, List.foldl_append, foldl_addCount, foldl_addCount, foldl_addCount]

/-- The total of the records of one caller and callee (mod 2^64). -/
def weightOf (profile : Profile) (elf : ElfIndex) (pair : String × String) : UInt64 :=
  sumAt pair (recorded profile elf)

/-- The names of a pair as they are printed. -/
def printed (pair : String × String) : Text × Text := (sanitized pair.1, sanitized pair.2)

/-- The entries of the map are the recorded pairs with their totals. -/
theorem mem_callGraph_items (profile : Profile) (elf : ElfIndex)
    (e : (String × String) × UInt64) :
    e ∈ (callGraph profile elf).items
      ↔ e.1 ∈ (recorded profile elf).map Prod.fst ∧ e.2 = weightOf profile elf e.1 := by
  obtain ⟨pair, weight⟩ := e
  rw [HashMap.mem_items, callGraph_eq, HashMap.lookup_tally]
  unfold weightOf
  by_cases hmem : pair ∈ (recorded profile elf).map Prod.fst
  · rw [if_pos hmem, Option.some.injEq]
    exact ⟨fun h => ⟨hmem, h.symm⟩, fun h => h.2.symm⟩
  · rw [if_neg hmem]
    constructor
    · intro h
      cases h
    · intro h
      exact absurd h.1 hmem

theorem space_not_mem_sanitized (name : String) : ' ' ∉ sanitized name := by
  unfold sanitized
  intro hmem
  obtain ⟨c, _, hc⟩ := List.mem_map.mp hmem
  by_cases hspace : c = ' '
  · rw [if_pos hspace] at hc
    exact absurd hc (by decide)
  · rw [if_neg hspace] at hc
    exact hspace hc

/-- A line tells the two names apart from whatever follows. -/
theorem printed_eq_of_line_append {e e' : (String × String) × UInt64} {x y : Text}
    (h : line e ++ x = line e' ++ y) : printed e.1 = printed e'.1 := by
  unfold line at h
  rw [List.append_assoc, List.append_assoc, List.cons_append, List.cons_append,
      List.append_assoc, List.append_assoc, List.cons_append, List.cons_append] at h
  obtain ⟨hcaller, hrest⟩ := append_sep_inj (space_not_mem_sanitized e.1.1)
    (space_not_mem_sanitized e'.1.1) h
  obtain ⟨hcallee, _⟩ := append_sep_inj (space_not_mem_sanitized e.1.2)
    (space_not_mem_sanitized e'.1.2) hrest
  unfold printed
  rw [hcaller, hcallee]

theorem line_eq_of_printed {e e' : (String × String) × UInt64} (hweight : e.2 = e'.2)
    (hnames : printed e.1 = printed e'.1) : line e = line e' := by
  unfold printed at hnames
  obtain ⟨hcaller, hcallee⟩ := Prod.mk.inj hnames
  unfold line
  rw [hcaller, hcallee, hweight]

/-- Two entries of equal weight come out in either order. -/
theorem emit_swap {profile : Profile} {elf : ElfIndex} {e e' : (String × String) × UInt64}
    {rest : List ((String × String) × UInt64)}
    (hperm : (e :: e' :: rest).Perm (callGraph profile elf).items) (hweight : e.2 = e'.2) :
    ∃ ρ ρ' front back, emit ρ profile elf = front ++ (line e ++ back)
      ∧ ∃ back', emit ρ' profile elf = front ++ (line e' ++ back') := by
  obtain ⟨ρ, hρ⟩ := exists_shuffle_eq hperm
  obtain ⟨ρ', hρ'⟩ := exists_shuffle_eq ((List.Perm.swap e e' rest).trans hperm)
  obtain ⟨front, back, hsort, hsort'⟩ := sortDesc_ties Prod.snd hweight rest
  refine ⟨ρ, ρ', unlines (front.map line), ['\n'] ++ unlines ((e' :: back).map line), ?_,
    ['\n'] ++ unlines ((e :: back).map line), ?_⟩
  · show unlines ((sortDesc Prod.snd (shuffle ρ (callGraph profile elf).items)).map line) = _
    rw [hρ, hsort, List.map_append, unlines_append, List.map_cons, unlines_cons]
  · show unlines ((sortDesc Prod.snd (shuffle ρ' (callGraph profile elf).items)).map line) = _
    rw [hρ', hsort', List.map_append, unlines_append, List.map_cons, unlines_cons]

/-- **WHEN THE FILE IS DETERMINED**: the text is the same for every iteration
order of the map exactly when recorded pairs of equal weight print equal
names. -/
theorem emit_deterministic_iff (profile : Profile) (elf : ElfIndex) :
    (∀ ρ ρ', emit ρ profile elf = emit ρ' profile elf)
      ↔ ∀ pair ∈ (recorded profile elf).map Prod.fst,
          ∀ pair' ∈ (recorded profile elf).map Prod.fst,
            weightOf profile elf pair = weightOf profile elf pair' →
              printed pair = printed pair' := by
  constructor
  · intro hsame pair hpair pair' hpair' hweight
    by_cases heq : pair = pair'
    · rw [heq]
    · let e : (String × String) × UInt64 := (pair, weightOf profile elf pair)
      let e' : (String × String) × UInt64 := (pair', weightOf profile elf pair')
      have he : e ∈ (callGraph profile elf).items :=
        (mem_callGraph_items profile elf e).mpr ⟨hpair, rfl⟩
      have he' : e' ∈ (callGraph profile elf).items :=
        (mem_callGraph_items profile elf e').mpr ⟨hpair', rfl⟩
      have hne : e' ≠ e := fun h => heq (congrArg Prod.fst h).symm
      -- bring the two entries to the front of the map
      have hfront := List.perm_cons_erase he
      have hsecond := List.perm_cons_erase ((List.mem_erase_of_ne hne).mpr he')
      obtain ⟨ρ, ρ', front, back, htext, back', htext'⟩ :=
        emit_swap (hfront.trans (hsecond.cons e)).symm hweight
      have hlines := hsame ρ ρ'
      rw [htext, htext'] at hlines
      exact printed_eq_of_line_append (List.append_cancel_left hlines)
  · intro hties ρ ρ'
    have hlines : (entries ρ profile elf).map line = (entries ρ' profile elf).map line := by
      refine map_sortDesc_eq_of_perm Prod.snd line
        ((shuffle_perm ρ _).trans (shuffle_perm ρ' _).symm) ?_
      intro a ha b hb hweight
      obtain ⟨ha₁, ha₂⟩ := (mem_callGraph_items profile elf a).mp
        ((shuffle_perm ρ _).mem_iff.mp ha)
      obtain ⟨hb₁, hb₂⟩ := (mem_callGraph_items profile elf b).mp
        ((shuffle_perm ρ _).mem_iff.mp hb)
      refine line_eq_of_printed hweight (hties a.1 ha₁ b.1 hb₁ ?_)
      rw [← ha₂, ← hb₂, hweight]
    unfold emit
    rw [hlines]

/-- Two functions that call each other once. -/
def mutualCalls : Profile :=
  { Profile.ofHeader ⟨1, 2, 8, 0, 0, 0, 0, 0, []⟩ with
    directCalls := [⟨0x10, 0x40, 1⟩, ⟨0x40, 0x10, 1⟩] }

/-- The binary with the two functions. -/
def mutualElf : ElfIndex := ⟨[⟨"f", 0x10, 0x20⟩, ⟨"g", 0x40, 0x20⟩], 0, by decide⟩

/-- **Equal weights, two files**: the lines of the two calls come in the order
of the map. -/
theorem equal_weights_in_map_order :
    emit [0] mutualCalls mutualElf = "g f 1\nf g 1\n".toList
      ∧ emit [1] mutualCalls mutualElf = "f g 1\ng f 1\n".toList
      ∧ ¬ ∀ (profile : Profile) (elf : ElfIndex) (ρ ρ' : IterOrder),
          emit ρ profile elf = emit ρ' profile elf := by
  have hfirst : emit [0] mutualCalls mutualElf = "g f 1\nf g 1\n".toList := by decide +kernel
  have hsecond : emit [1] mutualCalls mutualElf = "f g 1\ng f 1\n".toList := by decide +kernel
  refine ⟨hfirst, hsecond, ?_⟩
  intro hsame
  have heq := hsame mutualCalls mutualElf [0] [1]
  rw [hfirst, hsecond] at heq
  exact absurd heq (by decide +kernel)

end Cgprof

end QemuProfiler.Convert

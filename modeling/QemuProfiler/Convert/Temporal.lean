/-
  QemuProfiler.Convert.Temporal
  ─────────────────────────────
  The temporal profile trace (`convert/src/temporal.rs`): the functions in the
  order in which they were first executed.

  The emitter groups the TBs by symbol name in a hash map, keeps the smallest
  number of each name, and sorts.  `ρ` is the iteration order of that map.
-/
import QemuProfiler.Convert.ElfIndex
import QemuProfiler.Convert.Native
import QemuProfiler.Lib.Text

namespace QemuProfiler.Convert

open QemuProfiler.Lib

namespace Temporal

/-! ## §1. The emitter. -/

/-- One TB of the grouping loop. -/
def noteTb (elf : ElfIndex) (m : HashMap String UInt64) (tb : TbExec) : HashMap String UInt64 :=
  if tb.execCount = 0 ∨ tb.firstSeenSeq = 0 then m
  else
    let name := elf.nameAt tb.startAddr
    if name = "[unknown]" then m
    else
      -- `entry(name).or_insert(u64::MAX)`
      let entry := (m.lookup name).getD 0xFFFFFFFFFFFFFFFF
      m.insert name (if tb.firstSeenSeq < entry then tb.firstSeenSeq else entry)

/-- The smallest number of every function. -/
def funcFirstSeen (profile : Profile) (elf : ElfIndex) : HashMap String UInt64 :=
  profile.tbExecs.foldl (noteTb elf) ∅

/-- The functions sorted by first-seen order. -/
def funcs (ρ : IterOrder) (profile : Profile) (elf : ElfIndex) : List (String × UInt64) :=
  ((funcFirstSeen profile elf).iter ρ).insertionSort fun a b => a.2 ≤ b.2

/-- `name.replace(',', "_")`. -/
def sanitized (name : String) : Text := name.toList.map fun c => if c = ',' then '_' else c

/-- Function list, comma-separated, trailing comma. -/
def traceLine (names : List String) : Text :=
  [','].intercalate (names.map sanitized) ++ [',']

/-- The temporal profile trace. -/
def emit (ρ : IterOrder) (profile : Profile) (elf : ElfIndex) : Text :=
  let funcs := funcs ρ profile elf
  let numTraces : Text := if funcs.isEmpty then ['0'] else ['1']
  unlines ([":temporal_prof_traces".toList, "# Num Temporal Profile Traces:".toList, numTraces,
      "# Temporal Profile Trace Stream Size:".toList, numTraces]
    ++ (if funcs.isEmpty then []
      else ["# Weight:".toList, ['1'], traceLine (funcs.map Prod.fst)]))

/-! ## §2. Grouping by name. -/

/-- The TB was executed, has a number, and its start resolves to a name. -/
def IsSeen (elf : ElfIndex) (tb : TbExec) : Prop :=
  tb.execCount > 0 ∧ tb.firstSeenSeq > 0 ∧ elf.nameAt tb.startAddr ≠ "[unknown]"

instance (elf : ElfIndex) (tb : TbExec) : Decidable (IsSeen elf tb) :=
  inferInstanceAs (Decidable (_ ∧ _))

/-- Names and numbers of these TBs. -/
def seenTbs (profile : Profile) (elf : ElfIndex) : List (String × UInt64) :=
  (profile.tbExecs.filter fun tb => IsSeen elf tb).map fun tb =>
    (elf.nameAt tb.startAddr, tb.firstSeenSeq)

/-- `m` has the smallest number of every name in `pairs`. -/
structure GroupsMin (m : HashMap String UInt64) (pairs : List (String × UInt64)) : Prop where
  absent : ∀ n, m.lookup n = none → ∀ s, (n, s) ∉ pairs
  least : ∀ n s, m.lookup n = some s → (n, s) ∈ pairs ∧ ∀ s', (n, s') ∈ pairs → s ≤ s'

/-- The smaller of two numbers, where no number counts as the largest one. -/
theorem orMax_spec (old : Option UInt64) (seq : UInt64) :
    (if seq < old.getD 0xFFFFFFFFFFFFFFFF then seq else old.getD 0xFFFFFFFFFFFFFFFF) ≤ seq
      ∧ (∀ s, old = some s →
          (if seq < old.getD 0xFFFFFFFFFFFFFFFF then seq else old.getD 0xFFFFFFFFFFFFFFFF) ≤ s)
      ∧ ((if seq < old.getD 0xFFFFFFFFFFFFFFFF then seq else old.getD 0xFFFFFFFFFFFFFFFF) = seq
        ∨ some (if seq < old.getD 0xFFFFFFFFFFFFFFFF then seq
            else old.getD 0xFFFFFFFFFFFFFFFF) = old) := by
  cases old with
  | none =>
      -- no number is above `u64::MAX`
      have hval : (if seq < (0xFFFFFFFFFFFFFFFF : UInt64) then seq else 0xFFFFFFFFFFFFFFFF)
          = seq := by
        by_cases hlt : seq < 0xFFFFFFFFFFFFFFFF
        · rw [if_pos hlt]
        · rw [if_neg hlt]
          have hmax : seq.toNat < 2 ^ 64 := seq.toNat_lt
          apply UInt64.toNat_inj.mp
          rw [UInt64.lt_iff_toNat_lt] at hlt
          have hnum : (0xFFFFFFFFFFFFFFFF : UInt64).toNat = 2 ^ 64 - 1 := rfl
          omega
      show (if seq < (0xFFFFFFFFFFFFFFFF : UInt64) then seq else 0xFFFFFFFFFFFFFFFF) ≤ seq ∧ _ ∧ _
      rw [Option.getD_none, hval]
      exact ⟨UInt64.le_refl _, fun s hs => absurd hs (by simp), Or.inl rfl⟩
  | some s =>
      rw [Option.getD_some]
      by_cases hlt : seq < s
      · rw [if_pos hlt]
        refine ⟨UInt64.le_refl _, ?_, Or.inl rfl⟩
        intro s' hs'
        rw [← Option.some.inj hs']
        exact UInt64.le_of_lt hlt
      · rw [if_neg hlt]
        refine ⟨UInt64.not_lt.mp hlt, ?_, Or.inr rfl⟩
        intro s' hs'
        rw [Option.some.inj hs']
        exact UInt64.le_refl _

/-- **One TB of the loop**: its number enters the group of its name. -/
theorem GroupsMin.insert {m : HashMap String UInt64} {pairs : List (String × UInt64)}
    (h : GroupsMin m pairs) (name : String) (seq : UInt64) :
    GroupsMin (m.insert name (if seq < (m.lookup name).getD 0xFFFFFFFFFFFFFFFF then seq
      else (m.lookup name).getD 0xFFFFFFFFFFFFFFFF)) (pairs ++ [(name, seq)]) := by
  obtain ⟨hseq, hold, hsource⟩ := orMax_spec (m.lookup name) seq
  constructor
  · intro n hnone s hs
    have hn : n ≠ name := by
      intro heq
      rw [heq, AList.lookup_insert] at hnone
      exact absurd hnone (by simp)
    rw [AList.lookup_insert_ne hn] at hnone
    rcases List.mem_append.mp hs with hin | hin
    · exact h.absent n hnone s hin
    · exact hn (congrArg Prod.fst (List.mem_singleton.mp hin))
  · intro n s hsome
    -- the group of the name itself, or one that is not touched
    by_cases hn : n = name
    · subst hn
      rw [AList.lookup_insert, Option.some.injEq] at hsome
      rw [hsome] at hseq hold hsource
      constructor
      · rcases hsource with heq | hlook
        · rw [heq]
          exact List.mem_append_right _ List.mem_cons_self
        · exact List.mem_append_left _ (h.least n s hlook.symm).1
      · intro s' hs'
        rcases List.mem_append.mp hs' with hin | hin
        · cases hlook : m.lookup n with
          | none => exact absurd hin (h.absent n hlook s')
          | some old =>
              exact UInt64.le_trans (hold old hlook) ((h.least n old hlook).2 s' hin)
        · rw [show s' = seq from congrArg Prod.snd (List.mem_singleton.mp hin)]
          exact hseq
    · rw [AList.lookup_insert_ne hn] at hsome
      obtain ⟨hmem, hmin⟩ := h.least n s hsome
      refine ⟨List.mem_append_left _ hmem, ?_⟩
      intro s' hs'
      rcases List.mem_append.mp hs' with hin | hin
      · exact hmin s' hin
      · exact absurd (congrArg Prod.fst (List.mem_singleton.mp hin)) hn

theorem noteTb_eq (elf : ElfIndex) (m : HashMap String UInt64) (tb : TbExec) :
    noteTb elf m tb
      = if IsSeen elf tb then
          m.insert (elf.nameAt tb.startAddr)
            (if tb.firstSeenSeq < (m.lookup (elf.nameAt tb.startAddr)).getD 0xFFFFFFFFFFFFFFFF
              then tb.firstSeenSeq
              else (m.lookup (elf.nameAt tb.startAddr)).getD 0xFFFFFFFFFFFFFFFF)
        else m := by
  unfold noteTb
  by_cases hrun : tb.execCount = 0 ∨ tb.firstSeenSeq = 0
  · have hnot : ¬ IsSeen elf tb := by
      intro hseen
      rcases hrun with hz | hz
      · exact absurd hseen.1 (by rw [hz]; decide)
      · exact absurd hseen.2.1 (by rw [hz]; decide)
    rw [if_pos hrun, if_neg hnot]
  · rw [if_neg hrun]
    dsimp only
    by_cases hname : elf.nameAt tb.startAddr = "[unknown]"
    · have hnot : ¬ IsSeen elf tb := fun hseen => hseen.2.2 hname
      rw [if_pos hname, if_neg hnot]
    · have hseen : IsSeen elf tb := by
        rw [not_or] at hrun
        exact ⟨UInt64.pos_iff_ne_zero.mpr hrun.1, UInt64.pos_iff_ne_zero.mpr hrun.2, hname⟩
      rw [if_neg hname, if_pos hseen]

/-- **The grouping loop.** -/
theorem groupsMin_funcFirstSeen (profile : Profile) (elf : ElfIndex) :
    GroupsMin (funcFirstSeen profile elf) (seenTbs profile elf) := by
  unfold funcFirstSeen seenTbs
  induction profile.tbExecs using List.reverseRecOn with
  | nil =>
      constructor
      · intro n _ s hs
        exact absurd hs (by simp)
      · intro n s hs
        exact absurd hs (by simp)
  | append_singleton tbs tb ih =>
      rw [List.foldl_append, List.foldl_cons, List.foldl_nil, noteTb_eq, List.filter_append,
          List.map_append]
      by_cases hseen : IsSeen elf tb
      · rw [if_pos hseen, List.filter_cons_of_pos (by simpa using hseen)]
        exact ih.insert (elf.nameAt tb.startAddr) tb.firstSeenSeq
      · rw [if_neg hseen, List.filter_cons_of_neg (by simpa using hseen), List.filter_nil,
            List.map_nil, List.append_nil]
        exact ih

/-! ## §3. Sorting by number. -/

/-- The numbers of the TBs that have one are pairwise distinct. -/
def DistinctNumbers (profile : Profile) : Prop :=
  ((profile.tbExecs.map TbExec.firstSeenSeq).filter fun s => s ≠ 0).Nodup

/-- **The time a name was first seen**: the smallest number of its TBs. -/
def firstSeenOf (profile : Profile) (elf : ElfIndex) (n : String) : Nat :=
  ((((seenTbs profile elf).filter fun e => e.1 = n).map fun e => e.2.toNat).min?).getD 0

theorem firstSeenOf_eq {profile : Profile} {elf : ElfIndex} {n : String} {s : UInt64}
    (h : (funcFirstSeen profile elf).lookup n = some s) : firstSeenOf profile elf n = s.toNat := by
  obtain ⟨hmem, hmin⟩ := (groupsMin_funcFirstSeen profile elf).least n s h
  have hleast : (((seenTbs profile elf).filter fun e => e.1 = n).map fun e => e.2.toNat).min?
      = some s.toNat := by
    rw [List.min?_eq_some_iff]
    constructor
    · exact List.mem_map.mpr ⟨(n, s), List.mem_filter.mpr ⟨hmem, by simp⟩, rfl⟩
    · intro b hb
      obtain ⟨⟨n', s'⟩, he, rfl⟩ := List.mem_map.mp hb
      obtain ⟨hin, hn⟩ := List.mem_filter.mp he
      have hn : n' = n := by simpa using hn
      rw [hn] at hin
      exact UInt64.le_iff_toNat_le.mp (hmin s' hin)
  unfold firstSeenOf
  rw [hleast]
  rfl

/-- A number belongs to one name. -/
theorem name_unique {profile : Profile} {elf : ElfIndex} (hd : DistinctNumbers profile)
    {e e' : String × UInt64} (he : e ∈ seenTbs profile elf) (he' : e' ∈ seenTbs profile elf)
    (heq : e.2 = e'.2) : e = e' := by
  have hnodup : ((seenTbs profile elf).map Prod.snd).Nodup := by
    refine List.Nodup.sublist ?_ hd
    unfold seenTbs
    rw [List.map_map, List.filter_map]
    refine List.Sublist.map _ ?_
    -- the seen TBs are among those with a number
    apply List.monotone_filter_right
    intro tb hseen
    have hpos := (of_decide_eq_true hseen : IsSeen elf tb).2.1
    exact decide_eq_true (UInt64.pos_iff_ne_zero.mp hpos)
  exact List.inj_on_of_nodup_map hnodup he he' heq

/-- Sorting only reorders the entries of the map. -/
theorem funcs_perm (ρ : IterOrder) (profile : Profile) (elf : ElfIndex) :
    (funcs ρ profile elf).Perm (funcFirstSeen profile elf).items :=
  (List.perm_insertionSort _ _).trans (shuffle_perm ρ _)

theorem mem_seenTbs_of_mem_funcs {ρ : IterOrder} {profile : Profile} {elf : ElfIndex}
    {e : String × UInt64} (he : e ∈ funcs ρ profile elf) :
    (funcFirstSeen profile elf).lookup e.1 = some e.2 ∧ e ∈ seenTbs profile elf := by
  have hlook := HashMap.mem_items.mp ((funcs_perm ρ profile elf).mem_iff.mp he)
  exact ⟨hlook, ((groupsMin_funcFirstSeen profile elf).least _ _ hlook).1⟩

/-- **Sorted strictly**: the order is that of the first-seen times. -/
theorem funcs_increasing {profile : Profile} (hd : DistinctNumbers profile) (ρ : IterOrder)
    (elf : ElfIndex) :
    (funcs ρ profile elf).Pairwise fun a b =>
      firstSeenOf profile elf a.1 < firstSeenOf profile elf b.1 := by
  have hsorted : (funcs ρ profile elf).Pairwise fun a b => a.2 ≤ b.2 :=
    sortedBy_insertionSort Prod.snd _
  have hnodup : (funcs ρ profile elf).Nodup :=
    (funcs_perm ρ profile elf).nodup_iff.mpr (List.Nodup.of_map _ (HashMap.items_nodup _))
  refine List.Pairwise.imp_of_mem ?_ (hsorted.and hnodup)
  intro a b ha hb hab
  obtain ⟨hla, hsa⟩ := mem_seenTbs_of_mem_funcs ha
  obtain ⟨hlb, hsb⟩ := mem_seenTbs_of_mem_funcs hb
  rw [firstSeenOf_eq hla, firstSeenOf_eq hlb]
  have hle := UInt64.le_iff_toNat_le.mp hab.1
  have hne : a.2.toNat ≠ b.2.toNat := by
    intro heq
    exact hab.2 (name_unique hd hsa hsb (UInt64.toNat_inj.mp heq))
  omega

/-- **The iteration order does not matter.** -/
theorem funcs_eq {profile : Profile} (hd : DistinctNumbers profile) (ρ ρ' : IterOrder)
    (elf : ElfIndex) : funcs ρ profile elf = funcs ρ' profile elf := by
  have hperm : (funcs ρ profile elf).Perm (funcs ρ' profile elf) :=
    (funcs_perm ρ profile elf).trans (funcs_perm ρ' profile elf).symm
  refine List.Perm.eq_of_pairwise ?_ (sortedBy_insertionSort Prod.snd _)
    (sortedBy_insertionSort Prod.snd _) hperm
  intro a b ha hb hab hba
  exact name_unique hd (mem_seenTbs_of_mem_funcs ha).2 (mem_seenTbs_of_mem_funcs hb).2
    (UInt64.le_antisymm hab hba)

/-! ## §4. The trace. -/

/-- **What the trace must list**: every resolved name of an executed, numbered
TB once, in the order of the times. -/
structure IsTrace (profile : Profile) (elf : ElfIndex) (names : List String) : Prop where
  nodup : names.Nodup
  mem : ∀ n, n ∈ names ↔ ∃ tb ∈ profile.tbExecs, tb.execCount > 0 ∧ tb.firstSeenSeq > 0
    ∧ elf.nameAt tb.startAddr = n ∧ n ≠ "[unknown]"
  increasing : names.Pairwise fun a b => firstSeenOf profile elf a < firstSeenOf profile elf b

theorem isTrace_funcs {profile : Profile} (hd : DistinctNumbers profile) (ρ : IterOrder)
    (elf : ElfIndex) : IsTrace profile elf ((funcs ρ profile elf).map Prod.fst) where
  nodup := by
    have hkeys := (funcs_perm ρ profile elf).map Prod.fst
    exact hkeys.nodup_iff.mpr (HashMap.items_nodup _)
  mem := by
    intro n
    have hgroups := groupsMin_funcFirstSeen profile elf
    have hlisted : n ∈ (funcs ρ profile elf).map Prod.fst
        ↔ ∃ s, (funcFirstSeen profile elf).lookup n = some s := by
      rw [((funcs_perm ρ profile elf).map Prod.fst).mem_iff]
      simp [List.mem_map, HashMap.mem_items]
    rw [hlisted]
    constructor
    · intro hs
      obtain ⟨s, hs⟩ := hs
      obtain ⟨tb, htb, heq⟩ := List.mem_map.mp (hgroups.least n s hs).1
      obtain ⟨hin, hseen⟩ := List.mem_filter.mp htb
      have hseen : IsSeen elf tb := of_decide_eq_true hseen
      have hname : elf.nameAt tb.startAddr = n := congrArg Prod.fst heq
      exact ⟨tb, hin, hseen.1, hseen.2.1, hname, hname ▸ hseen.2.2⟩
    · intro htb
      obtain ⟨tb, hin, hexec, hseq, hname, hknown⟩ := htb
      have hpair : (n, tb.firstSeenSeq) ∈ seenTbs profile elf := by
        refine List.mem_map.mpr ⟨tb, List.mem_filter.mpr ⟨hin, decide_eq_true ?_⟩, ?_⟩
        · exact ⟨hexec, hseq, hname.symm ▸ hknown⟩
        · rw [hname]
      cases hlook : (funcFirstSeen profile elf).lookup n with
      | none => exact absurd hpair (hgroups.absent n hlook _)
      | some s => exact ⟨s, rfl⟩
  increasing := List.pairwise_map.mpr (funcs_increasing hd ρ elf)

/-- Splitting the line at the commas gives the names, and the empty piece
after the trailing comma. -/
theorem splitOn_traceLine {names : List String} (hne : names ≠ []) :
    (traceLine names).splitOn ',' = names.map sanitized ++ [[]] := by
  have hjoin : traceLine names = [','].intercalate (names.map sanitized ++ [[]]) := by
    unfold traceLine
    induction names with
    | nil => exact absurd rfl hne
    | cons n names ih =>
        cases names with
        | nil => simp [List.intercalate]
        | cons n' names =>
            have hrest := ih (by simp)
            simp only [List.map_cons, List.cons_append, List.intercalate] at hrest ⊢
            simp only [List.intersperse_cons_cons, List.flatten_cons, List.append_assoc] at hrest ⊢
            rw [hrest]
  rw [hjoin]
  apply List.splitOn_intercalate
  · intro l hl
    rcases List.mem_append.mp hl with hin | hin
    · obtain ⟨n, _, rfl⟩ := List.mem_map.mp hin
      unfold sanitized
      simp only [List.mem_map, not_exists, not_and]
      intro c _
      split
      · decide
      · assumption
    · rw [List.mem_singleton.mp hin]
      exact List.not_mem_nil
  · simp

/-- The file for a list of names: one trace, or none when there are no names;
splitting its line at the commas gives the names, commas in them replaced, and
the empty piece behind the trailing comma. -/
def IsTraceFile (names : List String) (text : Text) : Prop :=
  ∃ numTraces line : Text,
    text = unlines ([":temporal_prof_traces".toList, "# Num Temporal Profile Traces:".toList,
        numTraces, "# Temporal Profile Trace Stream Size:".toList, numTraces]
      ++ (if names.isEmpty then [] else ["# Weight:".toList, ['1'], line]))
    ∧ (numTraces = ['0'] ∨ numTraces = ['1'])
    ∧ (numTraces = ['0'] ↔ names = [])
    ∧ (names ≠ [] → line.splitOn ',' = names.map sanitized ++ [[]])

/-- **THE EMITTED FILE** lists the trace, whatever the iteration order. -/
theorem emit_isTraceFile {profile : Profile} (hd : DistinctNumbers profile) (elf : ElfIndex) :
    ∃ names text, IsTrace profile elf names ∧ IsTraceFile names text
      ∧ ∀ ρ, emit ρ profile elf = text := by
  refine ⟨_, emit [] profile elf, isTrace_funcs hd [] elf, ?_, ?_⟩
  · refine ⟨if (funcs [] profile elf).isEmpty then ['0'] else ['1'],
      traceLine ((funcs [] profile elf).map Prod.fst), ?_, ?_, ?_, ?_⟩
    · rw [List.isEmpty_map]
      rfl
    · by_cases hempty : (funcs [] profile elf).isEmpty = true
      · exact Or.inl (if_pos hempty)
      · exact Or.inr (if_neg hempty)
    · rw [List.map_eq_nil_iff, ← List.isEmpty_iff]
      by_cases hempty : (funcs [] profile elf).isEmpty = true
      · rw [if_pos hempty]
        exact ⟨fun _ => hempty, fun _ => rfl⟩
      · rw [if_neg hempty]
        exact ⟨fun h => absurd h (by decide), fun h => absurd h hempty⟩
    · exact splitOn_traceLine
  · intro ρ
    unfold emit
    rw [funcs_eq hd ρ [] elf]

end Temporal

end QemuProfiler.Convert

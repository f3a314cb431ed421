/-
  QemuProfiler.Threads.Sequence
  ─────────────────────────────
  **FIRST-SEEN NUMBERS ARE DISTINCT** in every interleaving of
  `first_seen_cb`: each call takes the next number of the shared counter, and
  stores it only later, when other threads have taken and stored theirs.

  A number is in one place at a time: not taken yet, in the hands of one
  thread, stored in one TB, or overwritten.
-/
import QemuProfiler.Convert.Temporal
import QemuProfiler.Threads.ExecCount

namespace QemuProfiler.Threads

open QemuProfiler.Lib QemuProfiler.Plugin QemuProfiler.Qemu QemuProfiler.Edges QemuProfiler.Format
open QemuProfiler.Convert hiding fileMagic FileHeader

/-! ## §1. Stored numbers and numbers in flight. -/

/-- The number stored in the entry of a key; 0 without one. -/
def seqOf (s : PluginState) (k : TbKey) : UInt64 :=
  ((s.tbMap.lookup k).map TbMeta.firstSeenSeq).getD 0

/-- The number the thread is about to store. -/
def Thread.held : Thread → Option UInt64
  | .storeNumber _ seq _ => some seq
  | _ => none

theorem Thread.held_of_calm {th : Thread} (h : th.calm = true) : th.held = none := by
  cases th with
  | storeNumber key seq rest => exact absurd h (by simp [Thread.calm])
  | _ => rfl

theorem seqOf_congr {s s' : PluginState} (h : s'.tbMap = s.tbMap) : seqOf s' = seqOf s := by
  unfold seqOf
  rw [h]

/-- Translations store no number. -/
theorem seqOf_translates {scoreboard : Nat} {s s' : PluginState} {tb : QemuTb}
    {instr : Instrumentation} {tbMeta : TbMeta}
    (h : Translates scoreboard s tb s' instr tbMeta) : seqOf s' = seqOf s := by
  funext k
  unfold seqOf
  by_cases hk : k = tb.key
  · obtain ⟨e, he, _, hseq⟩ := h.entry
    rw [hk, he, Option.map_some, Option.getD_some, hseq]
    rcases h.source with hold | ⟨hnone, _, hzero⟩
    · rw [hold]
      rfl
    · rw [hnone, hzero]
      rfl
  · rw [h.other k hk]

theorem seqOf_laterTiers (s : PluginState) (tb : QemuTb) : seqOf (laterTiers s tb) = seqOf s := by
  obtain ⟨_, f, _, hf, hmap⟩ := laterTiers_spec s tb
  funext k
  unfold seqOf
  rw [hmap]
  by_cases hk : k = tb.key
  · rw [if_pos hk, hk]
    cases s.tbMap.lookup tb.key with
    | none => rfl
    | some e => exact hf e
  · rw [if_neg hk]

/-- A store changes one entry, if there is one. -/
theorem seqOf_storeNumber (s : PluginState) (key : TbKey) (seq : UInt64) (k : TbKey) :
    seqOf (s.storeNumber key seq) k = seqOf s k
      ∨ (k = key ∧ seqOf (s.storeNumber key seq) k = seq) := by
  unfold seqOf PluginState.storeNumber
  dsimp only
  rw [HashMap.lookup_modify]
  by_cases hk : k = key
  · rw [if_pos hk, hk]
    cases s.tbMap.lookup key with
    | none => exact Or.inl rfl
    | some e => exact Or.inr ⟨rfl, rfl⟩
  · rw [if_neg hk]
    exact Or.inl rfl

/-! ## §2. The invariant. -/

/-- After `n` numbers were taken. -/
structure Numbered (s : System) (n : Nat) : Prop where
  counter : s.machine.plugin.sequenceCounter = UInt64.ofNat (n + 1)
  stored : ∀ k, (seqOf s.machine.plugin k).toNat ≤ n
  held : ∀ v seq, (s.threads v).held = some seq → seq ≠ 0 ∧ seq.toNat ≤ n
  heldApart : ∀ u v seq, (s.threads u).held = some seq → (s.threads v).held = some seq → u = v
  storedHeld : ∀ k v seq, (s.threads v).held = some seq → seqOf s.machine.plugin k ≠ seq
  storedApart : ∀ k k', seqOf s.machine.plugin k ≠ 0 →
    seqOf s.machine.plugin k = seqOf s.machine.plugin k' → k = k'

section Steps

variable {s : System} {n : Nat}

/-- Steps that take and store no number. -/
theorem Numbered.frame (h : Numbered s n) {s' : System}
    (hcounter : s'.machine.plugin.sequenceCounter = s.machine.plugin.sequenceCounter)
    (hseq : seqOf s'.machine.plugin = seqOf s.machine.plugin)
    (hheld : ∀ v, (s'.threads v).held = (s.threads v).held) : Numbered s' n where
  counter := hcounter.trans h.counter
  stored := by
    rw [hseq]
    exact h.stored
  held := by
    intro v seq hv
    exact h.held v seq (hheld v ▸ hv)
  heldApart := by
    intro u v seq hu hv
    exact h.heldApart u v seq (hheld u ▸ hu) (hheld v ▸ hv)
  storedHeld := by
    intro k v seq hv
    rw [hseq]
    exact h.storedHeld k v seq (hheld v ▸ hv)
  storedApart := by
    rw [hseq]
    exact h.storedApart

theorem held_update {v : Nat} {th' : Thread} (h : (s.threads v).held = none)
    (h' : th'.held = none) :
    ∀ u, (Function.update s.threads v th' u).held = (s.threads u).held := by
  intro u
  by_cases huv : u = v
  · rw [huv, Function.update_self, h, h']
  · rw [Function.update_of_ne huv]

/-- **Taking a number**: it is larger than all that were taken before. -/
theorem Numbered.take (h : Numbered s n) (hn : n + 2 < 2 ^ 64) {v : Nat} {key : TbKey}
    {rest : List TbOp} :
    Numbered ⟨Machine.withPlugin s.machine s.machine.plugin.takeNumber,
      Function.update s.threads v
        (.storeNumber key s.machine.plugin.sequenceCounter rest)⟩ (n + 1) := by
  have hnew : s.machine.plugin.sequenceCounter.toNat = n + 1 := by
    rw [h.counter, UInt64.toNat_ofNat']
    exact Nat.mod_eq_of_lt (by omega)
  -- a held number is an old one, or the new one in the hands of `v`
  have hcases : ∀ u seq, (Function.update s.threads v
      (.storeNumber key s.machine.plugin.sequenceCounter rest) u).held = some seq →
      (u = v ∧ seq = s.machine.plugin.sequenceCounter)
        ∨ (u ≠ v ∧ (s.threads u).held = some seq ∧ seq.toNat ≤ n) := by
    intro u seq hu
    by_cases huv : u = v
    · rw [huv, Function.update_self] at hu
      exact Or.inl ⟨huv, (Option.some.inj hu).symm⟩
    · rw [Function.update_of_ne huv] at hu
      exact Or.inr ⟨huv, hu, (h.held u seq hu).2⟩
  constructor
  · show s.machine.plugin.sequenceCounter + 1 = _
    rw [h.counter, UInt64.ofNat_add (n + 1) 1]
    rfl
  · intro k
    exact Nat.le_succ_of_le (h.stored k)
  · intro u seq hu
    rcases hcases u seq hu with ⟨_, hseq⟩ | ⟨_, hold, hle⟩
    · rw [hseq]
      refine ⟨?_, by omega⟩
      intro hzero
      rw [hzero] at hnew
      exact absurd hnew (by simp)
    · exact ⟨(h.held u seq hold).1, by omega⟩
  · intro u u' seq hu hu'
    rcases hcases u seq hu with ⟨heq, hseq⟩ | ⟨_, hold, hle⟩
    · rcases hcases u' seq hu' with ⟨heq', _⟩ | ⟨_, _, hle'⟩
      · rw [heq, heq']
      · rw [hseq] at hle'
        omega
    · rcases hcases u' seq hu' with ⟨_, hseq'⟩ | ⟨_, hold', _⟩
      · rw [hseq'] at hle
        omega
      · exact h.heldApart u u' seq hold hold'
  · intro k u seq hu
    rcases hcases u seq hu with ⟨_, hseq⟩ | ⟨_, hold, _⟩
    · show seqOf s.machine.plugin k ≠ seq
      intro heq
      have hle := h.stored k
      rw [heq, hseq] at hle
      omega
    · exact h.storedHeld k u seq hold
  · exact h.storedApart

/-- **Storing a number**: it leaves the thread's hands. -/
theorem Numbered.store (h : Numbered s n) {v : Nat} {key : TbKey} {seq : UInt64}
    {rest : List TbOp} (hth : s.threads v = .storeNumber key seq rest) :
    Numbered ⟨Machine.withPlugin s.machine (s.machine.plugin.storeNumber key seq),
      Function.update s.threads v (.ops rest)⟩ n := by
  have hv : (s.threads v).held = some seq := by
    rw [hth]
    rfl
  -- the thread has nothing in its hands any more
  have hheld : ∀ u seq', (Function.update s.threads v (.ops rest) u).held = some seq' →
      u ≠ v ∧ (s.threads u).held = some seq' := by
    intro u seq' hu
    by_cases huv : u = v
    · rw [huv, Function.update_self] at hu
      exact absurd hu (by simp [Thread.held])
    · rw [Function.update_of_ne huv] at hu
      exact ⟨huv, hu⟩
  have hstore := seqOf_storeNumber s.machine.plugin key seq
  constructor
  · exact h.counter
  · intro k
    show (seqOf (s.machine.plugin.storeNumber key seq) k).toNat ≤ n
    rcases hstore k with heq | ⟨_, heq⟩
    · rw [heq]
      exact h.stored k
    · rw [heq]
      exact (h.held v seq hv).2
  · intro u seq' hu
    exact h.held u seq' (hheld u seq' hu).2
  · intro u u' seq' hu hu'
    exact h.heldApart u u' seq' (hheld u seq' hu).2 (hheld u' seq' hu').2
  · intro k u seq' hu
    show seqOf (s.machine.plugin.storeNumber key seq) k ≠ seq'
    obtain ⟨huv, hold⟩ := hheld u seq' hu
    rcases hstore k with heq | ⟨_, heq⟩
    · rw [heq]
      exact h.storedHeld k u seq' hold
    · rw [heq]
      -- the stored number was held by `v` alone
      intro hsame
      rw [← hsame] at hold
      exact huv (h.heldApart u v seq hold hv)
  · intro k k' hne hsame
    change seqOf (s.machine.plugin.storeNumber key seq) k ≠ 0 at hne
    change seqOf (s.machine.plugin.storeNumber key seq) k
      = seqOf (s.machine.plugin.storeNumber key seq) k' at hsame
    -- the key of the store, or another one, on either side
    rcases hstore k with heq | ⟨hk, heq⟩
    · rcases hstore k' with heq' | ⟨_, heq'⟩
      · rw [heq] at hne
        rw [heq, heq'] at hsame
        exact h.storedApart k k' hne hsame
      · rw [heq, heq'] at hsame
        exact absurd hsame (h.storedHeld k v seq hv)
    · rcases hstore k' with heq' | ⟨hk', _⟩
      · rw [heq, heq'] at hsame
        exact absurd hsame.symm (h.storedHeld k' v seq hv)
      · rw [hk, hk']

theorem Numbered.effect (h : Numbered s n) {env : Env} {v : Nat} {m' : Machine} {th' : Thread}
    {acts : List Action} (heff : Effect env v s.machine (s.threads v) m' th' acts)
    (hn : n + (numberedOf acts).length + 1 < 2 ^ 64) :
    Numbered ⟨m', Function.update s.threads v th'⟩ (n + (numberedOf acts).length) := by
  generalize hth : s.threads v = th at heff
  cases heff with
  | quiet hm hcalm hcalm' _ _ =>
      exact h.frame hm.sequenceCounter (seqOf_congr hm.tbMap)
        (held_update (by rw [hth]; exact Thread.held_of_calm hcalm) (Thread.held_of_calm hcalm'))
  | claimWriter tb _ => exact h.frame rfl rfl (held_update (by rw [hth]; rfl) rfl)
  | storeWriter tb =>
      obtain ⟨writer, heq⟩ := openWriter_frame s.machine.host s.machine.plugin
      rw [heq]
      exact h.frame rfl rfl (held_update (by rw [hth]; rfl) rfl)
  | mapTb _ ht _ =>
      exact h.frame ht.same.sequenceCounter (seqOf_translates ht)
        (held_update (by rw [hth]; rfl) rfl)
  | laterTiers tr =>
      exact h.frame (laterTiers_spec s.machine.plugin tr.tb).1.sequenceCounter
        (seqOf_laterTiers s.machine.plugin tr.tb) (held_update (by rw [hth]; rfl) rfl)
  | takeNumber key _ => exact h.take hn
  | storeNumber key seq rest => exact h.store hth
  | drain accs _ _ => exact h.frame rfl rfl (held_update (by rw [hth]; rfl) rfl)
  | addFlushed edges toAddr rest =>
      exact h.frame rfl rfl (held_update (by rw [hth]; rfl) rfl)
  | writeBatch edges toAddr rest =>
      have hnil : numberedOf [if s.machine.plugin.writer.isSome then .logged edges
          else .lost edges] = [] := by
        cases s.machine.plugin.writer <;> rfl
      rw [hnil]
      exact h.frame rfl rfl (held_update (by rw [hth]; rfl) rfl)

end Steps

/-! ## §3. Runs. -/

section Runs

variable {config : PluginConfig} {tier3 sysemu : Bool} {arch : String} {host : HostInfo}
  {evs : List Event} {s : System} {out : List Action}

/-- As long as the counter has not wrapped. -/
theorem numbered_run
    (h : runFrom (System.init config tier3 sysemu arch host) evs = some (s, out))
    (hlen : (numberedOf out).length + 1 < 2 ^ 64) : Numbered s (numberedOf out).length := by
  refine runFrom_induction (fun s out => (numberedOf out).length + 1 < 2 ^ 64 →
    Numbered s (numberedOf out).length) ?_ ?_ ?_ ?_ ?_ h hlen
  · intro _
    refine ⟨rfl, fun _ => Nat.le_refl _, ?_, ?_, ?_, ?_⟩
    · intro v seq hv
      exact absurd hv (by simp [System.init, Thread.held])
    · intro u v seq hu
      exact absurd hu (by simp [System.init, Thread.held])
    · intro k v seq hv
      exact absurd hv (by simp [System.init, Thread.held])
    · intro k k' hne
      exact absurd rfl hne
  · intro s out v plugin _ hp hpl hlen
    obtain ⟨i, j, heq, _⟩ := ensureVcpuState_eq hpl
    rw [heq]
    exact (hp hlen).frame rfl rfl fun _ => rfl
  · intro s out hp hlen
    exact (hp hlen).frame rfl rfl fun _ => rfl
  · intro s out v tr rest _ hp _ _ hidle hlen
    rw [numberedOf_append] at hlen ⊢
    have hsame : numberedOf out ++ numberedOf [.executed v tr] = numberedOf out :=
      List.append_nil _
    rw [hsame] at hlen ⊢
    exact (hp hlen).frame rfl rfl (held_update (by rw [hidle]; rfl) rfl)
  · intro s out env v m' th' acts _ hp _ heff hlen
    rw [numberedOf_append, List.length_append] at hlen ⊢
    exact (hp (by omega)).effect heff hlen

/-- **THE NUMBERS A READER FINDS**: pairwise distinct where not 0, and below
the counter. -/
theorem distinctNumbers_exit
    (h : runFrom (System.init config tier3 sysemu arch host) evs = some (s, out))
    (hlen : (numberedOf out).length + 1 < 2 ^ 64) {o : ExitOrders}
    {written : List (Edge × UInt64)} {p : Profile}
    (hp : ExitProfile o s.machine.plugin (execSum s.machine) written p) :
    Temporal.DistinctNumbers p
      ∧ ∀ tb ∈ p.tbExecs, tb.firstSeenSeq < s.machine.plugin.sequenceCounter := by
  have hcodes := (runFrom_inv h).codes
  have hnum := numbered_run h hlen
  have hseqs : p.tbExecs.map TbExec.firstSeenSeq
      = (tbMetas o s.machine.plugin).map TbMeta.firstSeenSeq := by
    rw [hp.tbExecs, exitTbEntries, List.map_map, List.map_map]
    rfl
  have hseq : ∀ e ∈ tbMetas o s.machine.plugin,
      seqOf s.machine.plugin (metaKey e) = e.firstSeenSeq := by
    intro e he
    unfold seqOf
    rw [lookup_metaKey hcodes he]
    rfl
  constructor
  · unfold Temporal.DistinctNumbers
    rw [hseqs, List.filter_map]
    -- an entry with a number is determined by it
    refine List.Nodup.map_on ?_ ((List.Nodup.of_map _ (nodup_metaKey hcodes o)).filter _)
    intro e he e' he' heq
    obtain ⟨hin, hne⟩ := List.mem_filter.mp he
    have hin' := (List.mem_filter.mp he').1
    have hkey : metaKey e = metaKey e' := by
      refine hnum.storedApart _ _ ?_ ?_
      · rw [hseq e hin]
        exact of_decide_eq_true hne
      · rw [hseq e hin, hseq e' hin', heq]
    have hlook := lookup_metaKey hcodes hin
    rw [hkey, lookup_metaKey hcodes hin'] at hlook
    exact (Option.some.inj hlook).symm
  · intro tb htb
    have hmem : tb.firstSeenSeq ∈ (tbMetas o s.machine.plugin).map TbMeta.firstSeenSeq := by
      rw [← hseqs]
      exact List.mem_map_of_mem htb
    obtain ⟨e, he, heq⟩ := List.mem_map.mp hmem
    have hle := hnum.stored (metaKey e)
    rw [hseq e he, heq] at hle
    rw [hnum.counter, UInt64.lt_iff_toNat_lt, UInt64.toNat_ofNat', Nat.mod_eq_of_lt hlen]
    omega

end Runs

/-! ## §4. The temporal trace. -/

/-- **THE TEMPORAL TRACE.**  When the numbers of a profile are distinct, the
emitted trace lists the executed functions in the order of their smallest
numbers, whatever the iteration order; and they are distinct in every profile
that the plugin writes, as long as the counter has not wrapped. -/
theorem temporal_trace :
    (∀ profile, Temporal.DistinctNumbers profile → ∀ elf, ∃ names text,
        Temporal.IsTrace profile elf names ∧ Temporal.IsTraceFile names text
          ∧ ∀ ρ, Temporal.emit ρ profile elf = text)
      ∧ (∀ config tier3 sysemu arch host evs s out,
          runFrom (System.init config tier3 sysemu arch host) evs = some (s, out) →
          (numberedOf out).length + 1 < 2 ^ 64 →
          ∀ o w, pluginExit o s.machine.plugin (execSum s.machine) = some w → ∀ ρb ρf,
            ∃ p, parse ρb ρf w.writer = .ok p ∧ Temporal.DistinctNumbers p
              ∧ ∀ tb ∈ p.tbExecs, tb.firstSeenSeq ≠ 0 →
                  tb.firstSeenSeq < s.machine.plugin.sequenceCounter) := by
  constructor
  · intro profile hd elf
    exact Temporal.emit_isTraceFile hd elf
  · intro config tier3 sysemu arch host evs s out h hlen o w hexit ρb ρf
    obtain ⟨p, hparse, hp⟩ := exitProfile_run h hexit ρb ρf
    obtain ⟨hd, hbelow⟩ := distinctNumbers_exit h hlen hp
    exact ⟨p, hparse, hd, fun tb htb _ => hbelow tb htb⟩

/-- Two threads execute a block each for the first time; they take their
numbers in one order and store them in the other. -/
def crossingNumbers : List Event :=
  [.vcpuInit 0, .vcpuInit 1, .translate 0 (nopBlock 0x10 0)] ++ sections 0 6
    ++ [.translate 1 (nopBlock 0x40 0)] ++ sections 1 4
    ++ [.exec 0 0 1 ⟨[], 0⟩, .exec 1 1 1 ⟨[], 0⟩] ++ sections 0 1 ++ sections 1 2 ++ sections 0 1

/-- A binary with a function around each block. -/
def twoFunctions : ElfIndex :=
  ⟨[⟨"main", 0x10, 0x10⟩, ⟨"cb", 0x40, 0x10⟩], 0, by decide⟩

theorem temporal_trace_crossing :
    numberedOf (outcome (installed 0 65536 false) crossingNumbers).2
        = [(nopBlock 0x10 0).key, (nopBlock 0x40 0).key]
      ∧ ∃ w p names text, pluginExit listOrders
          (outcome (installed 0 65536 false) crossingNumbers).1.machine.plugin
          (execSum (outcome (installed 0 65536 false) crossingNumbers).1.machine) = some w
        ∧ parse [] [] w.writer = .ok p ∧ Temporal.DistinctNumbers p
        ∧ Temporal.IsTrace p twoFunctions names ∧ Temporal.IsTraceFile names text
        ∧ Temporal.emit [] p twoFunctions = text := by
  have hnum : numberedOf (outcome (installed 0 65536 false) crossingNumbers).2
      = [(nopBlock 0x10 0).key, (nopBlock 0x40 0).key] := by decide
  have hrun := runFrom_outcome (installed 0 65536 false) crossingNumbers (by decide)
  have hwriter : (pluginExit listOrders
      (outcome (installed 0 65536 false) crossingNumbers).1.machine.plugin
      (execSum (outcome (installed 0 65536 false) crossingNumbers).1.machine)).isSome = true := by
    decide
  obtain ⟨w, hw⟩ := Option.isSome_iff_exists.mp hwriter
  obtain ⟨p, hp, hd, _⟩ := temporal_trace.2 _ _ _ _ _ _ _ _ hrun (by rw [hnum]; decide)
    listOrders w hw [] []
  obtain ⟨names, text, hnames, htext, hemit⟩ := temporal_trace.1 p hd twoFunctions
  exact ⟨hnum, w, p, names, text, hw, hp, hd, hnames, htext, hemit []⟩

end QemuProfiler.Threads

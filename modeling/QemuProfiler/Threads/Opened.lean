/-
  QemuProfiler.Threads.Opened
  ───────────────────────────
  **THE IDENTITY OF A LOG**: its header and its metadata.

  They are written when the log is opened, by whichever thread comes first,
  and nothing after that adds to them (`opened_run`).  So a reader finds in
  every file, of a run that exits or is killed, the settings of the plugin's
  arguments and what the emulator reports about itself
  (`identity_of_arguments`).
-/
import QemuProfiler.Format.Acceptance
import QemuProfiler.Plugin.Install
import QemuProfiler.Threads.Killed
import QemuProfiler.Threads.ResourceFile

namespace QemuProfiler.Threads

open QemuProfiler.Lib QemuProfiler.Plugin QemuProfiler.Qemu QemuProfiler.Edges QemuProfiler.Format
open QemuProfiler.Convert hiding fileMagic FileHeader

/-! ## §1. The log as it is opened. -/

/-- The metadata that a log is opened with. -/
def identityOf (host : HostInfo) (s : PluginState) : List (String × String) :=
  [("binary_path", binaryPathOf host s), ("arch", s.arch),
    ("mode", if s.sysemu then "sysemu" else "linux-user")]

def openingCalls (host : HostInfo) (s : PluginState) : List WriteCall :=
  (identityOf host s).map fun kv => .stringMeta kv.1 kv.2

/-- The log after `calls`. -/
def logWith (host : HostInfo) (s : PluginState) (calls : List WriteCall) : ProfileWriter :=
  callsNext (ProfileWriter.new s.config.tier s.sysemu s.config.streaming host.startCode
    host.startCode host.endCode host.entryCode) calls

theorem writer_openWriter {host : HostInfo} {s : PluginState} (hopen : host.outputOpens = true) :
    (openWriter host s).writer = some (logWith host s (openingCalls host s)) := by
  unfold openWriter
  rw [if_pos hopen]
  simp only [perform_eq]
  rfl

section Runs

variable {config : PluginConfig} {tier3 sysemu : Bool} {arch : String} {host : HostInfo}
  {evs : List Event} {s : System} {out : List Action}

/-- A section that opens a log opens it with the settings of the state. -/
theorem Effect.opens {env : Env} {v : Nat} {m m' : Machine} {th th' : Thread}
    {acts : List Action} (h : Effect env v m th m' th' acts) (hnone : m.plugin.writer = none)
    {w : ProfileWriter} (hw : m'.plugin.writer = some w) :
    w = logWith m.host m.plugin (openingCalls m.host m.plugin) := by
  have hclosed : ∀ {x : Option ProfileWriter}, x = m.plugin.writer → x = some w → False := by
    intro x hx hxw
    rw [hx, hnone] at hxw
    cases hxw
  cases h with
  -- only the section that stores the writer opens it
  | quiet hm _ _ _ _ => exact (hclosed hm.writer hw).elim
  | storeWriter tb =>
      by_cases hopen : m.host.outputOpens = true
      · rw [show (Machine.withPlugin m (openWriter m.host m.plugin)).plugin
          = openWriter m.host m.plugin from rfl, writer_openWriter hopen] at hw
        exact (Option.some.inj hw).symm
      · have hsame : openWriter m.host m.plugin = m.plugin := by
          unfold openWriter
          rw [if_neg hopen]
        exact (hclosed (congrArg PluginState.writer hsame) hw).elim
  | mapTb htb ht hrest =>
      refine (hclosed ?_ hw).elim
      rw [hrest]
  | laterTiers tr =>
      obtain ⟨calls, tbMap, heq⟩ := laterTiers_frame m.plugin tr.tb
      refine (hclosed ?_ hw).elim
      rw [heq]
  | writeBatch edges toAddr rest =>
      refine (hclosed ?_ hw).elim
      show Option.map _ m.plugin.writer = _
      rw [hnone]
      rfl
  | claimWriter tb _ => exact (hclosed rfl hw).elim
  | takeNumber key _ => exact (hclosed rfl hw).elim
  | storeNumber key seq rest => exact (hclosed rfl hw).elim
  | drain accs _ _ => exact (hclosed rfl hw).elim
  | addFlushed edges toAddr rest => exact (hclosed rfl hw).elim

/-- Only settings matter for how a log is opened. -/
theorem logWith_congr (host : HostInfo) {s t : PluginState} (h : settingsOf s = settingsOf t)
    (calls : List WriteCall) :
    openingCalls host s = openingCalls host t ∧ logWith host s calls = logWith host t calls := by
  simp only [settingsOf, Prod.mk.injEq] at h
  obtain ⟨hconfig, _, hsysemu, harch⟩ := h
  unfold openingCalls identityOf binaryPathOf logWith
  rw [hconfig, hsysemu, harch]
  exact ⟨rfl, rfl⟩

/-- **AN OPEN LOG** starts with the opening calls for the installed settings,
and the rest of it is flushes, at every moment of every interleaving. -/
theorem opened_run
    (h : runFrom (System.init config tier3 sysemu arch host) evs = some (s, out)) :
    ∀ w, s.machine.plugin.writer = some w →
      ∃ cs, (∀ c ∈ cs, isFlushCall c = true)
        ∧ w = logWith host (PluginState.new config tier3 sysemu arch)
            (openingCalls host (PluginState.new config tier3 sysemu arch) ++ cs) := by
  refine runSteps_induction Threads.step (fun s _ => ∀ w, s.machine.plugin.writer = some w →
    ∃ cs, (∀ c ∈ cs, isFlushCall c = true)
      ∧ w = logWith host (PluginState.new config tier3 sysemu arch)
          (openingCalls host (PluginState.new config tier3 sysemu arch) ++ cs)) _ ?_ ?_ h
  · intro w hw
    exact absurd hw (by simp [System.init, Machine.init, PluginState.new])
  · intro s out e s' acts hreach hopened hstep w hw
    obtain ⟨evs, hreach⟩ := hreach
    cases hbefore : s.machine.plugin.writer with
    | some w₀ =>
        -- it was open, and has grown
        obtain ⟨cs, hcs, hw'⟩ := grown_step hreach hstep w₀ hbefore
        obtain ⟨cs₀, hcs₀, rfl⟩ := hopened w₀ hbefore
        rw [hw', Option.some.injEq] at hw
        refine ⟨cs₀ ++ cs, ?_, ?_⟩
        · intro c hc
          rcases List.mem_append.mp hc with hin | hin
          · exact hcs₀ c hin
          · exact hcs c hin
        · rw [← hw]
          unfold logWith
          rw [← callsNext_append, List.append_assoc]
    -- it was opened in this step
    | none =>
        have hset : settingsOf s.machine.plugin
            = settingsOf (PluginState.new config tier3 sysemu arch) :=
          settings_run (unobserved_run (observer 0) _ _ _ _ hreach)
        rcases step_cases (runFrom_inv hreach) hstep with ⟨v, plugin, _, hpl, rfl, _⟩
          | ⟨_, rfl, _⟩ | ⟨v, _, _, _, tr, rest, _, _, _, _, _, rfl, _⟩
          | ⟨env, v, m', th', _, _, heff, rfl⟩
        · obtain ⟨i, j, heq, _⟩ := ensureVcpuState_eq hpl
          rw [heq] at hw
          exact absurd (hbefore.symm.trans hw) (by simp)
        · exact absurd (hbefore.symm.trans hw) (by simp)
        · exact absurd (hbefore.symm.trans hw) (by simp)
        · refine ⟨[], fun c hc => absurd hc List.not_mem_nil, ?_⟩
          rw [heff.opens hbefore hw, host_run hreach, List.append_nil,
              (logWith_congr host hset []).1, (logWith_congr host hset _).2]

end Runs

/-! ## §2. Metadata come from their own records. -/

/-- A record that is no metadata leaves them alone. -/
theorem parseRecord_metadata {tag : UInt8} (htag : tag ≠ 0x01) {payload : List UInt8}
    {p p' : Profile} (h : parseRecord tag payload p = some p') : p'.metadata = p.metadata := by
  rw [parseRecord_eq, Option.some.injEq] at h
  rw [← h]
  show (if tag = 0x01 ∧ _ then _ else p.metadata) = _
  rw [if_neg fun hm => htag hm.1]

/-- The record is of a pair in `pairs`, or no metadata. -/
def FromPairs (pairs : List (String × String)) (r : UInt8 × List UInt8) : Prop :=
  r.1 ≠ 0x01 ∨ ∃ kv ∈ pairs, r = (0x01, stringMetaPayload kv.1 kv.2)

theorem fromPairs_frames (w : ProfileWriter) (c : WriteCall) :
    ∀ f ∈ c.frames w, FromPairs (metaOf c) f.view := by
  intro f hf
  have htag : f.view.1 = (callTag c).toU8 := frames_tag w c f hf
  cases c with
  | stringMeta key value =>
      have hlen := length_stringMetaPayload key value
      refine Or.inr ⟨(key, value), List.mem_singleton.mpr rfl, ?_⟩
      rw [List.mem_singleton.mp hf, view_mkRec _ _ (by omega)]
      rfl
  | _ =>
      refine Or.inl ?_
      rw [htag]
      simp [callTag, RecordTag.toU8]

theorem fromPairs_callsFrames (cs : List WriteCall) :
    ∀ w, ∀ f ∈ callsFrames w cs, FromPairs (cs.flatMap metaOf) f.view := by
  induction cs with
  | nil =>
      intro w f hf
      exact absurd hf List.not_mem_nil
  | cons c cs ih =>
      intro w f hf
      have hmono : ∀ {pairs : List (String × String)}, pairs ⊆ (c :: cs).flatMap metaOf →
          FromPairs pairs f.view → FromPairs ((c :: cs).flatMap metaOf) f.view := by
        intro pairs hsub hfrom
        rcases hfrom with htag | ⟨kv, hkv, heq⟩
        · exact Or.inl htag
        · exact Or.inr ⟨kv, hsub hkv, heq⟩
      rw [callsFrames, List.mem_append] at hf
      rcases hf with hin | hin
      · exact hmono (List.subset_append_left _ _) (fromPairs_frames w c f hin)
      · exact hmono (List.subset_append_right _ _) (ih _ f hin)

/-- **METADATA ARE NEVER MADE UP**: whichever of the records are read, an entry
was there before or belongs to one of the pairs. -/
theorem metadata_applyRecords (pairs : List (String × String)) (rs : List (UInt8 × List UInt8))
    (hrs : ∀ r ∈ rs, FromPairs pairs r) :
    ∀ {p p' : Profile}, applyRecords rs p = some p' → ∀ key value,
      p'.metadata.lookup key = some value → p.metadata.lookup key = some value
        ∨ ∃ kv ∈ pairs, key = storedText 255 kv.1 ∧ value = storedText 65535 kv.2 := by
  induction rs with
  | nil =>
      intro p p' h key value hlookup
      rw [applyRecords_nil, Option.some.injEq] at h
      rw [h]
      exact Or.inl hlookup
  | cons r rs ih =>
      intro p p' h key value hlookup
      rw [applyRecords_cons, Option.bind_eq_some_iff] at h
      obtain ⟨q, hq, hrest⟩ := h
      rcases ih (fun r' hr' => hrs r' (List.mem_cons_of_mem _ hr')) hrest key value hlookup with
        hold | hpair
      · rcases hrs r List.mem_cons_self with htag | ⟨kv, hkv, rfl⟩
        · rw [parseRecord_metadata htag hq] at hold
          exact Or.inl hold
        · -- a pair is stored under its own key
          have heff : q = { p with
              metadata := p.metadata.insert (storedText 255 kv.1) (storedText 65535 kv.2) } := by
            have hpay := parseStringMeta_payload kv.1 kv.2 p
            exact (Option.some.inj (hq.symm.trans hpay))
          rw [heff] at hold
          by_cases hkey : key = storedText 255 kv.1
          · rw [hkey, AList.lookup_insert, Option.some.injEq] at hold
            exact Or.inr ⟨kv, hkv, hkey, hold.symm⟩
          · rw [AList.lookup_insert_ne hkey] at hold
            exact Or.inl hold
      · exact Or.inr hpair

theorem callsEffect_append (cs ds : List WriteCall) :
    ∀ (w : ProfileWriter) (p : Profile),
      callsEffect w (cs ++ ds) p = callsEffect (callsNext w cs) ds (callsEffect w cs p) := by
  induction cs with
  | nil =>
      intro w p
      rfl
  | cons c cs ih =>
      intro w p
      exact ih (c.next w) (effect w c p)

/-- Calls that write no metadata leave them alone. -/
theorem metadata_others {cs : List WriteCall} (h : cs.flatMap metaOf = []) :
    ∀ (w : ProfileWriter) (p : Profile), (callsEffect w cs p).metadata = p.metadata := by
  induction cs with
  | nil =>
      intro w p
      rfl
  | cons c cs ih =>
      intro w p
      rw [List.flatMap_cons, List.append_eq_nil_iff] at h
      show (callsEffect (c.next w) cs (effect w c p)).metadata = _
      rw [ih h.2]
      cases c with
      | stringMeta key value => exact absurd h.1 (by simp [metaOf])
      | _ => rfl

theorem metaOf_flushes {cs : List WriteCall} (hcs : ∀ c ∈ cs, isFlushCall c = true) :
    cs.flatMap metaOf = [] := by
  rw [List.flatMap_eq_nil_iff]
  intro c hc
  have hflush := hcs c hc
  cases c with
  | stringMeta key value => exact absurd hflush (by simp [isFlushCall])
  | _ => rfl

theorem metaOf_exitCalls (o : ExitOrders) (s : PluginState) (execSum : Nat → UInt64) :
    (exitCalls o s execSum).flatMap metaOf = [] := by
  rw [flatMap_exitCalls metaOf (fun _ _ _ => rfl) (fun _ _ _ => rfl) (fun _ _ => rfl)
    (fun _ _ _ _ => rfl)]
  simp [metaOf]

/-! ## §3. From the arguments to the file. -/

/-- The system right after `qemu_plugin_install`. -/
def systemOf (i : Installed) (host : HostInfo) : System :=
  System.init i.state.config i.state.tier3 i.state.sysemu i.state.arch host

/-- The metadata of a file, as a reader gets them: texts are cut to what their
length field can hold. -/
def storedIdentity (host : HostInfo) (s : PluginState) : List (String × String) :=
  (identityOf host s).map fun kv => (kv.1, storedText 65535 kv.2)

/-- The keys fit their length field. -/
theorem storedText_keys :
    storedText 255 "binary_path" = "binary_path" ∧ storedText 255 "arch" = "arch"
      ∧ storedText 255 "mode" = "mode" :=
  ⟨storedText_eq (by decide), storedText_eq (by decide), storedText_eq (by decide)⟩

/-- Three entries under different keys. -/
theorem lookup_three {k₁ k₂ k₃ : String} (h₁₂ : k₁ ≠ k₂) (h₁₃ : k₁ ≠ k₃) (h₂₃ : k₂ ≠ k₃)
    (x y z key value : String) :
    ((((∅ : HashMap String String).insert k₁ x).insert k₂ y).insert k₃ z).lookup key = some value
      ↔ (key, value) ∈ [(k₁, x), (k₂, y), (k₃, z)] := by
  simp only [List.mem_cons, Prod.mk.injEq, List.not_mem_nil, or_false]
  by_cases h₃ : key = k₃
  · rw [h₃, AList.lookup_insert]
    grind
  · rw [AList.lookup_insert_ne h₃]
    by_cases h₂ : key = k₂
    · rw [h₂, AList.lookup_insert]
      grind
    · rw [AList.lookup_insert_ne h₂]
      by_cases h₁ : key = k₁
      · rw [h₁, AList.lookup_insert]
        grind
      · rw [AList.lookup_insert_ne h₁, AList.lookup_empty]
        grind

/-- **Reading the opening calls** gives the three entries. -/
theorem metadata_opening (host : HostInfo) (s : PluginState) (w : ProfileWriter)
    (header : Convert.FileHeader) (key value : String) :
    (callsEffect w (openingCalls host s) (Profile.ofHeader header)).metadata.lookup key = some value
      ↔ (key, value) ∈ storedIdentity host s := by
  obtain ⟨hpath, harch, hmode⟩ := storedText_keys
  have heff : (callsEffect w (openingCalls host s) (Profile.ofHeader header)).metadata
      = (((∅ : HashMap String String).insert "binary_path"
          (storedText 65535 (binaryPathOf host s))).insert "arch" (storedText 65535 s.arch)).insert
          "mode" (storedText 65535 (if s.sysemu then "sysemu" else "linux-user")) := by
    rw [← hpath, ← harch, ← hmode]
    rfl
  rw [heff]
  exact lookup_three (by decide) (by decide) (by decide) _ _ _ key value

/-- The header of a file, by the settings. -/
def headerFor (a : Arguments) (sysemu : Bool) (host : HostInfo) : Convert.FileHeader :=
  headerOf a.tier sysemu a.streaming host.startCode host.startCode host.endCode host.entryCode

/-- **A cut log**: the header is right, and so is what metadata there are. -/
theorem parse_take_logWith (host : HostInfo) (s : PluginState) {cs : List WriteCall}
    (hcs : ∀ c ∈ cs, isFlushCall c = true) (ρb ρf : IterOrder) {n : Nat} (hn : 64 ≤ n) :
    ∃ p, parse ρb ρf ((logWith host s (openingCalls host s ++ cs)).writer.take n) = .ok p
      ∧ p.header = headerOf s.config.tier s.sysemu s.config.streaming host.startCode
          host.startCode host.endCode host.entryCode
      ∧ ∀ key value, p.metadata.lookup key = some value → (key, value) ∈ storedIdentity host s := by
  obtain ⟨p, hp, hext⟩ := applyRecords_take (openingCalls host s ++ cs) (ProfileWriter.new
    s.config.tier s.sysemu s.config.streaming host.startCode host.startCode host.endCode
    host.entryCode) (Profile.ofHeader (headerOf s.config.tier s.sysemu s.config.streaming
    host.startCode host.startCode host.endCode host.entryCode)) (wholeFrames _ (n - 64))
  refine ⟨_, parse_take_log _ _ _ _ _ _ _ _ ρb ρf n hn p hp, ?_, ?_⟩
  · show p.header = _
    rw [← hext.header, header_callsEffect]
    rfl
  · intro key value hlookup
    have hfrom := metadata_applyRecords (identityOf host s) _ ?_ hp key value hlookup
    · obtain hold | ⟨kv, hkv, rfl, rfl⟩ := hfrom
      · exact absurd hold (by simp [Profile.ofHeader])
      · obtain ⟨hpath, harch, hmode⟩ := storedText_keys
        refine List.mem_map.mpr ⟨kv, hkv, ?_⟩
        simp only [identityOf, List.mem_cons, List.not_mem_nil, or_false] at hkv
        rcases hkv with rfl | rfl | rfl
        · rw [hpath]
        · rw [harch]
        · rw [hmode]
    · intro r hr
      obtain ⟨f, hf, rfl⟩ := List.mem_map.mp hr
      have hpairs := fromPairs_callsFrames _ _ f (List.mem_of_mem_take hf)
      rw [List.flatMap_append, metaOf_flushes hcs, List.append_nil] at hpairs
      exact hpairs

/-- **A log with its exit** has all metadata. -/
theorem parse_logWith (host : HostInfo) (s : PluginState) {cs : List WriteCall}
    (hcs : cs.flatMap metaOf = []) (ρb ρf : IterOrder) :
    ∃ p, parse ρb ρf (logWith host s (openingCalls host s ++ cs)).writer = .ok p
      ∧ p.header = headerOf s.config.tier s.sysemu s.config.streaming host.startCode
          host.startCode host.endCode host.entryCode
      ∧ ∀ key value, p.metadata.lookup key = some value ↔ (key, value) ∈ storedIdentity host s := by
  refine ⟨_, parse_callsNext _ _ _ _ _ _ _ ρb ρf _, ?_, ?_⟩
  · show (callsEffect _ _ _).header = _
    rw [header_callsEffect]
    rfl
  · intro key value
    show (callsEffect _ _ _).metadata.lookup key = _ ↔ _
    rw [callsEffect_append, metadata_others hcs]
    exact metadata_opening host s _ _ key value

section Arguments

variable {boolParse : String → Option Bool} {tier3 : Bool} {info : QemuInfo}
  {argv : List (List UInt8)} {host : HostInfo} {evs : List (Event ⊕ Runtime)} {s : System}
  {out : List (Action ⊕ Seen)}

/-- The installed settings are the last ones given. -/
theorem config_install : (qemuPluginInstall boolParse tier3 info argv).state.config
    = (lastSettings boolParse (argv.map fromUtf8Lossy)).toPluginConfig := by
  show (readArguments boolParse (argv.map fromUtf8Lossy)).1.toPluginConfig = _
  rw [readArguments_eq]

/-- The header that the installed state leads to. -/
theorem header_install :
    headerOf (qemuPluginInstall boolParse tier3 info argv).state.config.tier
        (qemuPluginInstall boolParse tier3 info argv).state.sysemu
        (qemuPluginInstall boolParse tier3 info argv).state.config.streaming
        host.startCode host.startCode host.endCode host.entryCode
      = headerFor (lastSettings boolParse (argv.map fromUtf8Lossy)) info.systemEmulation host := by
  rw [config_install]
  rfl

/-- **What a killed run left**, cut anywhere behind the header. -/
theorem killed_identity
    (h : runWith info.versionCur (systemOf (qemuPluginInstall boolParse tier3 info argv) host) evs
      = some (s, out)) (ρb ρf : IterOrder) {w : ProfileWriter}
    (hw : s.machine.plugin.writer = some w) {n : Nat} (hn : 64 ≤ n) :
    ∃ p, parse ρb ρf (w.writer.take n) = .ok p
      ∧ p.header = headerFor (lastSettings boolParse (argv.map fromUtf8Lossy))
          info.systemEmulation host
      ∧ ∀ key value, p.metadata.lookup key = some value →
          (key, value) ∈ storedIdentity host (qemuPluginInstall boolParse tier3 info argv).state := by
  obtain ⟨s₀, t, hrun, rfl⟩ := observed h
  obtain ⟨cs, hcs, rfl⟩ := opened_run hrun w hw
  obtain ⟨p, hp, hhead, hmeta⟩ := parse_take_logWith host _ hcs ρb ρf hn
  exact ⟨p, hp, hhead.trans header_install, hmeta⟩

/-- **What the exit handler leaves.** -/
theorem exited_identity
    (h : runWith info.versionCur (systemOf (qemuPluginInstall boolParse tier3 info argv) host) evs
      = some (s, out)) (ρb ρf : IterOrder) {o : ExitOrders} {w : ProfileWriter}
    (hexit : pluginExit o s.machine.plugin (execSum s.machine) = some w) :
    ∃ p, parse ρb ρf w.writer = .ok p
      ∧ p.header = headerFor (lastSettings boolParse (argv.map fromUtf8Lossy))
          info.systemEmulation host
      ∧ ∀ key value, p.metadata.lookup key = some value ↔
          (key, value) ∈ storedIdentity host (qemuPluginInstall boolParse tier3 info argv).state := by
  obtain ⟨s₀, t, hrun, rfl⟩ := observed h
  rw [pluginExit_eq, Option.map_eq_some_iff] at hexit
  obtain ⟨w₀, hw₀, rfl⟩ := hexit
  obtain ⟨cs, hcs, rfl⟩ := opened_run hrun w₀ hw₀
  have hlater : ∀ (p : PluginState) (sum : Nat → UInt64),
      (cs ++ exitCalls o p sum).flatMap metaOf = [] := by
    intro p sum
    rw [List.flatMap_append, metaOf_flushes hcs, metaOf_exitCalls]
    rfl
  obtain ⟨p, hp, hhead, hmeta⟩ := parse_logWith host _
    (hlater (s₀.withTables t).machine.plugin (execSum (s₀.withTables t).machine)) ρb ρf
  refine ⟨p, ?_, hhead.trans header_install, hmeta⟩
  rw [← List.append_assoc] at hp
  rw [← hp]
  exact congrArg (fun w => parse ρb ρf (ProfileWriter.writer w)) (callsNext_append _ _ _).symm

/-- **A FILE TELLS WHERE IT COMES FROM.**  Install the plugin with any
arguments and let the threads run, in any interleaving.  What they wrote so
far, cut at any byte behind the header, has the header that the last usable
arguments and the emulator determine, and no metadata but the binary, the
architecture and the mode; what the exit handler leaves has all three. -/
theorem identity_of_arguments
    (h : runWith info.versionCur (systemOf (qemuPluginInstall boolParse tier3 info argv) host) evs
      = some (s, out)) (ρb ρf : IterOrder) :
    (∀ w n, s.machine.plugin.writer = some w → 64 ≤ n →
      ∃ p, parse ρb ρf (w.writer.take n) = .ok p
        ∧ p.header = headerFor (lastSettings boolParse (argv.map fromUtf8Lossy))
            info.systemEmulation host
        ∧ ∀ key value, p.metadata.lookup key = some value →
            (key, value) ∈ storedIdentity host (qemuPluginInstall boolParse tier3 info argv).state)
      ∧ ∀ o w, pluginExit o s.machine.plugin (execSum s.machine) = some w →
        ∃ p, parse ρb ρf w.writer = .ok p
          ∧ p.header = headerFor (lastSettings boolParse (argv.map fromUtf8Lossy))
              info.systemEmulation host
          ∧ ∀ key value, p.metadata.lookup key = some value ↔
              (key, value) ∈ storedIdentity host
                (qemuPluginInstall boolParse tier3 info argv).state := by
  constructor
  · intro w n hw hn
    exact killed_identity h ρb ρf hw hn
  · intro o w hexit
    exact exited_identity h ρb ρf hexit

end Arguments

/-- A tier given three times, the last time in vain. -/
def boardArguments : List (List UInt8) :=
  ["tier=hotness", "colour=red", "tier=resources", "tier=9"].map asBytes

def boardInfo : QemuInfo := ⟨asBytes "riscv64", true, 6⟩

theorem read_boardArguments : boardArguments.map fromUtf8Lossy
    = ["tier=hotness", "colour=red", "tier=resources", "tier=9"] := by
  simp only [boardArguments, List.map_cons, List.map_nil, fromUtf8Lossy_asBytes]

theorem systemOf_board :
    systemOf (qemuPluginInstall (fun _ => none) true boardInfo boardArguments) exampleHost
      = board := by
  have hread : readArguments (fun _ => none) (boardArguments.map fromUtf8Lossy)
      = ({ Arguments.default with tier := 3 }, [unknownTier "9"]) := by
    rw [read_boardArguments]
    decide
  unfold qemuPluginInstall systemOf boardInfo
  rw [hread, fromUtf8Lossy_asBytes]
  rfl

theorem identity_of_arguments_mmio :
    (∃ w p, (outcomeWith 6 board mmioEvents).1.machine.plugin.writer = some w
      ∧ parse [] [] (w.writer.take 100) = .ok p ∧ p.header.tier = 3
      ∧ p.metadata.lookup "mode" ≠ some "linux-user")
      ∧ ∃ w p, pluginExit listOrders (outcomeWith 6 board mmioEvents).1.machine.plugin
          (execSum (outcomeWith 6 board mmioEvents).1.machine) = some w
        ∧ parse [] [] w.writer = .ok p ∧ p.header.tier = 3
        ∧ p.metadata.lookup "mode" = some "sysemu" := by
  have hrun : runWith boardInfo.versionCur (systemOf (qemuPluginInstall (fun _ => none) true
        boardInfo boardArguments) exampleHost) mmioEvents
      = some ((outcomeWith 6 board mmioEvents).1, (outcomeWith 6 board mmioEvents).2) := by
    rw [systemOf_board]
    exact mmioEvents_run
  have hidentity : storedIdentity exampleHost (qemuPluginInstall (fun _ => none) true boardInfo
        boardArguments).state
      = [("binary_path", storedText 65535 (binaryPathOf exampleHost board.machine.plugin)),
        ("arch", storedText 65535 "riscv64"), ("mode", "sysemu")] := by
    show storedIdentity exampleHost (systemOf (qemuPluginInstall (fun _ => none) true boardInfo
      boardArguments) exampleHost).machine.plugin = _
    have hmode : storedText 65535 "sysemu" = "sysemu" := storedText_eq (by decide)
    rw [systemOf_board, ← hmode]
    rfl
  obtain ⟨hkilled, hexited⟩ := identity_of_arguments hrun [] []
  constructor
  · -- killed: the file is cut in the middle of its metadata
    obtain ⟨w, hw⟩ := Option.isSome_iff_exists.mp (show ((outcomeWith 6 board
      mmioEvents).1.machine.plugin.writer).isSome = true by decide)
    obtain ⟨p, hp, hhead, hmeta⟩ := hkilled w 100 hw (by decide)
    refine ⟨w, p, hw, hp, ?_, ?_⟩
    · rw [hhead, read_boardArguments]
      decide
    · intro hmode
      have hin := hmeta _ _ hmode
      rw [hidentity] at hin
      simp at hin
  · obtain ⟨w, hw⟩ := mmioEvents_exits
    obtain ⟨p, hp, hhead, hmeta⟩ := hexited listOrders w hw
    refine ⟨w, p, hw, hp, ?_, (hmeta _ _).mpr ?_⟩
    · rw [hhead, read_boardArguments]
      decide
    · rw [hidentity]
      simp

end QemuProfiler.Threads

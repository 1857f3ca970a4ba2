import MethodFlow.Config.Analysis
import MethodFlow.Proofs.Yaml.Values
/-!
# Configurations are read back as they were written

The file of a configuration replaces all stages, so that nothing comes from the preset.  In a format
that reads back the files that it has written, what is left of reading a configuration is then that
it is validated:

* `readIn_writeIn`: the configuration is read back, or the error of its validation;
* `FileFormat.readsBack_yaml`: the format in use reads back every file that it has written, whichever
  stages the file replaces.
-/

namespace MethodFlow

open Yaml (IsKey IsWord Node Outline wordNode)

/-! ## Stages -/

theorem isWord_boolText (b : Bool) : IsWord (boolText b).toList := by cases b <;> decide

theorem isWord_dispatch (kind : Dispatch) : IsWord (Vocabulary.name kind).toList := by
  cases kind <;> decide

theorem isWord_preset (p : Preset) : IsWord p.name.toList := by cases p <;> decide

theorem bool?_boolText (b : Bool) : (wordNode (boolText b)).bool? = some b := by
  cases b <;> rfl

namespace EscapeConfig

theorem isPlain_outline (c : EscapeConfig) : c.outline.IsPlain :=
  ⟨by decide, isWord_boolText _, by decide, isWord_boolText _, by decide, isWord_boolText _,
    trivial⟩

theorem ofNode?_outline (c : EscapeConfig) : ofNode? (.mapping c.outline.entries) = some c := by
  let fields := [("enabled", wordNode (boolText c.enabled)),
    ("verify_ir", wordNode (boolText c.verifyFirst)),
    ("mark_receiver_slot", wordNode (boolText c.markReceiver))]
  have hfields : (Node.mapping c.outline.entries).fields?
      ["enabled", "verify_ir", "mark_receiver_slot"] = some fields := rfl
  have henabled : fields.lookup "enabled" = some (wordNode (boolText c.enabled)) := rfl
  have hverify : fields.lookup "verify_ir" = some (wordNode (boolText c.verifyFirst)) := rfl
  have hmark : fields.lookup "mark_receiver_slot" = some (wordNode (boolText c.markReceiver)) := rfl
  simp only [ofNode?, hfields, henabled, hverify, hmark, bool?_boolText, Option.bind_eq_bind,
    Option.bind_some]
  rfl

end EscapeConfig

namespace NullCheckConfig

theorem isPlain_outline (c : NullCheckConfig) : c.outline.IsPlain := by
  refine ⟨by decide, isWord_boolText _, by decide, ?_, trivial⟩
  simpa using fun kind _ => isWord_dispatch kind

theorem ofNode?_outline (c : NullCheckConfig) : ofNode? (.mapping c.outline.entries) = some c := by
  let fields := [("enabled", wordNode (boolText c.enabled)),
    ("invocation_kinds", .sequence ((c.kinds.map Vocabulary.name).map wordNode))]
  have hfields : (Node.mapping c.outline.entries).fields? ["enabled", "invocation_kinds"] =
      some fields := rfl
  have henabled : fields.lookup "enabled" = some (wordNode (boolText c.enabled)) := rfl
  have hitems : fields.lookup "invocation_kinds" =
      some (.sequence ((c.kinds.map Vocabulary.name).map wordNode)) := rfl
  have hkinds : ((c.kinds.map Vocabulary.name).map wordNode).mapM Node.member? = some c.kinds := by
    generalize c.kinds = kinds
    induction kinds with
    | nil => rfl
    | cons kind kinds ih =>
        simp only [List.map_cons, List.mapM_cons, Node.member?_name, Option.bind_eq_bind,
          Option.bind_some, ih]
        rfl
  simp only [ofNode?, hfields, henabled, hitems, bool?_boolText, Node.items?, hkinds,
    Option.bind_eq_bind, Option.bind_some]
  rfl

end NullCheckConfig

namespace ParallelConfig

theorem isPlain_outline (c : ParallelConfig) : c.outline.IsPlain :=
  ⟨by decide, isWord_boolText _, by decide, Yaml.isWord_toString _, trivial⟩

theorem ofNode?_outline {c : ParallelConfig} (h : c.threads < wordLimit) :
    ofNode? (.mapping c.outline.entries) = some c := by
  let fields := [("enabled", wordNode (boolText c.enabled)),
    ("num_threads", wordNode (toString c.threads))]
  have hfields : (Node.mapping c.outline.entries).fields? ["enabled", "num_threads"] =
      some fields := rfl
  have henabled : fields.lookup "enabled" = some (wordNode (boolText c.enabled)) := rfl
  have hthreads : fields.lookup "num_threads" = some (wordNode (toString c.threads)) := rfl
  simp only [ofNode?, hfields, henabled, hthreads, bool?_boolText, Node.natural?_toString h,
    Option.bind_eq_bind, Option.bind_some]
  rfl

end ParallelConfig

/-! ## Files -/

namespace ConfigFile

def optionalEntry (key : String) (content? : Option Outline) : List (String × Node) :=
  match content? with
  | some content => [(key, .mapping content.entries)]
  | none => []

@[simp] theorem lookup_optionalEntry_self (key : String) (content? : Option Outline) :
    (optionalEntry key content?).lookup key =
      content?.map fun content => .mapping content.entries := by
  cases content? <;> simp [optionalEntry]

@[simp] theorem lookup_optionalEntry_ne {key other : String} (h : key ≠ other)
    (content? : Option Outline) : (optionalEntry other content?).lookup key = none := by
  have hne : (key == other) = false := by simpa using h
  cases content? <;> simp [optionalEntry, List.lookup_cons, hne]

def fields (f : ConfigFile) : List (String × Node) :=
  ("version", wordNode (f.version?.elim "null" toString)) :: ("preset", wordNode f.preset) ::
    (optionalEntry "escape" (f.escape?.map (·.outline)) ++
      (optionalEntry "null_check" (f.nullCheck?.map (·.outline)) ++
        optionalEntry "parallel" (f.parallel?.map (·.outline))))

theorem fields?_outline (f : ConfigFile) :
    (Node.mapping f.outline.entries).fields?
      ["version", "preset", "escape", "null_check", "parallel"] = some f.fields := by
  obtain ⟨version?, preset, escape?, nullCheck?, parallel?⟩ := f
  cases escape? <;> cases nullCheck? <;> cases parallel? <;> rfl

theorem optional?_version {version? : Option Nat} (h : ∀ v ∈ version?, v < 0x100000000) :
    (wordNode (version?.elim "null" toString)).optional? (·.natural? 0x100000000) =
      some version? := by
  cases version? with
  | none => rfl
  | some v =>
      have hv : v < 0x100000000 := h v rfl
      change (wordNode (toString v)).optional? _ = _
      rw [Node.optional?_word _ (Yaml.isWord_toString v) (Yaml.isNullWord_toString v),
        Node.natural?_toString hv]
      rfl

/-- The conditions under which a file can be written: its numbers are of their types, and its preset
is one that there is. -/
structure IsWritable (f : ConfigFile) : Prop where
  version_lt : ∀ v ∈ f.version?, v < 0x100000000
  exists_preset : ∃ p : Preset, f.preset = p.name
  threads_lt : ∀ c ∈ f.parallel?, c.threads < wordLimit

/-- A stage is read back from its entry, and an absent one from none. -/
theorem optionalField?_stage {α : Type} {read : Node → Option α} (outline : α → Outline)
    {stage? : Option α} {fields : List (String × Node)} {key : String}
    (hlookup : fields.lookup key = stage?.map fun c => .mapping (outline c).entries)
    (hread : ∀ c ∈ stage?, read (.mapping (outline c).entries) = some c) :
    optionalField? read fields key = some stage? := by
  unfold optionalField?
  rw [hlookup]
  cases stage? with
  | none => rfl
  | some c =>
      change (read (.mapping (outline c).entries)).map some = some (some c)
      rw [hread c rfl]
      rfl

theorem ofNode?_outline {f : ConfigFile} (h : f.IsWritable) :
    ofNode? (.mapping f.outline.entries) = some f := by
  have hversion : optionalField? (·.natural? 0x100000000) f.fields "version" = some f.version? :=
    optional?_version h.version_lt
  have hpreset : f.fields.lookup "preset" = some (wordNode f.preset) := rfl
  have hpresetText : (wordNode f.preset).text? = some f.preset := rfl
  have hescape : optionalField? EscapeConfig.ofNode? f.fields "escape" = some f.escape? := by
    apply optionalField?_stage EscapeConfig.outline
    · simp [fields, List.lookup_cons, List.lookup_append, Function.comp_def]
    · exact fun c _ => c.ofNode?_outline
  have hnullCheck : optionalField? NullCheckConfig.ofNode? f.fields "null_check" =
      some f.nullCheck? := by
    apply optionalField?_stage NullCheckConfig.outline
    · simp [fields, List.lookup_cons, List.lookup_append, Function.comp_def]
    · exact fun c _ => c.ofNode?_outline
  have hparallel : optionalField? ParallelConfig.ofNode? f.fields "parallel" =
      some f.parallel? := by
    apply optionalField?_stage ParallelConfig.outline
    · simp [fields, List.lookup_cons, List.lookup_append, Function.comp_def]
    · exact fun c hc => ParallelConfig.ofNode?_outline (h.threads_lt c hc)
  simp only [ofNode?, f.fields?_outline, hversion, hpreset, hpresetText, hescape, hnullCheck,
    hparallel, Option.bind_eq_bind, Option.bind_some]
  rfl

theorem isPlain_optionalBlock {key : String} {content? : Option Outline} {more : Outline}
    (hkey : IsKey key) (hcontent : ∀ content ∈ content?, content.IsPlain) (hmore : more.IsPlain) :
    (optionalBlock key content? more).IsPlain := by
  cases content? with
  | none => exact hmore
  | some content => exact ⟨hkey, hcontent content rfl, hmore⟩

theorem isPlain_outline {f : ConfigFile} (h : f.IsWritable) : f.outline.IsPlain := by
  have hversion : IsWord (f.version?.elim "null" toString).toList := by
    cases f.version? with
    | none => decide
    | some v => exact Yaml.isWord_toString v
  have hpreset : IsWord f.preset.toList := by
    obtain ⟨p, hp⟩ := h.exists_preset
    rw [hp]
    exact isWord_preset p
  refine ⟨by decide, hversion, by decide, hpreset, ?_⟩
  apply isPlain_optionalBlock (by decide)
  · simpa using fun c _ => c.isPlain_outline
  apply isPlain_optionalBlock (by decide)
  · simpa using fun c _ => c.isPlain_outline
  apply isPlain_optionalBlock (by decide)
  · simpa using fun c _ => c.isPlain_outline
  trivial

/-- A file that has been written is read back as it was. -/
theorem ofText?_text {f : ConfigFile} (h : f.IsWritable) : ofText? f.text = some f := by
  have hnode := Yaml.Outline.ofText?_text (isPlain_outline h) rfl
  rw [ofText?, text, hnode]
  exact ofNode?_outline h

end ConfigFile

/-- Whatever file can be written is written, and read back as it was. -/
def FileFormat.ReadsBack (format : FileFormat) : Prop :=
  ∀ f : ConfigFile, f.IsWritable →
    ∃ text, format.write? f = some text ∧ format.read? text = some f

theorem FileFormat.readsBack_yaml : FileFormat.yaml.ReadsBack :=
  fun f h => ⟨f.text, rfl, ConfigFile.ofText?_text h⟩

/-! ## Configurations -/

theorem Preset.ofText_name (p : Preset) : ofText p.name = .ok p := by
  have hlower : p.name.toLower = p.name := by
    apply String.toList_inj.mp
    change (p.name.map Char.toLower).toList = p.name.toList
    rw [String.toList_map]
    cases p <;> decide
  rw [ofText, hlower]
  cases p <;> rfl

theorem Dispatch.needsObject_iff (d : Dispatch) : d.needsObject = true ↔ d ≠ .static := by
  cases d <;> simp [needsObject]

/-- An enabled stage needs kinds, and none of them may be static. -/
theorem NullCheckConfig.validate_eq_ok_iff (c : NullCheckConfig) :
    c.validate = .ok () ↔ (c.enabled = true → c.kinds ≠ [] ∧ .static ∉ c.kinds) := by
  have hfind : (c.kinds.find? fun kind => !kind.needsObject) = none ↔ .static ∉ c.kinds := by
    rw [List.find?_eq_none]
    constructor
    · intro h hmem
      exact h .static hmem rfl
    · intro h kind hkind hstatic
      have hne : kind ≠ .static := fun heq => h (heq ▸ hkind)
      rw [kind.needsObject_iff.mpr hne] at hstatic
      exact Bool.false_ne_true hstatic
  by_cases henabled : c.enabled = true
  · by_cases hkinds : c.kinds = []
    · simp [validate, henabled, hkinds]
    · rw [← hfind]
      cases hfound : c.kinds.find? fun kind => !kind.needsObject <;>
        simp [validate, henabled, hkinds, hfound]
  · simp [validate, henabled]

theorem ParallelConfig.validate_eq_ok_iff (c : ParallelConfig) :
    c.validate = .ok () ↔ c.threads ≤ 1024 := by
  unfold validate maxThreads
  split <;> simp [*]

namespace AnalysisConfig

/-- A configuration is validated stage by stage; only the last two have something to refuse. -/
theorem validate_eq (c : AnalysisConfig) :
    c.validate = c.nullCheck.validate >>= fun _ => c.parallel.validate := rfl

theorem validate_eq_ok_iff (c : AnalysisConfig) :
    c.validate = .ok () ↔ c.nullCheck.validate = .ok () ∧ c.parallel.validate = .ok () := by
  rw [validate_eq]
  cases c.nullCheck.validate <;> simp [bind, Except.bind]

/-- The file of a configuration gives every stage, so that none comes from the preset. -/
theorem ofFile_toFile (c : AnalysisConfig) : ofFile c.toFile = c.validate.map fun _ => c := by
  have hpreset : Preset.ofText c.toFile.preset = .ok c.preset := c.preset.ofText_name
  unfold ofFile
  rw [hpreset]
  change (do c.validate; return c) = _
  cases c.validate <;> rfl

theorem isWritable_toFile {c : AnalysisConfig} (h : c.parallel.threads < wordLimit) :
    c.toFile.IsWritable where
  version_lt := by simp [toFile]
  exists_preset := ⟨c.preset, rfl⟩
  threads_lt := by simpa [toFile] using h

/-- Reading what was written of a configuration only validates it. -/
theorem exists_readIn_eq_validate {format : FileFormat} (hformat : format.ReadsBack)
    {c : AnalysisConfig} (h : c.parallel.threads < wordLimit) :
    ∃ text, writeIn format c = .ok text ∧ readIn format text = c.validate.map fun _ => c := by
  obtain ⟨text, hwrite, hread⟩ := hformat c.toFile (isWritable_toFile h)
  refine ⟨text, ?_, ?_⟩
  · unfold writeIn
    rw [hwrite]
  · unfold readIn
    rw [hread]
    exact c.ofFile_toFile

/-- In a format that reads back what it has written, writing a configuration and reading it back
gives the configuration, or the error of its validation; the number of threads is a machine word, as
the reader takes no larger one.  A configuration is valid when there are not too many threads and an
enabled null check has kinds none of which is static, and what is wrong with the null check is told
first. -/
theorem readIn_writeIn (format : FileFormat) (hformat : format.ReadsBack) (c : AnalysisConfig)
    (hthreads : c.parallel.threads < wordLimit) :
    (∃ text, writeIn format c = .ok text ∧
      (c.validate = .ok () → readIn format text = .ok c) ∧
      ∀ e, c.validate = .error e → readIn format text = .error e) ∧
    (c.validate = .ok () ↔ c.parallel.threads ≤ 1024 ∧
      (c.nullCheck.enabled = true →
        c.nullCheck.kinds ≠ [] ∧ Dispatch.static ∉ c.nullCheck.kinds)) ∧
    (∀ e, c.nullCheck.validate = .error e → c.validate = .error e) ∧
    (c.nullCheck.validate = .ok () → c.validate = c.parallel.validate) := by
  refine ⟨?_, ?_, ?_, ?_⟩
  · obtain ⟨text, hwrite, hread⟩ := exists_readIn_eq_validate hformat hthreads
    refine ⟨text, hwrite, fun hvalid => ?_, fun e hinvalid => ?_⟩
    · rw [hread, hvalid]
      rfl
    · rw [hread, hinvalid]
      rfl
  · rw [validate_eq_ok_iff, c.nullCheck.validate_eq_ok_iff, c.parallel.validate_eq_ok_iff]
    exact And.comm
  · intro e hrefused
    rw [validate_eq, hrefused]
    rfl
  · intro haccepted
    rw [validate_eq, haccepted]
    rfl

theorem writeIn_yaml (c : AnalysisConfig) : writeIn .yaml c = .ok c.toYaml := rfl

/-- A configuration that differs from its preset in every stage. -/
def reworked : AnalysisConfig where
  preset := .thorough
  escape := ⟨false, false, true⟩
  nullCheck := ⟨true, [.special, .interface, .special]⟩
  parallel := ⟨true, 1024⟩

/-- The same with a static kind and too many threads. -/
def overreaching : AnalysisConfig :=
  { reworked with nullCheck := ⟨true, [.virtual, .static]⟩, parallel := ⟨true, 4096⟩ }

theorem reworked_readBack :
    FileFormat.yaml.ReadsBack ∧
    (reworked.parallel.threads < wordLimit ∧ ofYaml reworked.toYaml = .ok reworked) ∧
    (overreaching.parallel.threads < wordLimit ∧ ofYaml overreaching.toYaml =
      .error (.validation "null_check" (.kindWithoutObject .static))) := by
  have hformat : FileFormat.yaml.ReadsBack := FileFormat.readsBack_yaml
  refine ⟨hformat, ⟨by decide, ?_⟩, ⟨by decide, ?_⟩⟩
  · obtain ⟨⟨text, hwrite, hread, -⟩, -⟩ := readIn_writeIn .yaml hformat reworked (by decide)
    rw [writeIn_yaml] at hwrite
    cases hwrite
    exact hread rfl
  · obtain ⟨⟨text, hwrite, -, hrefused⟩, -⟩ :=
      readIn_writeIn .yaml hformat overreaching (by decide)
    rw [writeIn_yaml] at hwrite
    cases hwrite
    exact hrefused _ rfl

end AnalysisConfig

end MethodFlow

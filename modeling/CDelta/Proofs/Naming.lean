import CDelta.Proofs.Pairing
import CDelta.Proofs.Utf8

/-! # Functions are told apart by how they read

A function is known by its name, which is what the bytes of its identifier say as UTF-8. So two
definitions become one function, or are compared with each other, exactly when their identifiers
read alike. For identifiers that are well-formed this is to be the same bytes. Two identifiers that
are not may differ and still say the same, replacements in place of what cannot be read.
-/

namespace CDelta

open Text.Utf8 (ReadAlike WellFormed decode replacement)

namespace Survey

/-- The definitions that the surviving choices find. -/
def definitions (survey : Survey) : List Definition :=
  survey.survivors.flatMap (·.outline.definitions)

/-- A definition that some surviving choice finds lies in a function of the file. -/
structure Gathers (survey : Survey) (start : Start) (definition : Definition)
    (function : Footprint) : Prop where
  found : definition ∈ survey.definitions
  mem : function ∈ survey.functions
  holds : function.Holds (definition.footprint start)

section

variable {settings : Settings} {path : String} {source : Bytes} {survey : Survey}

theorem flatten_sets (hsurvey : ofSource settings path source = .ok survey) :
    survey.sets.flatten = survey.definitions.map (·.footprint settings.start) := by
  rw [sets_eq hsurvey, definitions, List.map_flatMap, List.flatMap_def]
  rfl

theorem exists_gathers (hsurvey : ofSource settings path source = .ok survey)
    {definition : Definition} (hfound : definition ∈ survey.definitions) :
    ∃ function, survey.Gathers settings.start definition function := by
  have hpart : definition.footprint settings.start ∈ survey.sets.flatten := by
    rw [flatten_sets hsurvey]
    exact List.mem_map_of_mem hfound
  obtain ⟨function, hmem, hholds⟩ := Footprint.exists_holds_uniteAll hpart
  exact ⟨function, hfound, functions_eq hsurvey ▸ hmem, hholds⟩

theorem mem_names_iff (hsurvey : ofSource settings path source = .ok survey) {name : String} :
    name ∈ survey.names ↔
      ∃ definition ∈ survey.definitions, (definition.footprint settings.start).name = name := by
  constructor
  · intro hname
    obtain ⟨function, hmem, rfl⟩ := List.mem_map.mp hname
    rw [functions_eq hsurvey] at hmem
    obtain ⟨⟨part, hpart, hsame, _⟩, _⟩ := Footprint.spans_of_mem_uniteAll hmem
    rw [flatten_sets hsurvey] at hpart
    obtain ⟨definition, hfound, rfl⟩ := List.mem_map.mp hpart
    exact ⟨definition, hfound, hsame⟩
  · rintro ⟨definition, hfound, rfl⟩
    obtain ⟨function, hgathers⟩ := exists_gathers hsurvey hfound
    exact hgathers.holds.1 ▸ List.mem_map_of_mem hgathers.mem

theorem function?_eq_some_iff (hsurvey : ofSource settings path source = .ok survey)
    {name : String} {function : Footprint} (hmem : function ∈ survey.functions) :
    survey.function? name = some function ↔ name = function.name := by
  constructor
  · intro hfound
    have hname := List.find?_some hfound
    exact (of_decide_eq_true hname).symm
  · rintro rfl
    exact Footprint.find?_name (nodup_functions hsurvey) hmem

namespace Gathers

variable {start : Start} {definition other : Definition} {function united : Footprint}

theorem name_eq (hgathers : survey.Gathers start definition function) :
    function.name = decode definition.name.text :=
  hgathers.holds.1

/-- Definitions lie in one function of their file exactly if their identifiers read alike. -/
theorem eq_iff_readAlike (hsurvey : ofSource settings path source = .ok survey)
    (hfunction : survey.Gathers start definition function)
    (hunited : survey.Gathers start other united) :
    function = united ↔ ReadAlike definition.name.text other.name.text := by
  rw [Text.Utf8.readAlike_iff, ← hfunction.name_eq, ← hunited.name_eq,
    ← function?_eq_some_iff hsurvey hunited.mem,
    (function?_eq_some_iff hsurvey hfunction.mem).mpr rfl, Option.some_inj]

/-- Functions of two files are compared exactly if the identifiers of their definitions read
alike. -/
theorem function?_eq_some_iff_readAlike {old : Survey} {oldStart : Start}
    (hsurvey : ofSource settings path source = .ok survey)
    (hfunction : old.Gathers oldStart definition function)
    (hunited : survey.Gathers start other united) :
    survey.function? function.name = some united ↔
      ReadAlike definition.name.text other.name.text := by
  rw [function?_eq_some_iff hsurvey hunited.mem, hfunction.name_eq, hunited.name_eq,
    Text.Utf8.readAlike_iff]

theorem deleted_mem_functions_iff {old : Survey} {oldStart : Start}
    (hsurvey : ofSource settings path source = .ok survey)
    (hfunction : old.Gathers oldStart definition function) :
    Finding.deleted old function ∈ Finding.functions old survey ↔
      ∀ other ∈ survey.definitions, ¬ ReadAlike definition.name.text other.name.text := by
  rw [Finding.deleted_mem_functions_iff hfunction.mem, mem_names_iff hsurvey, hfunction.name_eq]
  simp only [Text.Utf8.readAlike_iff, Definition.footprint, not_exists, not_and,
    eq_comm (a := decode definition.name.text)]

end Gathers

end

end Survey

/-- Two files, which may be one. Each definition that a surviving choice finds lies in one function
of its file. Definitions whose identifiers do not read alike have different names, lie in different
functions and are not compared with each other; those whose identifiers read alike have one name,
lie in one function of a file, and are compared between files. A function is found deleted exactly
if no identifier of the new file reads like its own. Identifiers that read alike are the same
bytes, unless their name holds a replacement and one of them is ill-formed. -/
theorem spellings_are_kept_apart_as_they_read {settingsA settingsB : Settings}
    {pathA pathB : String} {sourceA sourceB : Bytes} {a b : Survey}
    (ha : Survey.ofSource settingsA pathA sourceA = .ok a)
    (hb : Survey.ofSource settingsB pathB sourceB = .ok b) :
    (∀ definition ∈ a.definitions,
      ∃! function, a.Gathers settingsA.start definition function) ∧
    (∀ definition ∈ a.definitions, ∀ other ∈ a.definitions,
      (definition.footprint settingsA.start).name ≠ (other.footprint settingsA.start).name ↔
        ¬ ReadAlike definition.name.text other.name.text) ∧
    (∀ definition other function united, a.Gathers settingsA.start definition function →
      a.Gathers settingsA.start other united →
      (function = united ↔ ReadAlike definition.name.text other.name.text)) ∧
    (∀ definition other function counterpart, a.Gathers settingsA.start definition function →
      b.Gathers settingsB.start other counterpart →
      (b.function? function.name = some counterpart ↔
        ReadAlike definition.name.text other.name.text)) ∧
    (∀ definition function, a.Gathers settingsA.start definition function →
      (Finding.deleted a function ∈ Finding.functions a b ↔
        ∀ other ∈ b.definitions, ¬ ReadAlike definition.name.text other.name.text)) ∧
    ∀ spelling other : Bytes, ReadAlike spelling other → spelling = other ∨
      replacement ∈ (decode spelling).toList ∧ ¬ (WellFormed spelling ∧ WellFormed other) := by
  refine ⟨fun definition hfound => ?_, fun definition _ other _ => ?_,
    fun _ _ _ _ hfunction hunited => hfunction.eq_iff_readAlike ha hunited,
    fun _ _ _ _ hfunction hunited => hfunction.function?_eq_some_iff_readAlike hb hunited,
    fun _ _ hfunction => hfunction.deleted_mem_functions_iff hb,
    fun _ _ halike => halike.eq_or⟩
  · obtain ⟨function, hgathers⟩ := Survey.exists_gathers ha hfound
    refine ⟨function, hgathers, fun other hother => ?_⟩
    exact (hother.eq_iff_readAlike ha hgathers).mpr (Text.Utf8.readAlike_iff.mpr rfl)
  · exact not_congr Text.Utf8.readAlike_iff.symm

/-- Functions called by a letter outside ASCII and by a byte that begins no character, against one
called by another such byte: the two are kept apart, the second is compared with the one called
differently, and the first is found deleted. -/
theorem spellings_are_kept_apart_as_they_read_letter_and_flaw :
    let old : Bytes := [0xC3, 0xA9, 40, 41, 123, 125, 0xFF, 40, 41, 123, 125]
    let new : Bytes := [0xFE, 40, 41, 123, 125]
    ∃ a b, Survey.ofSource Settings.default "a.c" old = .ok a ∧
      Survey.ofSource Settings.default "b.c" new = .ok b ∧
      ∃ letter flawed function united counterpart,
        a.definitions = [letter, flawed] ∧ letter.name.text = [0xC3, 0xA9] ∧
        flawed.name.text = [0xFF] ∧ b.definitions.map (·.name.text) = [[0xFE]] ∧
        a.Gathers .declaration letter function ∧ a.Gathers .declaration flawed united ∧
        function ≠ united ∧ b.function? united.name = some counterpart ∧
        Finding.deleted a function ∈ Finding.functions a b := by
  intro old new
  obtain ⟨a, ha, hold⟩ : ∃ survey, Survey.ofSource Settings.default "a.c" old = .ok survey ∧
      survey.definitions.map (·.name.text) = [[0xC3, 0xA9], [0xFF]] := by
    apply Survey.exists_of_toOption
    unfold Survey.ofSource Survey.prepare Attempt.read
    simp only [Bytes.blankMarks_eq_mask, Bytes.blank_eq_mask]
    decide +kernel
  obtain ⟨b, hb, hnew⟩ : ∃ survey, Survey.ofSource Settings.default "b.c" new = .ok survey ∧
      survey.definitions.map (·.name.text) = [[0xFE]] := by
    apply Survey.exists_of_toOption
    unfold Survey.ofSource Survey.prepare Attempt.read
    simp only [Bytes.blankMarks_eq_mask, Bytes.blank_eq_mask]
    decide +kernel
  obtain ⟨letter, _, hfirst, hletter, htail⟩ := List.map_eq_cons_iff.mp hold
  obtain ⟨flawed, _, rfl, hflawed, hnil⟩ := List.map_eq_cons_iff.mp htail
  obtain rfl := List.map_eq_nil_iff.mp hnil
  obtain ⟨other, _, hlast, hother, hend⟩ := List.map_eq_cons_iff.mp hnew
  obtain rfl := List.map_eq_nil_iff.mp hend
  obtain ⟨hgather, _, hunite, hcompare, hdelete, _⟩ := spellings_are_kept_apart_as_they_read ha hb
  obtain ⟨hgatherB, _⟩ := spellings_are_kept_apart_as_they_read hb ha
  obtain ⟨function, hfunction, _⟩ := hgather letter (by simp [hfirst])
  obtain ⟨united, hunited, _⟩ := hgather flawed (by simp [hfirst])
  obtain ⟨counterpart, hcounterpart, _⟩ := hgatherB other (by simp [hlast])
  refine ⟨a, b, ha, hb, letter, flawed, function, united, counterpart, hfirst, hletter, hflawed,
    hnew, hfunction, hunited, ?_, ?_, ?_⟩
  · rw [Ne, hunite _ _ _ _ hfunction hunited, hletter, hflawed, Text.Utf8.readAlike_iff]
    decide +kernel
  · rw [hcompare _ _ _ _ hunited hcounterpart, hflawed, hother, Text.Utf8.readAlike_iff]
    decide +kernel
  · rw [hdelete _ _ hfunction]
    intro found hfound
    obtain rfl : found = other := by simpa [hlast] using hfound
    rw [hletter, hother, Text.Utf8.readAlike_iff]
    decide +kernel

/-- Two identifiers of one byte each, neither of which begins a character, make one function. -/
theorem flawed_spellings_unite :
    let source : Bytes := [0xFF, 40, 41, 123, 125, 0xFE, 40, 41, 123, 125]
    ∃ survey, Survey.ofSource Settings.default "a.c" source = .ok survey ∧
      survey.definitions.map (·.name.text) = [[0xFF], [0xFE]] ∧
      survey.functions = [⟨"\uFFFD", ⟨0, 9⟩⟩] := by
  intro source
  have hread : ∃ survey, Survey.ofSource Settings.default "a.c" source = .ok survey ∧
      (survey.definitions.map (·.name.text), survey.functions) =
        ([[0xFF], [0xFE]], [⟨"\uFFFD", ⟨0, 9⟩⟩]) := by
    apply Survey.exists_of_toOption
    unfold Survey.ofSource Survey.prepare Attempt.read
    simp only [Bytes.blankMarks_eq_mask, Bytes.blank_eq_mask]
    decide +kernel
  obtain ⟨survey, hsurvey, hvalues⟩ := hread
  exact ⟨survey, hsurvey, Prod.mk.inj hvalues⟩

end CDelta

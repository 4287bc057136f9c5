import CDelta.Proofs.Edit.Report
import CDelta.Proofs.Edit.Word

/-! # An edit inside of a body is reported where it is

While the body of a function is read, all that matters of a word is that it is one, so a word
of a body may be spelled another way and the same functions are found. The two versions of the
file show the same literals and the same other bytes with one exception, and a region differs
exactly when it holds that byte.
-/

namespace CDelta

namespace Bracket

/-- A word neither opens nor closes a body. -/
theorem depthAfter_word {text : Bytes} (hword : Token.isWord text = true) (depth : Nat) :
    curly.depthAfter depth text = depth := by
  have hopening : text ≠ curly.opening := by
    rintro rfl
    exact absurd hword (by decide)
  have hclosing : text ≠ curly.closing := by
    rintro rfl
    exact absurd hword (by decide)
  rw [depthAfter, if_neg hopening, if_neg hclosing]

end Bracket

namespace OutlineReader

/-- Apart from what was known before, the bodies that have been read or are being read open at
some of the tokens. -/
structure OpensIn (known : List OutlineEvent) (tokens : List Token) (reader : OutlineReader) :
    Prop where
  stage : ∀ heading brace depth, reader.stage = .inBody heading brace depth →
    brace ∈ tokens ∧ brace.text = Bracket.curly.opening
  events : ∀ found, .definition found ∈ reader.events → .definition found ∈ known ∨
    ∃ brace ∈ tokens, brace.text = Bracket.curly.opening ∧ found.brace = brace.first

namespace OpensIn

variable {known : List OutlineEvent} {tokens : List Token} {reader : OutlineReader} {token : Token}

theorem outside (hstage : ∀ heading brace depth, reader.stage ≠ .inBody heading brace depth)
    (hevents : ∀ found, .definition found ∈ reader.events → .definition found ∈ known ∨
      ∃ brace ∈ tokens, brace.text = Bracket.curly.opening ∧ found.brace = brace.first) :
    reader.OpensIn known tokens :=
  ⟨fun heading brace depth hhere => absurd hhere (hstage heading brace depth), hevents⟩

theorem seekBody (hreader : reader.OpensIn known tokens) (hmem : token ∈ tokens)
    (heading : Heading) : (reader.seekBody heading token).OpensIn known tokens := by
  unfold OutlineReader.seekBody
  split
  next hopening =>
    refine ⟨fun _ brace _ hstage => ?_, hreader.events⟩
    obtain ⟨_, rfl, _⟩ := OutlineStage.inBody.inj hstage
    exact ⟨hmem, hopening⟩
  next => exact outside (by simp) hreader.events

/-- A step opens a body at the token it reads only. -/
theorem step (hreader : reader.OpensIn known tokens) (hmem : token ∈ tokens) :
    (reader.step token).OpensIn known tokens := by
  unfold OutlineReader.step
  cases hstage : reader.stage with
  | between =>
      cases Bracket.openedBy? token.text with
      | none => exact outside (by simp [note, hstage]) hreader.events
      | some bracket => exact outside (by simp) hreader.events
  | inGroup bracket opener depth heading =>
      simp only
      cases bracket.depthAfter depth token.text with
      | zero =>
          refine outside ?_ fun found hfound => hreader.events found (by simpa using hfound)
          cases heading <;> simp [stageAfterGroup]
      | succ inner => exact outside (by simp) hreader.events
  | afterParameters heading =>
      simp only
      split
      · exact outside (by simp) hreader.events
      · exact hreader.seekBody hmem heading
  | beforeBody heading => exact hreader.seekBody hmem heading
  | inBody heading brace depth =>
      have hbrace := hreader.stage heading brace depth hstage
      simp only
      cases Bracket.curly.depthAfter depth token.text with
      | zero =>
          refine outside (by simp) fun found hfound => ?_
          rcases List.mem_cons.mp hfound with heq | hfound
          · obtain rfl := OutlineEvent.definition.inj heq
            exact .inr ⟨brace, hbrace.1, hbrace.2, rfl⟩
          · exact hreader.events found (by simpa using hfound)
      | succ inner =>
          refine ⟨fun _ other _ hnext => ?_, hreader.events⟩
          obtain ⟨_, rfl, _⟩ := OutlineStage.inBody.inj hnext
          exact hbrace

theorem run (hreader : reader.OpensIn known tokens) {later : List Token}
    (hlater : ∀ token ∈ later, token ∈ tokens) : (reader.run later).OpensIn known tokens := by
  induction later generalizing reader with
  | nil => exact hreader
  | cons token rest ih =>
      obtain ⟨htoken, hrest⟩ := List.forall_mem_cons.mp hlater
      exact ih (hreader.step htoken) hrest

end OpensIn

/-- A word between the braces of a definition is read inside of a body. -/
theorem exists_inBody {data : Bytes} {front back : List Token} {word : Token}
    (hsplit : data.tokens = front ++ word :: back) (hword : Token.isWord word.text = true)
    {found : Definition} (hfound : found ∈ (Outline.ofTokens data.tokens).definitions)
    {offset : Nat} (hinside : word.first ≤ offset ∧ offset ≤ word.last)
    (hbody : found.brace < offset ∧ offset < found.last) :
    ∃ heading brace depth, (initial.run front).stage = .inBody heading brace depth := by
  have hbefore : (front ++ word :: back).Pairwise (·.first < ·.first) :=
    hsplit ▸ Token.ascending_scan 0 data
  have hapart : (front ++ word :: back).Pairwise (·.last < ·.first) :=
    hsplit ▸ Token.pairwise_scan 0 data
  by_contra hnone
  have hstart : (initial.run front).OpensIn (initial.run front).events (word :: back) :=
    ⟨fun heading brace depth hstage => absurd ⟨heading, brace, depth, hstage⟩ hnone,
      fun _ hknown => .inl hknown⟩
  rw [Outline.mem_definitions_iff, hsplit, run_append] at hfound
  rcases (hstart.run fun _ hmem => hmem).events found hfound with hknown | ⟨brace, hmem, htext, heq⟩
  · -- a definition that is complete in front of the word ends in front of it
    obtain ⟨_, _, last, hsublist, _, _, _, _, hlast⟩ :=
      Outline.readFrom_of_mem_definitions (Outline.mem_definitions_iff.mpr hknown)
    have hlt := (List.pairwise_append.mp hbefore).2.2 last (hsublist.mem (by simp)) word
      List.mem_cons_self
    omega
  · -- a body that opens at the word or behind it does not open in front of it
    rcases List.mem_cons.mp hmem with rfl | hmem
    · rw [htext] at hword
      exact absurd hword (by decide)
    · have hlt := (List.pairwise_cons.mp (List.pairwise_append.mp hapart).2.1).1 brace hmem
      omega

/-- Inside of a body it does not matter how a word is spelled. -/
theorem step_word_congr {reader : OutlineReader} {heading : Heading} {brace : Token} {depth : Nat}
    (hstage : reader.stage = .inBody heading brace depth) {word other : Token}
    (hword : Token.isWord word.text = true) (hother : Token.isWord other.text = true)
    (hfirst : other.first = word.first) : reader.step other = reader.step word := by
  unfold step
  rw [hstage]
  simp only [Bracket.depthAfter_word hword, Bracket.depthAfter_word hother, hfirst]

end OutlineReader

/-- The outline stays the same when a word of a body is spelled another way. -/
theorem WordEdit.ofTokens_eq {data : Bytes} {offset : Nat} {old new : UInt8}
    (hedit : WordEdit data offset old new) {word : Token} (hmem : word ∈ data.tokens)
    (hword : Token.isWord word.text = true)
    (hinside : word.first ≤ offset ∧ offset ≤ word.last) {found : Definition}
    (hfound : found ∈ (Outline.ofTokens data.tokens).definitions)
    (hbody : found.brace < offset ∧ offset < found.last) :
    Outline.ofTokens (data.edit offset new).tokens = Outline.ofTokens data.tokens := by
  obtain ⟨front, back, hsplit⟩ := List.append_of_mem hmem
  obtain ⟨heading, brace, depth, hstage⟩ :=
    OutlineReader.exists_inBody hsplit hword hfound hinside hbody
  have hrespelled : Token.isWord (word.readIn (data.edit offset new)).text = true := by
    have hblurred := congrArg Token.text (Token.blurred_readIn hedit.map_blur_eq hmem)
    rw [← Token.isWord_map_blur] at hword ⊢
    exact (congrArg Token.isWord hblurred).trans hword
  have hstep := OutlineReader.step_word_congr hstage hword hrespelled rfl
  rw [hedit.tokens_eq hsplit hinside, hsplit, Outline.ofTokens, Outline.ofTokens,
    OutlineReader.run_append, OutlineReader.run_append, OutlineReader.run_cons,
    OutlineReader.run_cons, hstep]

/-- Without conditionals a choice leaves out nothing. -/
theorem Layout.Reads.unselected_eq_nil {source working : Bytes} {layout : Layout}
    {blocks : List Piece} (hreads : layout.Reads source working blocks)
    (hplain : layout.isBranching = false) (choice : Int) : layout.unselected choice = [] := by
  have hnone : layout.controls = [] := by simpa [isBranching] using hplain
  rw [List.eq_nil_iff_forall_not_mem]
  intro span hspan
  obtain ⟨opener, hopener, _⟩ := hreads.mem_unselected hspan
  rw [hnone] at hopener
  cases hopener

namespace Survey

variable {settings : Settings} {path : String} {source : Bytes} {survey edited : Survey}
  {offset : Nat} {old new : UInt8}

/-- A byte of a word between the braces of a definition, and another byte for its place that
may stand in a word. -/
structure BodyEdit (survey : Survey) (offset : Nat) (new : UInt8) : Prop where
  word : ∃ word ∈ survey.working.tokens, Token.isWord word.text = true ∧
    word.first ≤ offset ∧ offset ≤ word.last
  body : ∃ attempt ∈ survey.survivors, ∃ found ∈ attempt.outline.definitions,
    found.brace < offset ∧ offset < found.last
  letter : Token.isDelimiter new = false
  changes : survey.source[offset]? ≠ some new

theorem BodyEdit.exists_wordEdit (hedit : survey.BodyEdit offset new) :
    ∃ old, WordEdit survey.working offset old new := by
  obtain ⟨word, hmem, hword, hfirst, hlast⟩ := hedit.word
  obtain ⟨old, hstands, hletter⟩ := Token.exists_letter_of_mem_tokens hmem hword hfirst hlast
  exact ⟨old, hstands, hletter, hedit.letter⟩

/-- The byte stands in the source, outside of all marks. -/
theorem BodyEdit.exists_shown (hsurvey : ofSource settings path source = .ok survey)
    (hedit : survey.BodyEdit offset new) :
    ∃ old, WordEdit source offset old new ∧ new ≠ old ∧
      ∀ mark ∈ survey.marks, mark.has offset = false := by
  obtain ⟨old, hword⟩ := hedit.exists_wordEdit
  obtain ⟨marks, layout, _, rfl, _⟩ := ofSource_eq_ok_iff.mp hsurvey
  obtain ⟨hinner, _⟩ := hword.of_blankMarks
  obtain ⟨hsource, hmarks⟩ := hinner.of_blankMarks
  refine ⟨old, hsource, ?_, hmarks⟩
  rintro rfl
  exact hedit.changes hsource.stands

/-- A file in which a word of a body has been edited is surveyed, with nothing else different. -/
theorem exists_body_edited (hsurvey : ofSource settings path source = .ok survey)
    (hplain : survey.layout.isBranching = false) (hedit : survey.BodyEdit offset new)
    (other : String) :
    ∃ edited, ofSource settings other (source.edit offset new) = .ok edited ∧
      survey.Edited offset new edited := by
  obtain ⟨old, hword⟩ := hedit.exists_wordEdit
  obtain ⟨marks, layout, hprepare, rfl, hsurvives⟩ := ofSource_eq_ok_iff.mp hsurvey
  obtain ⟨pieces, blocks, hparts⟩ := exists_parts hprepare
  obtain ⟨⟨others, lines, hothers⟩, hworking⟩ := hparts.exists_word_edit hword
  have hnone := hparts.reads.unselected_eq_nil hplain
  obtain ⟨token, hmem, htext, hinside⟩ := hedit.word
  obtain ⟨attempt, hattempt, found, hfound, hbody⟩ := hedit.body
  rw [survivors_ofParts] at hattempt
  obtain ⟨choice, _, rfl⟩ := List.mem_map.mp hattempt
  -- every choice reads the whole working copy, so the definition is one under each of them
  refine exists_edited_of_parts hsurvives hothers (fun choice => ?_) other
  simp only [Attempt.read, hnone, Bytes.blank_nil] at hfound ⊢
  rw [hworking]
  exact hword.ofTokens_eq hmem htext hinside hfound hbody

/-- The byte lies in a function. -/
theorem BodyEdit.exists_function (hsurvey : ofSource settings path source = .ok survey)
    (hedit : survey.BodyEdit offset new) :
    ∃ function ∈ survey.functions, function.span.has offset = true := by
  obtain ⟨marks, layout, _, rfl, _⟩ := ofSource_eq_ok_iff.mp hsurvey
  obtain ⟨attempt, hattempt, found, hfound, hbrace, hlast⟩ := hedit.body
  have hpart : found.footprint settings.start ∈ ((ofParts settings path source marks
      layout).survivors.map (·.footprints settings.start)).flatten :=
    List.mem_flatten.mpr ⟨_, List.mem_map_of_mem hattempt, List.mem_map_of_mem hfound⟩
  obtain ⟨function, hfunction, _, hholds⟩ := Footprint.exists_holds_uniteAll hpart
  refine ⟨function, by rwa [functions_ofParts], ?_⟩
  rw [survivors_ofParts] at hattempt
  obtain ⟨choice, _, rfl⟩ := List.mem_map.mp hattempt
  have hstart := (Outline.readFrom_of_mem_definitions hfound).ends.1
  have hfirst : found.first settings.start ≤ found.brace := by
    cases settings.start with
    | declaration => exact Nat.le_of_lt hstart
    | body => exact Nat.le_refl _
  rw [Span.contains_iff] at hholds
  simp only [Definition.footprint] at hholds
  rw [Span.has_iff]
  omega

end Survey

namespace Outcome

/-- Mapping one of two lists is comparing it by other keys. -/
theorem firstDifference_map {α κ : Type} [DecidableEq κ] {keyA keyB : α → κ} (place : α → α)
    (as bs : List α) :
    firstDifference keyA keyB as (bs.map place) =
      (firstDifference keyA (keyB ∘ place) as bs).map fun found =>
        (found.1, found.2.map place) := by
  induction as generalizing bs with
  | nil => cases bs <;> rfl
  | cons a as ih =>
      cases bs with
      | nil => rfl
      | cons b bs =>
          rw [List.map_cons, firstDifference, firstDifference, ih, Function.comp_apply]
          by_cases hkey : keyA a = keyB (place b)
          · rw [if_pos hkey, if_pos hkey]
          · rw [if_neg hkey, if_neg hkey]
            rfl

end Outcome

namespace View

variable {source : Bytes} {marks : List Mark} {offset : Nat} {old new : UInt8}

/-- A numbered byte with the one at an offset replaced. -/
def replaceAt (offset : Nat) (new : UInt8) (element : UInt8 × Nat) : UInt8 × Nat :=
  if element.2 = offset then (new, offset) else element

theorem replaceAt_snd (offset : Nat) (new : UInt8) (element : UInt8 × Nat) :
    (replaceAt offset new element).2 = element.2 := by
  unfold replaceAt
  split
  next hplace => exact hplace.symm
  next => rfl

theorem zipIdx_edit (source : Bytes) (offset : Nat) (new : UInt8) :
    (source.edit offset new).zipIdx = source.zipIdx.map (replaceAt offset new) := by
  apply List.ext_getElem?
  intro index
  simp only [List.getElem?_zipIdx, List.getElem?_map, Option.map_map, Nat.zero_add, Bytes.edit,
    List.getElem?_set]
  by_cases hindex : offset = index
  · subst hindex
    by_cases hlength : offset < source.length <;> simp [replaceAt, hlength]
  · simp only [if_neg hindex]
    congr 1
    funext byte
    simp [replaceAt, Ne.symm hindex]

/-- A byte of a word is looked at. -/
theorem isSignificant_of_letter {byte : UInt8} (hbyte : Token.isDelimiter byte = false) :
    isSignificant byte = true := by
  have hspace : byte ≠ Byte.space := Token.ne_of_letter hbyte (by decide)
  have htab : byte ≠ Byte.tab := Token.ne_of_letter hbyte (by decide)
  have hnewline : byte ≠ Byte.newline := Token.ne_of_letter hbyte (by decide)
  simp [isSignificant, hspace, htab, hnewline]

/-- The bytes that are looked at are the same but for the edited one. -/
theorem significantIn_edit (hedit : WordEdit source offset old new) (marks : List Mark)
    (excluded : List Span) (region : Span) :
    (ofMarks (source.edit offset new) marks excluded).significantIn region =
      ((ofMarks source marks excluded).significantIn region).map (replaceAt offset new) := by
  rw [significantIn_eq_filter, significantIn_eq_filter, significant_ofMarks, significant_ofMarks,
    zipIdx_edit, List.filter_map, List.filter_map, List.filter_filter, List.filter_filter]
  congr 1
  refine List.filter_congr fun element helement => ?_
  have hlooked : isSignificant (replaceAt offset new element).1 = isSignificant element.1 := by
    unfold replaceAt
    split
    next hplace =>
      obtain ⟨byte, index⟩ := element
      obtain rfl : index = offset := hplace
      have hbyte := List.mem_zipIdx_iff_getElem?.mp helement
      obtain rfl : byte = old := Option.some.inj (hbyte.symm.trans hedit.stands)
      rw [isSignificant_of_letter hedit.old_letter, isSignificant_of_letter hedit.new_letter]
    next => rfl
  simp only [Function.comp_apply, replaceAt_snd, hlooked]

/-- The edited byte is looked at in the regions that hold it, unless it is excluded. -/
theorem mem_significantIn_iff (hedit : WordEdit source offset old new)
    (hclear : ∀ mark ∈ marks, mark.has offset = false) (excluded : List Span) (region : Span) :
    (old, offset) ∈ (ofMarks source marks excluded).significantIn region ↔
      region.has offset = true ∧ Span.cover excluded offset = false := by
  have hveils : Span.cover (veils marks) offset = false := by
    rw [Bool.eq_false_iff, ne_eq, Span.cover_iff]
    rintro ⟨_, hspan, hhas⟩
    obtain ⟨mark, hmark, rfl⟩ := List.mem_map.mp hspan
    rw [hclear mark (List.mem_filter.mp hmark).1] at hhas
    cases hhas
  rw [significantIn_eq_filter, List.mem_filter, significant_ofMarks, List.mem_filter,
    List.mem_zipIdx_iff_getElem?, Span.cover_append, hveils, Bool.false_or,
    isSignificant_of_letter hedit.old_letter, Bool.and_true, Bool.not_eq_true']
  simp [hedit.stands, and_comm]

/-- No literal is edited. -/
theorem map_literalKey_edit (hclear : ∀ mark ∈ marks, mark.has offset = false) (new : UInt8)
    (excluded : List Span) (region : Span) :
    ((ofMarks source marks excluded).literalsIn region).map
        (ofMarks source marks excluded).literalKey =
      ((ofMarks (source.edit offset new) marks excluded).literalsIn region).map
        (ofMarks (source.edit offset new) marks excluded).literalKey := by
  rw [literalsIn, literalsIn, literals_edit]
  refine List.map_congr_left fun mark hmark => ?_
  have hmem := (mem_literals_ofMarks.mp (List.mem_filter.mp hmark).1).1
  have houtside : ¬ mark.has offset = true := by simp [hclear mark hmem]
  exact congrArg (Prod.mk mark.kind) (Span.slice_edit_of_not_has houtside new source).symm

end View

/-- Two versions of a text that differ in a byte of a word differ in the regions that hold it,
at that byte. -/
theorem Outcome.ofRegions_word_edit {source : Bytes} {marks : List Mark} {offset : Nat}
    {old new : UInt8} (hedit : WordEdit source offset old new) (hchanges : new ≠ old)
    (hclear : ∀ mark ∈ marks, mark.has offset = false) (excluded : List Span) (region : Span) :
    ofRegions (View.ofMarks source marks excluded) region
        (View.ofMarks (source.edit offset new) marks excluded) region =
      if region.has offset && !Span.cover excluded offset then .differs offset offset
      else .same := by
  let before := View.ofMarks source marks excluded
  let after := View.ofMarks (source.edit offset new) marks excluded
  have hliterals : literalDifference before region after region = none :=
    firstDifference_eq_none_iff.mpr (View.map_literalKey_edit hclear new excluded region)
  have hdiffers : ∀ element ∈ before.significantIn region,
      element.1 ≠ (View.replaceAt offset new element).1 ↔ element = (old, offset) := by
    intro element helement
    obtain ⟨byte, index⟩ := element
    rw [View.significantIn_eq_filter, View.significant_ofMarks] at helement
    have hbyte := List.mem_zipIdx_iff_getElem?.mp
      (List.mem_filter.mp (List.mem_filter.mp helement).1).1
    by_cases hplace : index = offset
    · subst hplace
      obtain rfl : byte = old := Option.some.inj (hbyte.symm.trans hedit.stands)
      simp [View.replaceAt, Ne.symm hchanges]
    · simp [View.replaceAt, hplace]
  -- the other version shows the bytes of this one, so one list is compared with itself by two keys
  have hbytes : byteDifference before region after region =
      (firstDifference Prod.fst (fun element => (View.replaceAt offset new element).1)
        (before.significantIn region) (before.significantIn region)).map fun found =>
          (found.1, found.2.map (View.replaceAt offset new)) := by
    rw [byteDifference, View.significantIn_edit hedit, firstDifference_map]
    rfl
  have hseen := View.mem_significantIn_iff hedit hclear excluded region
  change ofRegions before region after region = _
  rw [ofRegions, hliterals, hbytes, firstDifference_self hdiffers]
  by_cases hinside : (old, offset) ∈ before.significantIn region
  · obtain ⟨hregion, hshown⟩ := hseen.mp hinside
    rw [if_pos hinside, hregion, hshown]
    simp [View.replaceAt, Outcome.offset]
  · have hnot : (region.has offset && !Span.cover excluded offset) = false := by
      rw [Bool.eq_false_iff, ne_eq, Bool.and_eq_true, Bool.not_eq_true']
      exact mt hseen.mpr hinside
    rw [if_neg hinside, hnot]
    rfl

namespace Survey.Edited

variable {settings : Settings} {path : String} {source : Bytes} {survey edited : Survey}
  {offset : Nat} {new : UInt8}

/-- What is found of the functions of both versions. -/
theorem functions_eq (hsurvey : ofSource settings path source = .ok survey)
    (hedited : survey.Edited offset new edited) :
    Finding.functions survey edited = survey.functions.map fun function =>
      Finding.ofOutcome survey edited function.name
        (.ofRegions (View.ofMarks source survey.marks []) function.span
          (View.ofMarks (source.edit offset new) survey.marks []) function.span) := by
  have hnames := congrArg (List.map (·.name)) hedited.functions
  rw [Finding.functions, Finding.newFunctions_eq_nil hnames, List.map_nil, List.append_nil]
  refine List.map_congr_left fun function hfunction => ?_
  have hpaired : edited.function? function.name = some function := by
    rw [Survey.function?, hedited.functions,
      Footprint.find?_name (nodup_functions hsurvey) hfunction]
  rw [Finding.ofFunction_eq_ofOutcome hpaired, ← source_eq hsurvey]
  exact congrArg (Finding.ofOutcome survey edited function.name)
    (hedited.compare_eq [] function.span)

/-- What is found of the rest of both versions. -/
theorem residue_eq (hsurvey : ofSource settings path source = .ok survey)
    (hedited : survey.Edited offset new edited) :
    let excluded := survey.functions.map (·.span)
    Finding.residue survey edited = Finding.ofOutcome survey edited Finding.residueName
      (.ofRegions (View.ofMarks source survey.marks excluded) (Span.whole source)
        (View.ofMarks (source.edit offset new) survey.marks excluded) (Span.whole source)) := by
  have hregion : Span.whole edited.source = Span.whole survey.source := by
    rw [hedited.source, Span.whole, Bytes.length_edit, Span.whole]
  rw [Finding.residue, residueSide, residueSide, hregion, hedited.functions, hedited.compare_eq,
    source_eq hsurvey]

end Survey.Edited

/-- A file without conditionals in which a byte of a word inside of a body gives way to another
has the same functions. Those that hold the byte are reported as changed at it in both files,
and there are some; all others are unchanged, and so is the rest of the file. -/
theorem body_edit_is_reported_in_place {settings : Settings} {path : String} {source : Bytes}
    {survey : Survey} (hsurvey : Survey.ofSource settings path source = .ok survey)
    (hplain : survey.layout.isBranching = false) {offset : Nat} {new : UInt8}
    (hedit : survey.BodyEdit offset new) (other : String) :
    ∃ edited, Survey.ofSource settings other (source.edit offset new) = .ok edited ∧
      edited.functions = survey.functions ∧
      (∃ function ∈ survey.functions, function.span.has offset = true) ∧
      Finding.functions survey edited = survey.functions.map (fun function =>
        if function.span.has offset then
          ⟨function.name, .changed, some (survey.place offset), some (edited.place offset)⟩
        else ⟨function.name, .unchanged, none, none⟩) ∧
      Finding.residue survey edited = ⟨Finding.residueName, .unchanged, none, none⟩ := by
  obtain ⟨edited, hother, hedited⟩ := Survey.exists_body_edited hsurvey hplain hedit other
  obtain ⟨function, hfunction, hhas⟩ := hedit.exists_function hsurvey
  obtain ⟨old, hword, hchanges, hclear⟩ := hedit.exists_shown hsurvey
  have houtcome := Outcome.ofRegions_word_edit hword hchanges hclear
  refine ⟨edited, hother, hedited.functions, ⟨function, hfunction, hhas⟩, ?_, ?_⟩
  · rw [hedited.functions_eq hsurvey]
    refine List.map_congr_left fun function _ => ?_
    rw [houtcome]
    cases function.span.has offset <;> rfl
  · have hexcluded : Span.cover (survey.functions.map (·.span)) offset = true :=
      Span.cover_iff.mpr ⟨_, List.mem_map_of_mem hfunction, hhas⟩
    rw [hedited.residue_eq hsurvey, houtcome, hexcluded, Bool.not_true, Bool.and_false]
    rfl

/-- Three functions, the first of them defined once more behind the second. -/
def Survey.definedTwice : Bytes :=
  Bytes.ofChars ("int f()\x7ba\x7d\nint g()\x7bb\x7d\n".toList ++
    "int f()\x7bc\x7d\nint h()\x7bd\x7d\n".toList)

/-- A word of the second function lies in the first one as well, since that is defined around
it. Both are reported. -/
theorem body_edit_is_reported_in_place_defined_twice :
    ∃ survey edited, Survey.ofSource Settings.default "a.c" Survey.definedTwice = .ok survey ∧
      Survey.ofSource Settings.default "b.c" (Survey.definedTwice.edit 19 'e'.toUInt8) =
        .ok edited ∧
      edited.functions = [⟨"f", ⟨0, 31⟩⟩, ⟨"g", ⟨11, 20⟩⟩, ⟨"h", ⟨33, 42⟩⟩] ∧
      Finding.functions survey edited =
        [⟨"f", .changed, some (survey.place 19), some (edited.place 19)⟩,
          ⟨"g", .changed, some (survey.place 19), some (edited.place 19)⟩,
          ⟨"h", .unchanged, none, none⟩] ∧
      Finding.residue survey edited = ⟨Finding.residueName, .unchanged, none, none⟩ := by
  have hread : (Survey.ofSource Settings.default "a.c" Survey.definedTwice).toOption.map
      (fun survey => (survey.functions, survey.layout.isBranching,
        survey.working.tokens.any (fun word =>
          Token.isWord word.text && word.first ≤ 19 && 19 ≤ word.last),
        survey.survivors.any fun attempt => attempt.outline.definitions.any fun found =>
          found.brace < 19 && 19 < found.last)) =
        some ([⟨"f", ⟨0, 31⟩⟩, ⟨"g", ⟨11, 20⟩⟩, ⟨"h", ⟨33, 42⟩⟩], false, true, true) := by
    unfold Survey.ofSource Survey.prepare Attempt.read
    simp only [Bytes.blankMarks_eq_mask, Bytes.blank_eq_mask]
    decide +kernel
  cases hsurvey : Survey.ofSource Settings.default "a.c" Survey.definedTwice with
  | error => simp [hsurvey, Except.toOption] at hread
  | ok survey =>
      rw [hsurvey] at hread
      simp only [Except.toOption, Option.map_some, Option.some.injEq, Prod.mk.injEq,
        List.any_eq_true, Bool.and_eq_true, decide_eq_true_eq] at hread
      obtain ⟨hfunctions, hplain, ⟨word, hmem, ⟨hword, hfirst⟩, hlast⟩, hbody⟩ := hread
      have hedit : survey.BodyEdit 19 'e'.toUInt8 := by
        refine ⟨⟨word, hmem, hword, hfirst, hlast⟩, hbody, by decide, ?_⟩
        rw [Survey.source_eq hsurvey]
        decide +kernel
      obtain ⟨edited, hedited, hkept, _, hfindings, hresidue⟩ :=
        body_edit_is_reported_in_place hsurvey hplain hedit "b.c"
      rw [hfunctions] at hkept hfindings
      exact ⟨survey, edited, rfl, hedited, hkept, hfindings, hresidue⟩

end CDelta

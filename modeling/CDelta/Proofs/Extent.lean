import CDelta.Proofs.Footprint
import CDelta.Proofs.Outline
import CDelta.Proofs.Survey

/-! # Where functions begin and end

A function found under a choice begins and ends at tokens of the text that the choice leaves,
so both ends are bytes of the source outside of all comments, literals, escapes and
directives. Uniting functions by name keeps that, since a united span begins where one of them
begins and ends where one of them ends. Hence no function cuts any of these marks in two.
-/

namespace CDelta

namespace Token

/-- A token stands where its text begins in the bytes. -/
theorem getElem?_first_of_mem_tokens {data : Bytes} {token : Token} (hmem : token ∈ data.tokens) :
    ∃ byte, data[token.first]? = some byte ∧ token.text.head? = some byte ∧
      isBlank byte = false := by
  obtain ⟨index, byte, hfirst, hbyte, hhead, hblank, _⟩ := mem_scan hmem
  rw [Nat.zero_add] at hfirst
  exact ⟨byte, hfirst ▸ hbyte, hhead, hblank⟩

theorem getElem?_first_of_head? {data : Bytes} {token : Token} {byte : UInt8}
    (hmem : token ∈ data.tokens) (hhead : token.text.head? = some byte) :
    data[token.first]? = some byte := by
  obtain ⟨found, hfound, htext, _⟩ := getElem?_first_of_mem_tokens hmem
  rw [hfound, ← htext, hhead]

end Token

/-- A function read from the tokens of a text begins at a byte that is no blank, in front of its
body, and its body stands in braces. -/
theorem Definition.ReadFrom.ends {data : Bytes} {definition : Definition}
    (hread : definition.ReadFrom data.tokens) :
    definition.start < definition.brace ∧ definition.brace < definition.last ∧
      (∃ byte, data[definition.start]? = some byte ∧ Token.isBlank byte = false) ∧
      data[definition.brace]? = some '{'.toUInt8 ∧
      data[definition.last]? = some '}'.toUInt8 := by
  obtain ⟨head, brace, last, hsublist, hopening, hclosing, hstart, hbrace, hlast⟩ := hread
  have hascending := (Token.ascending_scan 0 _).sublist hsublist
  simp only [List.pairwise_cons, List.mem_cons, List.not_mem_nil, or_false, forall_eq_or_imp,
    forall_eq] at hascending
  obtain ⟨⟨hheadBrace, _⟩, hbraceLast, _⟩ := hascending
  have hheadMem : head ∈ data.tokens := hsublist.mem (by simp)
  have hbraceMem : brace ∈ data.tokens := hsublist.mem (by simp)
  have hlastMem : last ∈ data.tokens := hsublist.mem (by simp)
  obtain ⟨byte, hbyte, _, hblank⟩ := Token.getElem?_first_of_mem_tokens hheadMem
  rw [hstart, hbrace, hlast]
  refine ⟨hheadBrace, hbraceLast, ⟨byte, hbyte, hblank⟩, ?_, ?_⟩
  · exact Token.getElem?_first_of_head? hbraceMem (by rw [hopening]; rfl)
  · exact Token.getElem?_first_of_head? hlastMem (by rw [hclosing]; rfl)

/-- Moving the offsets of a definition moves its footprint. -/
theorem Definition.footprint_relocate {place : Nat → Nat} {move : Int → Int}
    (hplace : ∀ offset : Nat, ((place offset : Nat) : Int) = move offset)
    (definition : Definition) (start : Start) :
    (definition.relocate place).footprint start = (definition.footprint start).relocate move := by
  cases start <;> simp [footprint, first, relocate, Footprint.relocate, Token.relocate, hplace]

namespace Attempt

/-- A function found under a choice begins at a byte that is no blank, the opening brace when
only bodies count, and ends at a closing brace further on. -/
theorem ends_of_mem_footprints {source working : Bytes} {layout : Layout} {choice : Nat}
    {start : Start} {footprint : Footprint}
    (hmem : footprint ∈ (read source working layout choice).footprints start) :
    ∃ (first last : Nat) (byte : UInt8), footprint.span = ⟨first, last⟩ ∧ first < last ∧
      (working.blank (layout.unselected choice))[first]? = some byte ∧
      Token.isBlank byte = false ∧ (start = .body → byte = '{'.toUInt8) ∧
      (working.blank (layout.unselected choice))[last]? = some '}'.toUInt8 := by
  obtain ⟨found, hfound, rfl⟩ := List.mem_map.mp hmem
  obtain ⟨hbody, hordered, ⟨byte, hbyte, hblank⟩, hopens, hcloses⟩ :=
    (Outline.readFrom_of_mem_definitions hfound).ends
  cases start with
  | declaration =>
      exact ⟨found.start, found.last, byte, rfl, hbody.trans hordered, hbyte, hblank,
        nofun, hcloses⟩
  | body =>
      exact ⟨found.brace, found.last, _, rfl, hordered, hopens, by decide, fun _ => rfl, hcloses⟩

end Attempt

namespace Survey

/-- What stands in the scratch copy of a choice stands in the source, outside of all marks and
directives and of what the choice leaves out. -/
theorem shown_of_scratch {source : Bytes} {marks : List Mark} {layout : Layout} {choice : Int}
    {offset : Nat} {byte : UInt8} (hblank : Token.isBlank byte = false)
    (hbyte : (((source.blankMarks marks).blankMarks layout.directives).blank
      (layout.unselected choice))[offset]? = some byte) :
    source[offset]? = some byte ∧
      (∀ mark ∈ marks ++ layout.directives, mark.has offset = false) ∧
      Span.cover (layout.unselected choice) offset = false := by
  have hspace := Token.ne_space_of_isBlank_eq_false hblank
  rw [Bytes.blank_eq_mask, Bytes.blankMarks_eq_mask, Bytes.blankMarks_eq_mask,
    Bytes.getElem?_mask_eq_some_iff hspace, Bytes.getElem?_mask_eq_some_iff hspace,
    Bytes.getElem?_mask_eq_some_iff hspace, Nat.zero_add] at hbyte
  obtain ⟨⟨⟨hsource, hmarks⟩, hdirectives⟩, hunselected⟩ := hbyte
  refine ⟨hsource, fun mark hmark => ?_, hunselected⟩
  have hclear : Span.cover ((marks ++ layout.directives).map (·.toSpan)) offset = false := by
    rw [List.map_append, Span.cover_append, hmarks, hdirectives, Bool.or_false]
  rw [Bool.eq_false_iff, ne_eq, Span.cover_iff] at hclear
  rw [Bool.eq_false_iff]
  exact fun hhas => hclear ⟨_, List.mem_map_of_mem hmark, hhas⟩

end Survey

/-- A span of a source from a byte that is no blank, the opening brace where functions begin
with their bodies, to a closing brace. Neither of the two lies in a mark. -/
structure Span.Delimits (source : Bytes) (marks : List Mark) (start : Start) (span : Span) :
    Prop where
  nonneg : 0 ≤ span.first
  ordered : span.first < span.last
  bounded : span.last < source.length
  begins : ∃ byte, source[span.first.toNat]? = some byte ∧ Token.isBlank byte = false ∧
    (start = .body → byte = '{'.toUInt8)
  ends : source[span.last.toNat]? = some '}'.toUInt8
  clear : ∀ mark ∈ marks, mark.has span.first = false ∧ mark.has span.last = false

/-- A mark that holds neither end of a span lies inside of it or does not meet it. -/
theorem Span.Delimits.contains_or_not_meets {source : Bytes} {marks : List Mark} {start : Start}
    {span : Span} (hspan : span.Delimits source marks start) {mark : Mark}
    (hmem : mark ∈ marks) :
    span.contains mark.toSpan = true ∨ mark.meets span = false := by
  obtain ⟨hfirst, hlast⟩ := hspan.clear mark hmem
  have hordered := hspan.ordered
  rw [Bool.eq_false_iff, ne_eq, Span.has_iff] at hfirst hlast
  rw [Span.contains_iff, Span.meets, Bool.and_eq_false_iff, decide_eq_false_iff_not,
    decide_eq_false_iff_not]
  omega

namespace Survey

theorem nodup_functions {settings : Settings} {path : String} {source : Bytes}
    {survey : Survey} (hsurvey : ofSource settings path source = .ok survey) :
    (survey.functions.map (·.name)).Nodup := by
  obtain ⟨_, _, _, rfl, _⟩ := ofSource_eq_ok_iff.mp hsurvey
  exact Footprint.nodup_uniteAll _

/-- Every function of a survey runs from a byte of the source in sight to a closing brace in
sight. -/
theorem delimits_of_mem_functions {settings : Settings} {path : String} {source : Bytes}
    {survey : Survey} (hsurvey : ofSource settings path source = .ok survey)
    {function : Footprint} (hfunction : function ∈ survey.functions) :
    function.span.Delimits source (survey.marks ++ survey.layout.directives) settings.start := by
  obtain ⟨marks, layout, hprepare, rfl, _⟩ := ofSource_eq_ok_iff.mp hsurvey
  rw [functions_ofParts] at hfunction
  -- the two ends may come from functions of different choices
  obtain ⟨⟨low, hlow, hlowName, hfirst⟩, high, hhigh, _, hlast⟩ :=
    Footprint.spans_of_mem_uniteAll hfunction
  have hlowHeld := Span.contains_iff.mp
    (Footprint.contains_of_mem_uniteAll hfunction hlow hlowName)
  rw [survivors_ofParts, List.map_map] at hlow hhigh
  obtain ⟨lowSet, hlowSet, hlow⟩ := List.mem_flatten.mp hlow
  obtain ⟨lowChoice, _, rfl⟩ := List.mem_map.mp hlowSet
  obtain ⟨highSet, hhighSet, hhigh⟩ := List.mem_flatten.mp hhigh
  obtain ⟨highChoice, _, rfl⟩ := List.mem_map.mp hhighSet
  obtain ⟨first, lowLast, byte, hlowSpan, hordered, hbyte, hblank, hbody, _⟩ :=
    Attempt.ends_of_mem_footprints hlow
  obtain ⟨highFirst, last, _, hhighSpan, _, _, _, _, hbrace⟩ :=
    Attempt.ends_of_mem_footprints hhigh
  obtain ⟨hbegin, hbeginClear, _⟩ := shown_of_scratch hblank hbyte
  obtain ⟨hend, hendClear, _⟩ := shown_of_scratch (by decide) hbrace
  have hspan : function.span = ⟨first, last⟩ := by
    rw [hlowSpan] at hfirst
    rw [hhighSpan] at hlast
    exact congrArg₂ Span.mk hfirst.symm hlast.symm
  rw [hlowSpan, hspan] at hlowHeld
  rw [hspan]
  refine ⟨by simp, ?_, ?_, ⟨byte, hbegin, hblank, hbody⟩, hend, fun mark hmark => ?_⟩
  · simp only at hlowHeld ⊢
    omega
  · have hlength := (List.getElem?_eq_some_iff.mp hend).1
    simp only
    omega
  · exact ⟨hbeginClear mark hmark, hendClear mark hmark⟩

/-- A function with one head in each branch of a conditional, and braces in a literal and in a
comment. -/
def twoHeads : Bytes :=
  Bytes.ofChars ("char *s = \"\x7d\";\n#if A\nint f(int x) \x7b\n#else\nint f(long x) \x7b\n".toList ++
    "#endif\n  return 'b'; /* \x7d */ \x7d\n".toList)

theorem ofSource_twoHeads :
    ∃ survey, ofSource Settings.default "a.c" twoHeads = .ok survey ∧
      survey.functions = [⟨"f", ⟨21, 87⟩⟩] ∧
      survey.marks = [⟨⟨10, 12⟩, .string⟩, ⟨⟨74, 76⟩, .character⟩, ⟨⟨79, 85⟩, .comment⟩] := by
  have hread : (ofSource Settings.default "a.c" twoHeads).toOption.map
      (fun survey => (survey.functions, survey.marks)) =
        some ([⟨"f", ⟨21, 87⟩⟩],
          [⟨⟨10, 12⟩, .string⟩, ⟨⟨74, 76⟩, .character⟩, ⟨⟨79, 85⟩, .comment⟩]) := by
    unfold ofSource prepare Attempt.read
    simp only [Bytes.blankMarks_eq_mask, Bytes.blank_eq_mask]
    decide +kernel
  cases hsurvey : ofSource Settings.default "a.c" twoHeads with
  | error => simp [hsurvey, Except.toOption] at hread
  | ok survey =>
      rw [hsurvey] at hread
      obtain ⟨hfunctions, hmarks⟩ := Prod.mk.inj (Option.some.inj hread)
      exact ⟨survey, rfl, hfunctions, hmarks⟩

end Survey

/-- The functions of a survey have different names. Each begins at a byte of the source that is
no blank and ends at a closing brace, both outside of all comments, literals, escapes and
directives, so that each of these lies inside of the function or does not meet it. -/
theorem functions_cut_no_mark {settings : Settings} {path : String} {source : Bytes}
    {survey : Survey} (hsurvey : Survey.ofSource settings path source = .ok survey) :
    (survey.functions.map (·.name)).Nodup ∧
      ∀ function ∈ survey.functions,
        function.span.Delimits source (survey.marks ++ survey.layout.directives) settings.start ∧
          ∀ mark ∈ survey.marks ++ survey.layout.directives,
            function.span.contains mark.toSpan = true ∨ mark.meets function.span = false := by
  refine ⟨Survey.nodup_functions hsurvey, fun function hfunction => ?_⟩
  have hdelimits := Survey.delimits_of_mem_functions hsurvey hfunction
  exact ⟨hdelimits, fun mark hmark => hdelimits.contains_or_not_meets hmark⟩

/-- The literal in front of a function stays outside of it, and the comment in it inside. -/
theorem functions_cut_no_mark_two_heads :
    ∃ survey, Survey.ofSource Settings.default "a.c" Survey.twoHeads = .ok survey ∧
      survey.functions = [⟨"f", ⟨21, 87⟩⟩] ∧
      (⟨21, 87⟩ : Span).Delimits Survey.twoHeads (survey.marks ++ survey.layout.directives)
        .declaration ∧
      ∀ mark ∈ survey.marks ++ survey.layout.directives,
        (⟨21, 87⟩ : Span).contains mark.toSpan = true ∨ mark.meets ⟨21, 87⟩ = false := by
  obtain ⟨survey, hsurvey, hfunctions, _⟩ := Survey.ofSource_twoHeads
  have hmem : ⟨"f", ⟨21, 87⟩⟩ ∈ survey.functions := by simp [hfunctions]
  obtain ⟨hdelimits, hmarks⟩ := (functions_cut_no_mark hsurvey).2 _ hmem
  exact ⟨survey, hsurvey, hfunctions, hdelimits, hmarks⟩

end CDelta

import CDelta.Proofs.Finding
import CDelta.Proofs.Formatting.Survey
import CDelta.Proofs.Formatting.View

/-! # Formatting is no change

Spaces, tabs and complete comments may be inserted in front of any tokens of a text. The
reformatted text is surveyed under the same choices, has the same functions in the same
order, and compares as unchanged throughout.
-/

namespace CDelta

namespace Survey

/-- Two surveys that a comparison cannot tell apart: they have the same choices and the same
functions, and show the same of each function and of the rest. -/
structure Alike (a b : Survey) : Prop where
  choices : b.survivors.map (·.choice) = a.survivors.map (·.choice)
  names : b.functions.map (·.name) = a.functions.map (·.name)
  functions : ∀ name,
    (b.function? name).map (fun function => b.side.view.fingerprint function.span []) =
      (a.function? name).map fun function => a.side.view.fingerprint function.span []
  residue : b.residueSide.view.fingerprint b.residueSide.region [] =
    a.residueSide.view.fingerprint a.residueSide.region []

namespace Alike

variable {a b c : Survey}

theorem trans (hfirst : a.Alike b) (hsecond : b.Alike c) : a.Alike c where
  choices := hsecond.choices.trans hfirst.choices
  names := hsecond.names.trans hfirst.names
  functions name := (hsecond.functions name).trans (hfirst.functions name)
  residue := hsecond.residue.trans hfirst.residue

theorem ofFunction_eq (halike : a.Alike b) (hnodup : (a.functions.map (·.name)).Nodup)
    {function : Footprint} (hmem : function ∈ a.functions) :
    Finding.ofFunction a.side b.side function = ⟨function.name, .unchanged, none, none⟩ := by
  have hfound : a.function? function.name = some function := Footprint.find?_name hnodup hmem
  have hsame := halike.functions function.name
  rw [hfound, Option.map_some] at hsame
  obtain ⟨other, hother, hfingerprint⟩ := Option.map_eq_some_iff.mp hsame
  exact Finding.ofFunction_eq_unchanged hother (Side.compare_eq_same hfingerprint.symm)

/-- Surveys that are alike are reported as unchanged throughout. -/
theorem findings_eq (halike : a.Alike b) (hnodup : (a.functions.map (·.name)).Nodup) :
    Finding.functions a b =
        a.functions.map (fun function => ⟨function.name, .unchanged, none, none⟩) ∧
      Finding.residue a b = ⟨Finding.residueName, .unchanged, none, none⟩ := by
  constructor
  · rw [Finding.functions, Finding.newFunctions_eq_nil halike.names, List.map_nil, List.append_nil]
    exact List.map_congr_left fun function hmem => halike.ofFunction_eq hnodup hmem
  · rw [Finding.residue, Side.compare_eq_same halike.residue.symm]
    rfl

end Alike

theorem last_nonneg_of_mem_functions {settings : Settings} {path : String} {source : Bytes}
    {marks : List Mark} {layout : Layout} {function : Footprint}
    (hmem : function ∈ (ofParts settings path source marks layout).functions) :
    0 ≤ function.span.last := by
  obtain ⟨_, high, hhigh, _, hlast⟩ := Footprint.spans_of_mem_uniteAll hmem
  obtain ⟨set, hset, hpart⟩ := List.mem_flatten.mp hhigh
  obtain ⟨attempt, _, rfl⟩ := List.mem_map.mp hset
  obtain ⟨definition, _, rfl⟩ := List.mem_map.mp hpart
  rw [← hlast]
  exact Int.natCast_nonneg definition.last

/-- Formatting inserted in front of a token gives a survey that is alike. -/
theorem Parts.alike_insert {rule : CommentRule} {layout widened : Layout}
    {front fillers back others : List Piece}
    (hnew : Parts rule (Piece.bytes (front ++ (fillers ++ back)))
      (Piece.marksFrom 0 (front ++ (fillers ++ back))) widened (front ++ (fillers ++ back)) others)
    (hfillers : ∀ piece ∈ fillers, Piece.Filler rule piece)
    (hwidened : Widened (Piece.bytes front).length (Piece.bytes fillers).length
      (Piece.bytes (front ++ back)) (Piece.marksFrom 0 (front ++ back)) layout
      (Piece.bytes (front ++ (fillers ++ back)))
      (Piece.marksFrom 0 (front ++ (fillers ++ back))) widened)
    (settings : Settings) (path other : String) :
    (ofParts settings path (Piece.bytes (front ++ back)) (Piece.marksFrom 0 (front ++ back))
      layout).Alike (ofParts settings other (Piece.bytes (front ++ (fillers ++ back)))
        (Piece.marksFrom 0 (front ++ (fillers ++ back))) widened) := by
  have hfunctions : (ofParts settings other (Piece.bytes (front ++ (fillers ++ back)))
      (Piece.marksFrom 0 (front ++ (fillers ++ back))) widened).functions =
      (ofParts settings path (Piece.bytes (front ++ back)) (Piece.marksFrom 0 (front ++ back))
        layout).functions.map (·.relocate (Span.moved (Piece.bytes front).length
          (Piece.bytes fillers).length)) := hwidened.functions_eq
  refine ⟨hwidened.choices_eq, ?_, fun name => ?_, ?_⟩
  · rw [hfunctions, List.map_map]
    rfl
  · rw [function?, Footprint.find?, hfunctions, List.find?_map, Option.map_map]
    -- the lookup finds the function that moved, so it is left to compare what is seen of it
    refine congrFun (congrArg Option.map (funext fun function => ?_)) _
    refine View.fingerprint_insert hnew.fit hfillers ⟨fun offset => ?_, ?_, ?_, ?_⟩
    · rw [Span.natCast_moved]
      exact Span.has_relocate_moved _ _ function.span offset
    · exact fun _ => rfl
    · exact fun _ hspan => absurd hspan List.not_mem_nil
    · exact fun _ hspan => absurd hspan List.not_mem_nil
  · have hnonneg : ∀ {path source marks layout} (span : Span),
        span ∈ (ofParts settings path source marks layout).functions.map (·.span) →
          0 ≤ span.last := by
      intro _ _ _ _ span hspan
      obtain ⟨function, hmem, rfl⟩ := List.mem_map.mp hspan
      exact last_nonneg_of_mem_functions hmem
    refine View.fingerprint_insert hnew.fit hfillers
      ⟨fun offset => ?_, fun offset => ?_, hnonneg, hnonneg⟩
    · have hwhole := Span.has_whole_insert (Piece.bytes front) (Piece.bytes fillers)
        (Piece.bytes back) offset
      rwa [← Piece.bytes_append, ← Piece.bytes_append, ← Piece.bytes_append] at hwhole
    · rw [hfunctions, Span.cover, Span.cover, List.map_map, List.any_map, List.any_map,
        Span.natCast_moved]
      congr 1
      funext function
      exact Span.has_relocate_moved _ _ function.span offset

/-- Formatting inserted in front of a token gives a survey that is alike, and every token
keeps its text. -/
theorem exists_alike_insert {settings : Settings} {path : String} {source : Bytes}
    {survey : Survey} (hsurvey : ofSource settings path source = .ok survey) {token : Token}
    (htoken : token ∈ (source.blankMarks survey.marks).tokens) {text : Bytes}
    (htext : settings.comments.Formatting text) (other : String) :
    let target : Bytes := source.take token.first ++ (text ++ source.drop token.first)
    ∃ padded, ofSource settings other target = .ok padded ∧ survey.Alike padded ∧
      (target.blankMarks padded.marks).tokens = (source.blankMarks survey.marks).tokens.map
        (·.relocate (Bytes.moved token.first text.length)) := by
  intro target
  obtain ⟨marks, layout, hprepare, rfl, hsurvivors⟩ := ofSource_eq_ok_iff.mp hsurvey
  obtain ⟨pieces, blocks, hparts⟩ := exists_parts hprepare
  obtain ⟨fillers, rfl, hfillers⟩ := Piece.exists_fillers htext
  obtain ⟨index, byte, hfirst, hbyte, _, hblank, _⟩ := Token.mem_scan htoken
  rw [Nat.zero_add] at hfirst
  -- a token starts at a byte that no mark covers, so the pieces can be parted there
  have hspace := Token.ne_space_of_isBlank_eq_false hblank
  obtain ⟨front, back, rfl, hspot, hhead⟩ :=
    Piece.exists_split_at_shown hparts.fit hspace (hparts.blanked_eq ▸ hbyte)
  rw [← hfirst] at hspot
  have hclear : ∀ known ∈ (source.blankMarks marks).tokens,
      known.last < (Piece.bytes front).length ∨ (Piece.bytes front).length ≤ known.first := by
    rw [hspot]
    exact fun known hknown => Token.clear_of_mem_scan htoken hknown
  obtain ⟨htokens, widened, others, hnew, hwidened⟩ :=
    hparts.exists_widened hfillers hhead hblank hclear
  obtain rfl := hparts.bytes_eq
  obtain rfl := hparts.marks_eq
  have htarget : target = Piece.bytes (front ++ (fillers ++ back)) := by
    simp only [target, Piece.bytes_append, ← hspot, List.take_left, List.drop_left]
  have halike := hnew.alike_insert hfillers hwidened settings path other
  rw [htarget, ← hspot]
  -- the choices are the same, so one of them survives
  refine ⟨_, ofSource_eq_ok_iff.mpr ⟨_, _, hnew.prepare_eq, rfl, fun hnone => ?_⟩, halike, htokens⟩
  have hchoices := halike.choices
  rw [hnone, List.map_nil, eq_comm, List.map_eq_nil_iff] at hchoices
  exact hsurvivors hchoices

end Survey

namespace Bytes

/-- The bytes with a gap in front of each, given by its offset. -/
def pad (gap : Nat → Bytes) : Nat → Bytes → Bytes
  | _, [] => []
  | start, byte :: rest => gap start ++ byte :: pad gap (start + 1) rest

end Bytes

namespace Survey

/-- Formatting inserted in front of any tokens gives a survey that is alike. The gaps are filled
from the last to the first, so the tokens in front of those filled are still in their places. -/
theorem exists_alike_pad {settings : Settings} {path : String} {source : Bytes}
    {survey : Survey} (hsurvey : ofSource settings path source = .ok survey) {gap : Nat → Bytes}
    (hgap : ∀ offset, settings.comments.Formatting (gap offset))
    (hplaced : ∀ offset, gap offset ≠ [] →
      ∃ token ∈ (source.blankMarks survey.marks).tokens, token.first = offset)
    (other : String) {front back : Bytes} (hsource : source = front ++ back) :
    let target : Bytes := front ++ Bytes.pad gap front.length back
    ∃ padded, ofSource settings other target = .ok padded ∧ survey.Alike padded ∧
      ∀ token ∈ (source.blankMarks survey.marks).tokens, token.first < front.length →
        ∃ kept ∈ (target.blankMarks padded.marks).tokens, kept.first = token.first := by
  induction back generalizing front with
  | nil =>
      obtain ⟨marks, layout, hprepare, rfl, hsurvivors⟩ := ofSource_eq_ok_iff.mp hsurvey
      rw [Bytes.pad, ← hsource]
      exact ⟨ofParts settings other source marks layout,
        ofSource_eq_ok_iff.mpr ⟨marks, layout, hprepare, rfl, hsurvivors⟩,
        ⟨rfl, rfl, fun _ => rfl, rfl⟩, fun token htoken _ => ⟨token, htoken, rfl⟩⟩
  | cons byte rest ih =>
      have hsplit : source = (front ++ [byte]) ++ rest := by simp [hsource]
      obtain ⟨padded, hpadded, halike, hkept⟩ := ih hsplit
      rw [List.length_append, List.length_singleton, List.append_assoc,
        List.singleton_append] at hpadded hkept
      rw [Bytes.pad]
      -- behind this byte all gaps are filled, and the token that begins here has not moved
      by_cases hempty : gap front.length = []
      · rw [hempty, List.nil_append]
        exact ⟨padded, hpadded, halike, fun token htoken hlt => hkept token htoken (by omega)⟩
      obtain ⟨token, htoken, hfirst⟩ := hplaced front.length hempty
      obtain ⟨kept, hmem, hplace⟩ := hkept token htoken (by simp [hfirst])
      obtain ⟨final, hfinal, hmore, htokens⟩ :=
        exists_alike_insert hpadded hmem (hgap front.length) other
      rw [hplace, hfirst, List.take_left, List.drop_left] at hfinal htokens
      refine ⟨final, hfinal, halike.trans hmore, fun early hearly hlt => ?_⟩
      obtain ⟨same, hsame, heq⟩ := hkept early hearly (by omega)
      rw [← heq] at hlt ⊢
      rw [htokens]
      exact ⟨_, List.mem_map_of_mem hsame, Bytes.moved_of_lt hlt _⟩

end Survey

/-- Formatting is never a change. Spaces, tabs and complete comments inserted in front of any
tokens keep the names of functions, their order and the surviving choices, and every function
and the rest are reported as unchanged. -/
theorem formatting_is_no_change {settings : Settings} {path : String} {source : Bytes}
    {survey : Survey} (hsurvey : Survey.ofSource settings path source = .ok survey)
    {gap : Nat → Bytes} (hgap : ∀ offset, settings.comments.Formatting (gap offset))
    (hplaced : ∀ offset, gap offset ≠ [] →
      ∃ token ∈ (source.blankMarks survey.marks).tokens, token.first = offset)
    (other : String) :
    ∃ padded, Survey.ofSource settings other (Bytes.pad gap 0 source) = .ok padded ∧
      padded.functions.map (·.name) = survey.functions.map (·.name) ∧
      padded.survivors.map (·.choice) = survey.survivors.map (·.choice) ∧
      Finding.functions survey padded =
        survey.functions.map (fun function => ⟨function.name, .unchanged, none, none⟩) ∧
      Finding.residue survey padded = ⟨Finding.residueName, .unchanged, none, none⟩ ∧
      (FileReport.ofSurveys survey padded).differs = false := by
  obtain ⟨padded, hpadded, halike, _⟩ :=
    Survey.exists_alike_pad hsurvey hgap hplaced other (List.nil_append source).symm
  obtain ⟨marks, layout, _, rfl, _⟩ := Survey.ofSource_eq_ok_iff.mp hsurvey
  obtain ⟨hfunctions, hresidue⟩ := halike.findings_eq (Footprint.nodup_uniteAll _)
  refine ⟨padded, hpadded, halike.names, halike.choices, hfunctions, hresidue, ?_⟩
  simp [FileReport.differs, FileReport.ofSurveys, hfunctions, hresidue]

/-- A function written twice, with formatting in front of a directive and in the second
branch. -/
theorem formatting_is_no_change_two_branches :
    let source := Bytes.ofChars
      "#if A\nint f() \x7b1;\x7d\n#else\nint f() \x7b\"2\";\x7d\n#endif\n".toList
    let target := Bytes.ofChars
      "#if A\nint f() \x7b1;\x7d\n\t/*/**/*/#else\nint f /*;*/() \x7b\"2\";\x7d\n#endif\n".toList
    ∃ survey padded, Survey.ofSource Settings.default "a.c" source = .ok survey ∧
      Survey.ofSource Settings.default "b.c" target = .ok padded ∧
      padded.functions.map (·.name) = ["f"] ∧ padded.survivors.map (·.choice) = [0, 1] ∧
      Finding.functions survey padded = [⟨"f", .unchanged, none, none⟩] ∧
      (FileReport.ofSurveys survey padded).differs = false := by
  intro source target
  let gap : Nat → Bytes := fun offset =>
    if offset = 19 then Byte.tab :: Bytes.ofChars "/*/**/*/".toList
    else if offset = 30 then Byte.space :: Bytes.ofChars "/*;*/".toList
    else []
  let marks : List Mark := [⟨⟨34, 36⟩, .string⟩]
  let directives : List Mark := [⟨⟨0, 5⟩, .control .opens⟩, ⟨⟨19, 24⟩, .control .divides⟩,
    ⟨⟨40, 46⟩, .control .closes⟩]
  let first : Control := ⟨0, .opens, ⟨0, 5⟩⟩
  let second : Control := ⟨1, .divides, ⟨19, 24⟩⟩
  let third : Control := ⟨2, .closes, ⟨40, 46⟩⟩
  let layout : Layout :=
    ⟨directives, .cons (.more first second .nil (.last second third .nil)) .nil⟩
  let survey := Survey.ofParts Settings.default "a.c" source marks layout
  have hchoices : survey.survivors.map (·.choice) = [0, 1] := by
    simp only [survey, Survey.ofParts, Bytes.blankMarks_eq_mask]
    decide +kernel
  have hfunctions : survey.functions = [⟨"f", ⟨6, 38⟩⟩] := by
    simp only [survey, Survey.ofParts, Bytes.blankMarks_eq_mask]
    decide +kernel
  have hdirectives : directives = source.directives (source.blankMarks marks) := by
    rw [Bytes.blankMarks_eq_mask]
    decide +kernel
  have hprepare : Survey.prepare .nested source = .ok (marks, layout) :=
    Survey.prepare_eq_ok_iff.mpr
      ⟨by decide +kernel, Bytes.layout_eq_ok_iff.mpr ⟨hdirectives, rfl⟩⟩
  have hsurvey : Survey.ofSource Settings.default "a.c" source = .ok survey := by
    refine Survey.ofSource_eq_ok_iff.mpr ⟨marks, layout, hprepare, rfl, fun hnone => ?_⟩
    rw [hnone] at hchoices
    cases hchoices
  have hgap : ∀ offset, CommentRule.nested.Formatting (gap offset) := by
    have hfill : ∀ {byte : UInt8} {text : Bytes}, byte = Byte.space ∨ byte = Byte.tab →
        CommentRule.nested.IsComment text → CommentRule.nested.Formatting (byte :: text) := by
      intro byte text hbyte htext
      have hcomment := CommentRule.Formatting.comment htext .nil
      rw [List.append_nil] at hcomment
      exact .blank hbyte hcomment
    intro offset
    simp only [gap]
    split
    next => exact hfill (.inr rfl) (by unfold CommentRule.IsComment; decide +kernel)
    next =>
      split
      next => exact hfill (.inl rfl) (by unfold CommentRule.IsComment; decide +kernel)
      next => exact .nil
  have hplaced : ∀ offset, gap offset ≠ [] →
      ∃ token ∈ (source.blankMarks survey.marks).tokens, token.first = offset := by
    have htokens : ∀ offset ∈ [19, 30],
        ∃ token ∈ (source.blankMarks marks).tokens, token.first = offset := by
      rw [Bytes.blankMarks_eq_mask]
      decide +kernel
    intro offset hoffset
    by_cases hdirective : offset = 19
    · exact htokens offset (by simp [hdirective])
    by_cases hfunction : offset = 30
    · exact htokens offset (by simp [hfunction])
    exact absurd ((if_neg hdirective).trans (if_neg hfunction)) hoffset
  obtain ⟨padded, hpadded, hnames, hkept, hfindings, _, hdiffers⟩ :=
    formatting_is_no_change hsurvey hgap hplaced "b.c"
  have htarget : Bytes.pad gap 0 source = target := by decide +kernel
  rw [htarget] at hpadded
  rw [hfunctions] at hnames hfindings
  exact ⟨survey, padded, hsurvey, hpadded, hnames, hkept.trans hchoices, hfindings, hdiffers⟩

end CDelta

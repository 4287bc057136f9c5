import CDelta.Proofs.Survey

/-! # An edit inside of a literal

A byte inside of a literal that neither ends it nor escapes the next byte gives way to another
such byte. The literal keeps its ends, so the same marks are made; the text with its marks
blanked stays as it was, and the same lines are joined. Hence the layout, the outline under
every choice and the functions of the file stay the same.
-/

namespace CDelta

/-- A byte of a text strictly inside of a literal, and another byte for its place. Neither of
them ends the literal or escapes the byte behind it. -/
structure LiteralEdit (source : Bytes) (literal : Mark) (offset : Nat) (old new : UInt8) :
    Prop where
  isLiteral : literal.kind.isLiteral = true
  first_lt : literal.first < offset
  lt_last : offset < literal.last
  stands : source[offset]? = some old
  ne_backslash : old ≠ Byte.backslash ∧ new ≠ Byte.backslash
  ne_quote : ∀ quote ∈ source[literal.first.toNat]?, old ≠ quote ∧ new ≠ quote
  changes : new ≠ old

theorem LiteralEdit.has_offset {source : Bytes} {literal : Mark} {offset : Nat}
    {old new : UInt8} (hedit : LiteralEdit source literal offset old new) :
    literal.has offset = true :=
  Span.has_iff.mpr ⟨Int.le_of_lt hedit.first_lt, Int.le_of_lt hedit.lt_last⟩

namespace Bytes

/-- The text with another byte at an offset. -/
def edit (offset : Nat) (byte : UInt8) (data : Bytes) : Bytes :=
  data.set offset byte

@[simp]
theorem length_edit (offset : Nat) (byte : UInt8) (data : Bytes) :
    (data.edit offset byte).length = data.length :=
  List.length_set

theorem getElem?_edit_self {data : Bytes} {offset : Nat} {old : UInt8}
    (hold : data[offset]? = some old) (new : UInt8) :
    (data.edit offset new)[offset]? = some new :=
  List.getElem?_set_self (List.getElem?_eq_some_iff.mp hold).1

theorem getElem?_edit_ne {offset index : Nat} (hne : offset ≠ index) (byte : UInt8)
    (data : Bytes) : (data.edit offset byte)[index]? = data[index]? :=
  List.getElem?_set_ne hne

/-- What is hidden may be edited. -/
theorem mask_edit {hidden : Nat → Bool} {offset : Nat} (hhidden : hidden offset = true)
    (byte : UInt8) (data : Bytes) : mask hidden 0 (data.edit offset byte) = mask hidden 0 data := by
  apply List.ext_getElem?
  intro index
  rw [getElem?_mask, getElem?_mask, Nat.zero_add]
  by_cases hindex : offset = index
  · subst hindex
    cases hold : data[offset]? with
    | none => rw [edit, List.set_eq_of_length_le (List.getElem?_eq_none_iff.mp hold), hold]
    | some old => simp [getElem?_edit_self hold, hhidden]
  · rw [getElem?_edit_ne hindex]

/-- What is marked may be edited. -/
theorem blankMarks_edit {marks : List Mark} {mark : Mark} (hmem : mark ∈ marks) {offset : Nat}
    (hhas : mark.has offset = true) (byte : UInt8) (data : Bytes) :
    (data.edit offset byte).blankMarks marks = data.blankMarks marks := by
  rw [blankMarks_eq_mask, blankMarks_eq_mask]
  apply mask_edit
  rw [Span.cover_iff]
  exact ⟨_, List.mem_map_of_mem hmem, hhas⟩

/-- What is in sight is edited in sight. -/
theorem mask_edit_of_shown {hidden : Nat → Bool} {offset : Nat} (hshown : hidden offset = false)
    (byte : UInt8) (data : Bytes) :
    mask hidden 0 (data.edit offset byte) = (mask hidden 0 data).edit offset byte := by
  apply List.ext_getElem?
  intro index
  simp only [edit, getElem?_mask, List.getElem?_set, Nat.zero_add, length_mask]
  by_cases hindex : offset = index
  · subst hindex
    by_cases hlength : offset < data.length <;> simp [hshown, hlength]
  · simp only [if_neg hindex]

theorem blankMarks_edit_of_shown {marks : List Mark} {offset : Nat}
    (hshown : ∀ mark ∈ marks, mark.has offset = false) (byte : UInt8) (data : Bytes) :
    (data.edit offset byte).blankMarks marks = (data.blankMarks marks).edit offset byte := by
  rw [blankMarks_eq_mask, blankMarks_eq_mask]
  apply mask_edit_of_shown
  rw [Bool.eq_false_iff, ne_eq, Span.cover_iff]
  rintro ⟨_, hspan, hhas⟩
  obtain ⟨mark, hmark, rfl⟩ := List.mem_map.mp hspan
  rw [hshown mark hmark] at hhas
  cases hhas

/-- Where a literal ends depends on its backslashes and quotes only. -/
theorem literalRest_set {quote old new : UInt8}
    (hslash : old ≠ Byte.backslash ∧ new ≠ Byte.backslash) (hquote : old ≠ quote ∧ new ≠ quote)
    {rest : Bytes} {index : Nat} (hbyte : rest[index]? = some old) (escaped : Bool) :
    literalRest quote escaped (rest.set index new) = literalRest quote escaped rest := by
  induction rest generalizing index escaped with
  | nil => simp at hbyte
  | cons byte rest ih =>
      cases index with
      | zero =>
          obtain rfl : byte = old := by simpa using hbyte
          simp [literalRest, hslash, hquote]
      | succ index =>
          rw [List.getElem?_cons_succ] at hbyte
          simp only [List.set_cons_succ, literalRest, ih hbyte]

/-- Bytes that are no backslashes do not matter for which lines are joined, except at the end
of a line and right in front of it. -/
theorem joinsNext_edit {data : Bytes} {old new : UInt8} {offset index : Nat}
    (hbyte : data[offset]? = some old) (hslash : old ≠ Byte.backslash ∧ new ≠ Byte.backslash)
    (hhere : offset ≠ index) (hnext : offset + 1 ≠ index) (hindex : index < data.length) :
    (data.edit offset new).joinsNext (index + 1) = data.joinsNext (index + 1) := by
  have hkept : ∀ place : Nat, (data.edit offset new)[place]? = some Byte.backslash ↔
      data[place]? = some Byte.backslash := by
    intro place
    by_cases hplace : offset = place
    · subst hplace
      simp [getElem?_edit_self hbyte, hbyte, hslash]
    · rw [getElem?_edit_ne hplace]
  rw [Bool.eq_iff_iff, joinsNext_iff (by rw [length_edit]; exact hindex),
    joinsNext_iff hindex]
  refine exists_congr fun place => and_congr_right fun hplace => ?_
  rw [getElem?_edit_ne (by omega), hkept place, getElem?_edit_ne (by omega)]
  simp only [hkept]

end Bytes

namespace Span

variable {span : Span} {data : Bytes} {offset : Nat} {old new : UInt8}

theorem slice_edit_of_not_has (houtside : ¬ span.has offset = true) (new : UInt8) (data : Bytes) :
    span.slice (data.edit offset new) = span.slice data := by
  apply List.ext_getElem?
  intro index
  simp only [slice, List.getElem?_take, List.getElem?_drop]
  split
  next hindex =>
    apply Bytes.getElem?_edit_ne
    rw [has_iff] at houtside
    omega
  next => rfl

theorem slice_edit_ne (hinside : span.has offset = true) (hold : data[offset]? = some old)
    (hnew : new ≠ old) : span.slice (data.edit offset new) ≠ span.slice data := by
  intro hslice
  rw [has_iff] at hinside
  have hindex : offset - span.first.toNat < (span.last + 1).toNat - span.first.toNat := by omega
  have hplace : span.first.toNat + (offset - span.first.toNat) = offset := by omega
  have hbyte := congrArg (·[offset - span.first.toNat]?) hslice
  simp only [slice, List.getElem?_take, List.getElem?_drop, if_pos hindex, hplace,
    Bytes.getElem?_edit_self hold, hold, Option.some.injEq] at hbyte
  exact hnew hbyte

end Span

/-- An edit inside of a literal joins and parts no lines: a newline in sight stands outside of
the literal, so neither it nor the byte in front of it is edited. -/
theorem LiteralEdit.joinsNext_eq {source : Bytes} {literal : Mark} {offset : Nat}
    {old new : UInt8} (hedit : LiteralEdit source literal offset old new) {marks : List Mark}
    (hmem : literal ∈ marks) {index : Nat}
    (hnewline : (source.blankMarks marks)[index]? = some Byte.newline) :
    (source.edit offset new).joinsNext (index + 1) = source.joinsNext (index + 1) := by
  rw [Bytes.blankMarks_eq_mask, Bytes.getElem?_mask_eq_some_iff (by decide), Nat.zero_add]
    at hnewline
  obtain ⟨hnewline, hclear⟩ := hnewline
  have houtside : ¬ literal.has index = true := by
    intro hhas
    rw [Bool.eq_false_iff, ne_eq, Span.cover_iff] at hclear
    exact hclear ⟨_, List.mem_map_of_mem hmem, hhas⟩
  have hfirst := hedit.first_lt
  have hlast := hedit.lt_last
  rw [Span.has_iff] at houtside
  exact Bytes.joinsNext_edit hedit.stands hedit.ne_backslash (by omega) (by omega)
    (List.getElem?_eq_some_iff.mp hnewline).1

namespace Piece

variable {rule : CommentRule}

/-- Pieces still fit when one of them gives way to another that does not put a star behind the
piece in front of it. -/
theorem Fit.replace {front back : List Piece} {piece other : Piece}
    (hfit : Fit rule (front ++ piece :: back)) (hcut : Cut rule other (bytes back))
    (hhead : other.text.head? = some Byte.star → piece.text.head? = some Byte.star) :
    Fit rule (front ++ other :: back) := by
  induction front with
  | nil => exact ⟨hcut, hfit.2⟩
  | cons first rest ih =>
      rw [List.cons_append] at hfit ⊢
      obtain ⟨hfirst, hrest⟩ := hfit
      have hnew := hcut.text_ne_nil
      have hold := hrest.of_append.1.text_ne_nil
      refine ⟨hfirst.congr_after (.inr fun hnil => ?_) fun hstar => ?_, ih hrest⟩
      · exact absurd hnil (by simp [hold])
      · -- where a piece is cut depends on no more than the first byte behind it
        cases hbytes : bytes rest with
        | cons byte more => simpa [hbytes] using hstar
        | nil =>
            obtain ⟨byte, more, htext⟩ := List.exists_cons_of_ne_nil hnew
            simp only [bytes_append, bytes_cons, hbytes, List.nil_append, htext,
              List.cons_append, List.head?_cons] at hstar
            have hpiece := hhead (by rw [htext, List.head?_cons, hstar])
            rw [bytes_append, bytes_cons, hbytes, List.nil_append, List.head?_append, hpiece]
            rfl

theorem marksFrom_replace {piece other : Piece} (hkind : other.kind = piece.kind)
    (hlength : other.text.length = piece.text.length) (start : Nat) (front back : List Piece) :
    marksFrom start (front ++ other :: back) = marksFrom start (front ++ piece :: back) := by
  simp only [marksFrom_append, marksFrom, mark, hkind, hlength]

/-- A byte of a piece is a byte of the text of all pieces. -/
theorem bytes_set {text : Bytes} {index : Nat} (hindex : index < text.length)
    (kind : MarkKind) (new : UInt8) (front back : List Piece) :
    bytes (front ++ ⟨kind, text.set index new⟩ :: back) =
      (bytes (front ++ ⟨kind, text⟩ :: back)).edit ((bytes front).length + index) new := by
  rw [Bytes.edit, bytes_append, bytes_append, bytes_cons, bytes_cons,
    List.set_append_right _ _ (by omega), Nat.add_sub_cancel_left, List.set_append_left _ _ hindex]

/-- A literal is still one when a byte in it gives way to another. -/
theorem Cut.set {piece : Piece} {after : Bytes} (hcut : Cut rule piece after)
    (hliteral : piece.kind.isLiteral = true) {quote old new : UInt8} {index : Nat}
    (hhead : piece.text.head? = some quote) (hbyte : piece.text[index + 1]? = some old)
    (hslash : old ≠ Byte.backslash ∧ new ≠ Byte.backslash) (hquote : old ≠ quote ∧ new ≠ quote) :
    Cut rule ⟨piece.kind, piece.text.set (index + 1) new⟩ after := by
  cases hcut with
  | @literal kind first more _ hkind hrest =>
      obtain rfl : first = quote := by simpa using hhead
      rw [List.getElem?_cons_succ] at hbyte
      have hindex := (List.getElem?_eq_some_iff.mp hbyte).1
      refine .literal hkind ?_
      have hbefore : (more ++ after)[index]? = some old := by
        rw [List.getElem?_append_left hindex, hbyte]
      rw [← List.set_append_left _ _ hindex, Bytes.literalRest_set hslash hquote hbefore, hrest,
        List.length_set]
  | comment => cases hliteral
  | escape => cases hliteral
  | plain => cases hliteral

/-- An edit inside of a literal keeps the marks. -/
theorem Fit.exists_edit {pieces : List Piece} (hfit : Fit rule pieces) {literal : Mark}
    (hmem : literal ∈ marksFrom 0 pieces) {offset : Nat} {old new : UInt8}
    (hedit : LiteralEdit (bytes pieces) literal offset old new) :
    ∃ others, Fit rule others ∧ bytes others = (bytes pieces).edit offset new ∧
      marksFrom 0 others = marksFrom 0 pieces := by
  obtain ⟨hliteral, hfirst, hlast, hbyte, hslash, hquotes, _⟩ := hedit
  obtain ⟨quote, hquote, _⟩ := quote_of_mem_marksFrom hfit hmem hliteral
  have hends := hquotes quote hquote
  obtain ⟨front, piece, back, rfl, _, rfl⟩ := mem_marksFrom hmem
  simp only [mark, Nat.zero_add] at hliteral hfirst hlast hquote
  -- the edit is strictly inside of the literal, so its quote in front stays
  obtain ⟨index, rfl⟩ : ∃ index, offset = (bytes front).length + (index + 1) :=
    ⟨offset - (bytes front).length - 1, by omega⟩
  have hindex : index + 1 < piece.text.length := by omega
  have hinside : ∀ place < piece.text.length,
      (bytes (front ++ piece :: back))[(bytes front).length + place]? = piece.text[place]? := by
    intro place hplace
    rw [bytes_append, bytes_cons, List.getElem?_append_right (by omega), Nat.add_sub_cancel_left,
      List.getElem?_append_left hplace]
  have hstarts : piece.text.head? = some quote := by
    rw [List.head?_eq_getElem?, ← hinside 0 (by omega)]
    exact hquote
  let edited : Piece := ⟨piece.kind, piece.text.set (index + 1) new⟩
  have hcut : Cut rule edited (bytes back) :=
    hfit.of_append.1.set hliteral hstarts (hinside _ hindex ▸ hbyte) hslash hends
  have hhead : edited.text.head? = piece.text.head? := by
    rw [List.head?_eq_getElem?, List.head?_eq_getElem?]
    exact List.getElem?_set_ne (by omega)
  have hkind : edited.kind = piece.kind := rfl
  have hlength : edited.text.length = piece.text.length := List.length_set
  exact ⟨front ++ edited :: back, hfit.replace hcut fun hstar => hhead ▸ hstar,
    bytes_set hindex piece.kind new front back, marksFrom_replace hkind hlength 0 front back⟩

end Piece

namespace Survey

/-- The survey of a text in which one byte has been replaced, with nothing else different. -/
structure Edited (survey : Survey) (offset : Nat) (new : UInt8) (edited : Survey) : Prop where
  source : edited.source = survey.source.edit offset new
  marks : edited.marks = survey.marks
  layout : edited.layout = survey.layout
  functions : edited.functions = survey.functions

variable {settings : Settings} {path : String} {source : Bytes} {literal : Mark} {offset : Nat}
  {old new : UInt8}

/-- An edit inside of a literal keeps the marks and the layout. -/
theorem Parts.exists_edit {rule : CommentRule} {marks : List Mark} {layout : Layout}
    {pieces blocks : List Piece} (hparts : Parts rule source marks layout pieces blocks)
    (hmem : literal ∈ marks) (hedit : LiteralEdit source literal offset old new) :
    ∃ others, Parts rule (source.edit offset new) marks layout others blocks := by
  obtain ⟨hfit, rfl, rfl, hreads⟩ := hparts
  obtain ⟨others, hothers, htext, hkept⟩ := hfit.exists_edit hmem hedit
  refine ⟨others, hothers, htext, hkept.symm, ?_⟩
  rw [Bytes.blankMarks_edit hmem hedit.has_offset]
  refine ⟨hreads.fit.congr fun index hnewline => ?_, hreads.bytes, hreads.directives, hreads.tree⟩
  rw [hreads.bytes] at hnewline
  rw [Nat.zero_add]
  exact hedit.joinsNext_eq hmem hnewline

/-- A file in which a byte has been replaced is surveyed, with nothing else different, when its
marks and its layout are the same and each choice leaves a text with the same outline. -/
theorem exists_edited_of_parts {marks : List Mark} {layout : Layout} {pieces blocks : List Piece}
    (hsurvives : (ofParts settings path source marks layout).survivors ≠ [])
    (hparts : Parts settings.comments (source.edit offset new) marks layout pieces blocks)
    (houtlines : ∀ choice : Nat,
      (Attempt.read (source.edit offset new) (((source.edit offset new).blankMarks marks).blankMarks
        layout.directives) layout choice).outline =
      (Attempt.read source ((source.blankMarks marks).blankMarks layout.directives) layout
        choice).outline) (other : String) :
    ∃ edited, ofSource settings other (source.edit offset new) = .ok edited ∧
      (ofParts settings path source marks layout).Edited offset new edited := by
  -- the same choices survive, and the same functions are found under them
  have hsurviving : layout.surviving settings (source.edit offset new)
      (((source.edit offset new).blankMarks marks).blankMarks layout.directives) =
        layout.surviving settings source
          ((source.blankMarks marks).blankMarks layout.directives) := by
    refine List.filter_congr fun choice _ => ?_
    have hflaw := congrArg Outline.flaw (houtlines choice)
    rw [Bool.eq_iff_iff, Attempt.survives_read_iff, Attempt.survives_read_iff]
    exact Eq.congr hflaw rfl
  have hfunctions : (ofParts settings other (source.edit offset new) marks layout).functions =
      (ofParts settings path source marks layout).functions := by
    rw [functions_ofParts, functions_ofParts, survivors_ofParts, survivors_ofParts, hsurviving,
      List.map_map, List.map_map]
    congr 1
    refine List.map_congr_left fun choice _ => ?_
    simp only [Function.comp_apply, Attempt.footprints, houtlines]
  refine ⟨_, ofSource_eq_ok_iff.mpr ⟨marks, layout, hparts.prepare_eq, rfl, ?_⟩, rfl, rfl, rfl,
    hfunctions⟩
  rw [survivors_ofParts] at hsurvives ⊢
  rw [hsurviving]
  exact fun hnone => hsurvives (by simpa using hnone)

/-- A file in which a literal has been edited is surveyed, with nothing else different. -/
theorem exists_edited {survey : Survey} (hsurvey : ofSource settings path source = .ok survey)
    (hmem : literal ∈ survey.marks) (hedit : LiteralEdit source literal offset old new)
    (other : String) :
    ∃ edited, ofSource settings other (source.edit offset new) = .ok edited ∧
      survey.Edited offset new edited := by
  obtain ⟨marks, layout, hprepare, rfl, hsurvives⟩ := ofSource_eq_ok_iff.mp hsurvey
  obtain ⟨pieces, blocks, hparts⟩ := exists_parts hprepare
  obtain ⟨others, hothers⟩ := hparts.exists_edit hmem hedit
  have hblanked : (source.edit offset new).blankMarks marks = source.blankMarks marks :=
    Bytes.blankMarks_edit hmem hedit.has_offset _ _
  refine exists_edited_of_parts hsurvives hothers (fun choice => ?_) other
  rw [hblanked]
  rfl

end Survey

end CDelta

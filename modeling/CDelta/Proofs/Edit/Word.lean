import CDelta.Proofs.Edit.Survey
import CDelta.Proofs.Respelling

/-! # An edit inside of a word

A byte of a word gives way to another one that may stand in a word. It opens no literal,
comment, escape or directive and joins no lines, so the same marks are made and the same
directives found. The tokens stay where they are, and only the word is spelled another way.
-/

namespace CDelta

/-- A byte of a text, and another byte for its place. Neither of them is a delimiter. -/
structure WordEdit (data : Bytes) (offset : Nat) (old new : UInt8) : Prop where
  stands : data[offset]? = some old
  old_letter : Token.isDelimiter old = false
  new_letter : Token.isDelimiter new = false

namespace WordEdit

variable {data : Bytes} {offset : Nat} {old new : UInt8}

/-- Delimiters stay where they are. -/
theorem getElem?_eq_delimiter_iff (hedit : WordEdit data offset old new) {delimiter : UInt8}
    (hdelimiter : Token.isDelimiter delimiter = true) (index : Nat) :
    (data.edit offset new)[index]? = some delimiter ↔ data[index]? = some delimiter := by
  by_cases hindex : offset = index
  · subst hindex
    rw [Bytes.getElem?_edit_self hedit.stands, hedit.stands]
    simp [Token.ne_of_letter hedit.new_letter hdelimiter,
      Token.ne_of_letter hedit.old_letter hdelimiter]
  · rw [Bytes.getElem?_edit_ne hindex]

theorem joinsNext_eq (hedit : WordEdit data offset old new) {stop : Nat}
    (hstop : stop ≤ data.length) :
    (data.edit offset new).joinsNext stop = data.joinsNext stop := by
  rw [Bool.eq_iff_iff, Bytes.joinsNext_iff (by rwa [Bytes.length_edit]),
    Bytes.joinsNext_iff hstop]
  have hnewline : Token.isDelimiter Byte.newline = true := by decide
  have hbackslash : Token.isDelimiter Byte.backslash = true := by decide
  have hreturn : Token.isDelimiter Byte.carriageReturn = true := by decide
  simp only [hedit.getElem?_eq_delimiter_iff hnewline, hedit.getElem?_eq_delimiter_iff hbackslash,
    hedit.getElem?_eq_delimiter_iff hreturn]

/-- The edit is lost when the bytes of words are made alike. -/
theorem map_blur_eq (hedit : WordEdit data offset old new) :
    (data.edit offset new).map Token.blur = data.map Token.blur := by
  apply List.ext_getElem?
  intro index
  rw [List.getElem?_map, List.getElem?_map]
  by_cases hindex : offset = index
  · subst hindex
    rw [Bytes.getElem?_edit_self hedit.stands, hedit.stands, Option.map_some, Option.map_some,
      Token.blur_of_letter hedit.new_letter, Token.blur_of_letter hedit.old_letter]
  · rw [Bytes.getElem?_edit_ne hindex]

/-- A byte of a word that is left when marks are blanked lies in none of them. -/
theorem of_blankMarks {marks : List Mark}
    (hedit : WordEdit (data.blankMarks marks) offset old new) :
    WordEdit data offset old new ∧ ∀ mark ∈ marks, mark.has offset = false := by
  have hstands := hedit.stands
  have hold : old ≠ Byte.space := Token.ne_of_letter hedit.old_letter (by decide)
  rw [Bytes.blankMarks_eq_mask, Bytes.getElem?_mask_eq_some_iff hold, Nat.zero_add] at hstands
  obtain ⟨hstands, hclear⟩ := hstands
  refine ⟨⟨hstands, hedit.old_letter, hedit.new_letter⟩, fun mark hmark => ?_⟩
  rw [Bool.eq_false_iff, ne_eq, Span.cover_iff] at hclear
  rw [Bool.eq_false_iff]
  exact fun hhas => hclear ⟨_, List.mem_map_of_mem hmark, hhas⟩

/-- All tokens but the edited word stay as they are. -/
theorem tokens_eq (hedit : WordEdit data offset old new) {front back : List Token} {word : Token}
    (hsplit : data.tokens = front ++ word :: back)
    (hinside : word.first ≤ offset ∧ offset ≤ word.last) :
    (data.edit offset new).tokens = front ++ word.readIn (data.edit offset new) :: back := by
  have hordered : (front ++ word :: back).Pairwise (·.last < ·.first) :=
    hsplit ▸ Token.pairwise_scan 0 data
  obtain ⟨_, hback, hfront⟩ := List.pairwise_append.mp hordered
  -- the other tokens lie apart from the word, and the text at their places is the same
  have hkept : ∀ token ∈ data.tokens, offset < token.first ∨ token.last < offset →
      token.readIn (data.edit offset new) = token := by
    intro token hmem houtside
    have hclear : ¬ (⟨token.first, token.last⟩ : Span).has offset = true := by
      simp only [Span.has_iff]
      omega
    rw [Token.readIn, Span.slice_edit_of_not_has hclear]
    exact Token.readIn_of_mem_tokens hmem
  have hsame : ∀ tokens : List Token,
      (∀ token ∈ tokens, token.readIn (data.edit offset new) = token) →
        tokens.map (Token.readIn (data.edit offset new)) = tokens := by
    intro tokens htokens
    exact (List.map_congr_left htokens).trans (List.map_id tokens)
  rw [Token.tokens_eq_map_readIn hedit.map_blur_eq, hsplit, List.map_append, List.map_cons]
  congr 1
  · refine hsame front fun token hmem => hkept token (by simp [hsplit, hmem]) (.inr ?_)
    have hlast := hfront token hmem word List.mem_cons_self
    omega
  · congr 1
    refine hsame back fun token hmem => hkept token (by simp [hsplit, hmem]) (.inl ?_)
    have hfirst := (List.pairwise_cons.mp hback).1 token hmem
    omega

end WordEdit

namespace Piece

variable {rule : CommentRule} {offset : Nat} {old new : UInt8}

/-- A byte that may stand in a word opens nothing. -/
theorem cut_letter (rule : CommentRule) {byte : UInt8} (hbyte : Token.isDelimiter byte = false)
    (after : Bytes) : Cut rule ⟨.plain, [byte]⟩ after := by
  have hdouble : byte ≠ Byte.doubleQuote := Token.ne_of_letter hbyte (by decide)
  have hsingle : byte ≠ Byte.singleQuote := Token.ne_of_letter hbyte (by decide)
  have hslash : byte ≠ Byte.slash := Token.ne_of_letter hbyte (by decide)
  have hbackslash : byte ≠ Byte.backslash := Token.ne_of_letter hbyte (by decide)
  exact .plain ⟨by simp [Marking.literalKind?, hdouble, hsingle], fun h => hslash h.1, hbackslash⟩

/-- An edit inside of a word keeps the marks. -/
theorem Fit.exists_word_edit {pieces : List Piece} (hfit : Fit rule pieces)
    (hedit : WordEdit (bytes (pieces.map (hide fun _ => true))) offset old new) :
    ∃ others, Fit rule others ∧ bytes others = (bytes pieces).edit offset new ∧
      marksFrom 0 others = marksFrom 0 pieces := by
  obtain ⟨front, text, back, index, rfl, rfl, hindex⟩ :=
    exists_plain_at_shown (Token.ne_of_letter hedit.old_letter (by decide)) hedit.stands
  obtain ⟨byte, hpiece, _⟩ := hfit.of_append.1.exists_plain rfl
  obtain rfl : text = [byte] := congrArg Piece.text hpiece
  have hlength := (List.getElem?_eq_some_iff.mp hindex).1
  obtain rfl : index = 0 := by simpa using hlength
  have hcut : Cut rule ⟨.plain, [new]⟩ (bytes back) := cut_letter rule hedit.new_letter _
  have hbytes := bytes_set hlength .plain new front back
  refine ⟨front ++ ⟨.plain, [new]⟩ :: back, hfit.replace hcut fun hstar => ?_, hbytes,
    marksFrom_replace (by rfl) (by rfl) 0 front back⟩
  exact absurd (Option.some.inj hstar) (Token.ne_of_letter hedit.new_letter (by decide))

end Piece

/-- An edit inside of a word neither makes nor ends a line. -/
theorem Bytes.IsLine.edit {line after : Bytes} (hline : IsLine line after) {index : Nat}
    {old new : UInt8} (hedit : WordEdit line index old new) :
    IsLine (line.edit index new) after := by
  have hnone : ∀ front : Bytes, Byte.newline ∉ front → Byte.newline ∉ front.edit index new := by
    intro front hfront hmem
    rcases List.mem_or_eq_of_mem_set hmem with hmem | heq
    · exact hfront hmem
    · exact Token.ne_of_letter hedit.new_letter (by decide) heq.symm
  obtain ⟨front, hfront, rfl | ⟨rfl, hne, hafter⟩⟩ := hline
  · have hindex : index < front.length := by
      have hstands := hedit.stands
      have hlength := (List.getElem?_eq_some_iff.mp hstands).1
      rw [List.length_append, List.length_singleton] at hlength
      by_contra hlast
      obtain rfl : index = front.length := by omega
      rw [List.getElem?_concat_length] at hstands
      exact Token.ne_of_letter hedit.old_letter (by decide) (Option.some.inj hstands).symm
    refine ⟨front.edit index new, hnone front hfront, .inl ?_⟩
    exact List.set_append_left index new hindex
  · refine ⟨line.edit index new, hnone line hfront, .inr ⟨rfl, ?_, hafter⟩⟩
    simpa [Bytes.edit] using hne

namespace Directive

variable {source : Bytes}

/-- Blocks still fit when one of them gives way to another that is as long. -/
theorem Blocks.replace {start : Nat} {front back : List Piece} {piece other : Piece}
    (hblocks : Blocks source start (front ++ piece :: back))
    (hother : Block source (start + (Piece.bytes front).length) other (Piece.bytes back))
    (hlength : other.text.length = piece.text.length) :
    Blocks source start (front ++ other :: back) := by
  induction front generalizing start with
  | nil =>
      obtain ⟨_, hback⟩ := hblocks
      exact ⟨by simpa using hother, hlength ▸ hback⟩
  | cons first rest ih =>
      rw [List.cons_append] at hblocks ⊢
      obtain ⟨hfirst, hrest⟩ := hblocks
      have hold := hrest.of_append.1.text_ne_nil
      have hnew := hother.text_ne_nil
      refine ⟨hfirst.congr (fun _ _ => rfl) ?_, ih hrest ?_⟩
      · simp [hold, hnew]
      · rwa [Piece.bytes_cons, List.length_append, ← Nat.add_assoc] at hother

/-- An edit inside of a word keeps the directives. -/
theorem Blocks.exists_word_edit {blocks : List Piece} (hblocks : Blocks source 0 blocks)
    {offset : Nat} {old new : UInt8}
    (hedit : WordEdit (Piece.bytes (blocks.map (Piece.hide fun _ => true))) offset old new) :
    ∃ others, Blocks source 0 others ∧
      Piece.bytes others = (Piece.bytes blocks).edit offset new ∧
      Piece.marksFrom 0 others = Piece.marksFrom 0 blocks := by
  obtain ⟨front, line, back, index, rfl, rfl, hindex⟩ :=
    Piece.exists_plain_at_shown (Token.ne_of_letter hedit.old_letter (by decide)) hedit.stands
  have hword : WordEdit line index old new := ⟨hindex, hedit.old_letter, hedit.new_letter⟩
  have hlength := (List.getElem?_eq_some_iff.mp hindex).1
  have hblock : Block source (0 + (Piece.bytes front).length) ⟨.plain, line.edit index new⟩
      (Piece.bytes back) := by
    cases hblocks.of_append.1 with
    | plain hline hkind =>
        exact .plain (hline.edit hword) (lineKind?_eq_none_congr hword.map_blur_eq hkind)
    | directive _ hkind => exact absurd rfl (lineKind?_ne_plain hkind)
  exact ⟨_, hblocks.replace hblock List.length_set, Piece.bytes_set hlength .plain new front back,
    Piece.marksFrom_replace (by rfl) List.length_set 0 front back⟩

end Directive

namespace Survey

/-- An edit inside of a word that is left in the working copy keeps the marks and the layout. -/
theorem Parts.exists_word_edit {rule : CommentRule} {source : Bytes} {marks : List Mark}
    {layout : Layout} {pieces blocks : List Piece} {offset : Nat} {old new : UInt8}
    (hparts : Parts rule source marks layout pieces blocks)
    (hedit : WordEdit ((source.blankMarks marks).blankMarks layout.directives) offset old new) :
    (∃ others lines, Parts rule (source.edit offset new) marks layout others lines) ∧
      ((source.edit offset new).blankMarks marks).blankMarks layout.directives =
        ((source.blankMarks marks).blankMarks layout.directives).edit offset new := by
  obtain ⟨hinner, hdirectives⟩ := hedit.of_blankMarks
  obtain ⟨houter, hmarks⟩ := hinner.of_blankMarks
  have hblanked : (source.edit offset new).blankMarks marks =
      (source.blankMarks marks).edit offset new :=
    Bytes.blankMarks_edit_of_shown hmarks new source
  have hworking := Bytes.blankMarks_edit_of_shown hdirectives new (source.blankMarks marks)
  refine ⟨?_, by rw [hblanked, hworking]⟩
  have hpieces := hparts.blanked_eq
  obtain ⟨hfit, hbytes, hfound, hreads⟩ := hparts
  rw [hpieces] at hinner
  obtain ⟨others, hothers, htext, hkept⟩ := hfit.exists_word_edit hinner
  -- a line is joined to the next one by what stands around its end, which is not edited
  have halike : Bytes.JoinsAlike source 0 (source.edit offset new) 0 (Piece.bytes blocks) := by
    intro index hnewline
    have hlength := (List.getElem?_eq_some_iff.mp hnewline).1
    rw [hreads.bytes, Bytes.blankMarks_eq_mask, Bytes.length_mask] at hlength
    rw [Nat.zero_add]
    exact houter.joinsNext_eq hlength
  have hshown : (source.blankMarks marks).blankMarks layout.directives =
      Piece.bytes (blocks.map (Piece.hide fun _ => true)) := by
    rw [hreads.directives, ← hreads.bytes, Piece.blankMarks_marksFrom]
  rw [hshown] at hedit
  obtain ⟨lines, hlines, hline, hsame⟩ := (hreads.fit.congr halike).exists_word_edit hedit
  refine ⟨others, lines, hothers, by rw [htext, hbytes], by rw [hkept, hfound], hlines, ?_, ?_,
    hreads.tree⟩
  · rw [hline, hreads.bytes, hblanked]
  · rw [hsame, hreads.directives]

end Survey

end CDelta

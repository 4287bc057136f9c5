import CDelta.Proofs.Insertion.Tokens
import CDelta.Proofs.Lexing

/-! # Formatting

Formatting is made of spaces, tabs and complete comments. Inserted between two pieces of a
text it leaves all of them as they are, and with comments blanked nothing but blanks is
inserted.
-/

namespace CDelta

namespace CommentRule

/-- The text is one comment as a whole. -/
def IsComment (rule : CommentRule) (text : Bytes) : Prop :=
  text.marks rule .everything = .ok [⟨⟨0, (text.length : Int) - 1⟩, .comment⟩]

/-- Spaces, tabs and complete comments, one after another. -/
inductive Formatting (rule : CommentRule) : Bytes → Prop
  | nil : Formatting rule []
  | blank {byte : UInt8} {rest : Bytes} (hbyte : byte = Byte.space ∨ byte = Byte.tab)
      (hrest : Formatting rule rest) : Formatting rule (byte :: rest)
  | comment {text rest : Bytes} (htext : rule.IsComment text)
      (hrest : Formatting rule rest) : Formatting rule (text ++ rest)

end CommentRule

namespace Piece

/-- A space, a tab, or a comment whatever follows it. -/
inductive Filler (rule : CommentRule) : Piece → Prop
  | blank {byte : UInt8} (hbyte : byte = Byte.space ∨ byte = Byte.tab) :
      Filler rule ⟨.plain, [byte]⟩
  | comment {text : Bytes} (hcut : ∀ after, Cut rule ⟨.comment, text⟩ after) :
      Filler rule ⟨.comment, text⟩

variable {rule : CommentRule}

/-- A comment does not depend on what follows it. -/
theorem Cut.comment_congr_after {text after : Bytes} (hcut : Cut rule ⟨.comment, text⟩ after)
    (other : Bytes) : Cut rule ⟨.comment, text⟩ other := by
  cases hcut with
  | literal hkind => exact absurd (Cut.literalKind?_isLiteral hkind) (by decide)
  | comment hlength => exact .comment (CommentRule.length?_congr_after hlength 0 other)

theorem filler_of_isComment {text : Bytes} (htext : rule.IsComment text) :
    Filler rule ⟨.comment, text⟩ := by
  obtain ⟨pieces, hfit, rfl, hmarks⟩ := marks_eq_ok_iff.mp htext
  rw [filter_everything hfit] at hmarks
  obtain ⟨front, piece, back, rfl, _, hmark⟩ :=
    mem_marksFrom (hmarks ▸ List.mem_singleton_self _)
  obtain ⟨hspan, hkind⟩ := Mark.mk.inj hmark
  obtain ⟨hfirst, hlast⟩ := Span.mk.inj hspan
  -- the mark reaches from end to end, so no other piece has any bytes
  simp only [bytes_append, bytes_cons, List.length_append] at hlast
  have hfront : bytes front = [] := List.eq_nil_of_length_eq_zero (by omega)
  have hback : bytes back = [] := List.eq_nil_of_length_eq_zero (by omega)
  obtain ⟨kind, text⟩ := piece
  obtain rfl : .comment = kind := hkind
  have hcut := hfit.of_append.1
  simp only [bytes_append, bytes_cons, hfront, hback, List.nil_append, List.append_nil]
  exact .comment hcut.comment_congr_after

/-- Formatting is cut into fillers. -/
theorem exists_fillers {text : Bytes} (htext : rule.Formatting text) :
    ∃ fillers, bytes fillers = text ∧ ∀ piece ∈ fillers, Filler rule piece := by
  induction htext with
  | nil => exact ⟨[], rfl, by simp⟩
  | @blank byte rest hbyte _ ih =>
      obtain ⟨fillers, rfl, hfillers⟩ := ih
      refine ⟨⟨.plain, [byte]⟩ :: fillers, rfl, fun piece hpiece => ?_⟩
      rcases List.mem_cons.mp hpiece with rfl | hpiece
      · exact .blank hbyte
      · exact hfillers piece hpiece
  | @comment text rest htext _ ih =>
      obtain ⟨fillers, rfl, hfillers⟩ := ih
      refine ⟨⟨.comment, text⟩ :: fillers, rfl, fun piece hpiece => ?_⟩
      rcases List.mem_cons.mp hpiece with rfl | hpiece
      · exact filler_of_isComment htext
      · exact hfillers piece hpiece

namespace Filler

variable {piece : Piece}

theorem cut (hfiller : Filler rule piece) (after : Bytes) : Cut rule piece after := by
  cases hfiller with
  | blank hbyte =>
      rcases hbyte with rfl | rfl
      · exact .plain ⟨by decide, fun h => absurd h.1 (by decide), by decide⟩
      · exact .plain ⟨by decide, fun h => absurd h.1 (by decide), by decide⟩
  | comment hcut => exact hcut after

theorem not_literal (hfiller : Filler rule piece) : piece.kind.isLiteral = false := by
  cases hfiller <;> rfl

/-- No filler begins with a star. -/
theorem head?_ne_star (hfiller : Filler rule piece) (after : Bytes) :
    (piece.text ++ after).head? ≠ some Byte.star := by
  cases hfiller with
  | blank hbyte =>
      rcases hbyte with rfl | rfl
      · exact (by decide : some Byte.space ≠ some Byte.star)
      · exact (by decide : some Byte.tab ≠ some Byte.star)
  | comment hcut =>
      cases hcut [] with
      | literal hkind => exact absurd (Cut.literalKind?_isLiteral hkind) (by decide)
      | comment => exact (by decide : some Byte.slash ≠ some Byte.star)

/-- With comments blanked a filler is blank and ends no line. -/
theorem blank_hide (hfiller : Filler rule piece) :
    Token.Blank (piece.hide fun _ => true).text ∧
      Byte.newline ∉ (piece.hide fun _ => true).text := by
  cases hfiller with
  | @blank byte hbyte =>
      have htext : ((⟨.plain, [byte]⟩ : Piece).hide fun _ => true).text = [byte] := rfl
      have hblank : Token.isBlank byte = true ∧ Byte.newline ≠ byte := by
        rcases hbyte with rfl | rfl <;> decide
      rw [htext]
      refine ⟨fun other hother => ?_, fun hmem => ?_⟩
      · rw [List.mem_singleton.mp hother]
        exact hblank.1
      · exact hblank.2 (List.mem_singleton.mp hmem)
  | @comment text _ =>
      refine ⟨Token.blank_replicate text.length, fun hmem => ?_⟩
      exact absurd (List.eq_of_mem_replicate hmem) (by decide)

end Filler

variable {front fillers back : List Piece}

theorem blank_hide_fillers (hfillers : ∀ piece ∈ fillers, Filler rule piece) :
    Token.Blank (bytes (fillers.map (hide fun _ => true))) ∧
      Byte.newline ∉ bytes (fillers.map (hide fun _ => true)) := by
  have hpiece : ∀ byte ∈ bytes (fillers.map (hide fun _ => true)),
      ∃ piece ∈ fillers, byte ∈ (piece.hide fun _ => true).text := by
    intro byte hbyte
    obtain ⟨hidden, hhidden, hmem⟩ := List.mem_flatMap.mp hbyte
    obtain ⟨piece, hpiece, rfl⟩ := List.mem_map.mp hhidden
    exact ⟨piece, hpiece, hmem⟩
  constructor
  · intro byte hbyte
    obtain ⟨piece, hmem, hbyte⟩ := hpiece byte hbyte
    exact (hfillers piece hmem).blank_hide.1 byte hbyte
  · intro hbyte
    obtain ⟨piece, hmem, hbyte⟩ := hpiece _ hbyte
    exact (hfillers piece hmem).blank_hide.2 hbyte

/-- Pieces still fit with fillers between them. -/
theorem fit_insert (hfit : Fit rule (front ++ back)) (hback : bytes back ≠ [])
    (hfillers : ∀ piece ∈ fillers, Filler rule piece) :
    Fit rule (front ++ (fillers ++ back)) := by
  induction front with
  | nil =>
      induction fillers with
      | nil => exact hfit
      | cons piece rest ih =>
          refine ⟨(hfillers piece List.mem_cons_self).cut _, ih fun other hother => ?_⟩
          exact hfillers other (List.mem_cons_of_mem _ hother)
  | cons piece rest ih =>
      rw [List.cons_append] at hfit ⊢
      obtain ⟨hcut, hrest⟩ := hfit
      refine ⟨hcut.congr_after (.inr fun hnil => ?_) fun hstar => ?_, ih hrest⟩
      · rw [bytes_append, List.append_eq_nil_iff] at hnil
        exact absurd hnil.2 hback
      · -- only a filler could have come to stand in front
        cases hhead : bytes rest with
        | cons byte more =>
            rw [bytes_append, hhead] at hstar
            rwa [bytes_append, hhead]
        | nil =>
            rw [bytes_append, hhead, List.nil_append] at hstar
            rw [bytes_append, hhead, List.nil_append]
            cases fillers with
            | nil => exact hstar
            | cons filler more =>
                exact absurd hstar ((hfillers filler List.mem_cons_self).head?_ne_star _)

/-- A byte that is left when all marks are blanked is a piece of its own. -/
theorem exists_split_at_shown {pieces : List Piece} (hfit : Fit rule pieces) {offset : Nat}
    {byte : UInt8} (hspace : byte ≠ Byte.space)
    (hbyte : (bytes (pieces.map (hide fun _ => true)))[offset]? = some byte) :
    ∃ front back, pieces = front ++ back ∧ (bytes front).length = offset ∧
      (bytes back).head? = some byte := by
  obtain ⟨front, text, back, index, rfl, rfl, hindex⟩ := exists_plain_at_shown hspace hbyte
  obtain ⟨other, hpiece, _⟩ := hfit.of_append.1.exists_plain rfl
  obtain rfl : text = [other] := congrArg Piece.text hpiece
  obtain rfl : index = 0 := by simpa using (List.getElem?_eq_some_iff.mp hindex).1
  exact ⟨front, _, rfl, rfl, hindex⟩

theorem marksFrom_shift (start distance : Nat) (pieces : List Piece) :
    marksFrom (start + distance) pieces =
      (marksFrom start pieces).map (·.map (·.relocate (· + distance))) := by
  induction pieces generalizing start with
  | nil => rfl
  | cons piece rest ih =>
      have hmark : piece.mark (start + distance) =
          (piece.mark start).map (·.relocate (· + distance)) := by
        simp only [mark, Mark.map, Span.relocate, Mark.mk.injEq, Span.mk.injEq, and_true]
        omega
      by_cases hkind : piece.kind = .plain
      · rw [marksFrom_plain hkind, marksFrom_plain hkind, Nat.add_right_comm, ih]
      · rw [marksFrom_marked hkind, marksFrom_marked hkind, Nat.add_right_comm, ih, hmark,
          List.map_cons]

/-- The marks of a text with pieces inserted: those in front stay, those behind move. -/
theorem marksFrom_insert (hfull : ∀ piece ∈ front ++ (fillers ++ back), piece.text ≠ []) :
    let move : Mark → Mark :=
      (·.map (·.relocate (Span.moved (bytes front).length (bytes fillers).length)))
    marksFrom 0 (front ++ (fillers ++ back)) =
      (marksFrom 0 front).map move ++ (marksFrom (bytes front).length fillers ++
        (marksFrom (bytes front).length back).map move) := by
  intro move
  rw [marksFrom_append, marksFrom_append, Nat.zero_add, marksFrom_shift]
  congr 1
  · refine (List.map_id _).symm.trans (List.map_congr_left fun mark hmark => ?_)
    have hbounds :=
      bounds_of_mem_marksFrom (fun piece hpiece => hfull piece (by simp [hpiece])) hmark
    simp only [move, Mark.map, Span.relocate]
    rw [Span.moved_of_lt (by omega), Span.moved_of_lt (by omega)]
    rfl
  · congr 1
    refine List.map_congr_left fun mark hmark => ?_
    have hbounds :=
      bounds_of_mem_marksFrom (fun piece hpiece => hfull piece (by simp [hpiece])) hmark
    simp only [move, Mark.map, Span.relocate]
    rw [Span.moved_of_le (by omega), Span.moved_of_le (by omega)]

/-- At the bytes that were there before the same marks are found. -/
theorem covers_insert (hfull : ∀ piece ∈ front ++ (fillers ++ back), piece.text ≠ [])
    (wanted : MarkKind → Bool) (offset : Nat) :
    covers wanted 0 (front ++ (fillers ++ back))
        (Bytes.moved (bytes front).length (bytes fillers).length offset) =
      covers wanted 0 (front ++ back) offset := by
  rw [Bool.eq_iff_iff, covers_iff, covers_iff, marksFrom_insert hfull, marksFrom_append,
    Nat.zero_add, Span.natCast_moved]
  simp only [List.mem_append, List.mem_map]
  constructor
  · rintro ⟨_, ⟨mark, hmem, rfl⟩ | hmem | ⟨mark, hmem, rfl⟩, hwanted, hhas⟩
    · exact ⟨mark, .inl hmem, hwanted, (Span.has_relocate_moved ..).symm.trans hhas⟩
    · -- nothing that was there before lies among the inserted pieces
      have hbounds :=
        bounds_of_mem_marksFrom (fun piece hpiece => hfull piece (by simp [hpiece])) hmem
      rw [Span.has_iff, Span.moved] at hhas
      split at hhas <;> omega
    · exact ⟨mark, .inr hmem, hwanted, (Span.has_relocate_moved ..).symm.trans hhas⟩
  · rintro ⟨mark, hmem | hmem, hwanted, hhas⟩
    · exact ⟨_, .inl ⟨mark, hmem, rfl⟩, hwanted, (Span.has_relocate_moved ..).trans hhas⟩
    · exact ⟨_, .inr (.inr ⟨mark, hmem, rfl⟩), hwanted, (Span.has_relocate_moved ..).trans hhas⟩

end Piece

end CDelta

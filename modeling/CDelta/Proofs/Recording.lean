import CDelta.Proofs.Lexing

/-! # Recording some of the marks

The pass goes over a text in the same way whichever marks are wanted, so that leaving marks out
while it goes is the same as filtering them behind it. Blanking what was recorded keeps the pass
in step as well: each piece that is not blanked is cut off as before, and the blanks in between
open nothing. A second pass over the blanked text therefore finds the marks that the first one
did not record, and no others.
-/

namespace CDelta

namespace Marking

/-- A mark in front of what the rest of the pass made, if such marks are asked for. -/
def consIf (asked : Bool) (mark : Mark) (rest : Marking) : Marking :=
  if asked then cons mark rest else rest

/-- The pass over `rest`, whose bytes begin at the offset `start`, with each kind of mark made
only on demand. -/
def scanFor (recorded : Recorded) (rule : CommentRule) (start : Nat) : Bytes → Marking
  | [] => done
  | byte :: tail =>
    match literalKind? byte with
    | some kind =>
      let more := Bytes.literalRest byte false tail
      consIf recorded.literals ⟨⟨start, start + more⟩, kind⟩
        (scanFor recorded rule (start + 1 + more) (tail.drop more))
    | none =>
      if byte = Byte.slash then
        if tail.head? = some Byte.star then
          match rule.length? start (byte :: tail) with
          | none => stopped start
          | some size =>
            consIf recorded.comments ⟨⟨start, start + size - 1⟩, .comment⟩
              (scanFor recorded rule (start + size) (tail.drop (size - 1)))
        else
          scanFor recorded rule (start + 1) tail
      else if byte = Byte.backslash then
        let more := min 1 tail.length
        consIf recorded.escapes ⟨⟨start, start + more⟩, .escape⟩
          (scanFor recorded rule (start + 2) (tail.drop 1))
      else
        scanFor recorded rule (start + 1) tail
termination_by rest => rest.length
decreasing_by all_goals simp only [List.length_cons, List.length_drop]; omega

/-- The pass with only the wanted marks left. -/
def keep (recorded : Recorded) (marking : Marking) : Marking :=
  { marking with marks := marking.marks.filter (recorded.wants ·.kind) }

theorem keep_cons (recorded : Recorded) (mark : Mark) (rest : Marking) :
    keep recorded (cons mark rest) = consIf (recorded.wants mark.kind) mark (keep recorded rest) := by
  by_cases hwants : recorded.wants mark.kind = true <;> simp [keep, cons, consIf, hwants]

theorem wants_of_literalKind? {byte : UInt8} {kind : MarkKind}
    (hkind : literalKind? byte = some kind) (recorded : Recorded) :
    recorded.wants kind = recorded.literals := by
  have hliteral := Piece.Cut.literalKind?_isLiteral hkind
  cases kind <;> simp_all [MarkKind.isLiteral, Recorded.wants]

/-- Making only the wanted marks is keeping only the wanted ones of all. -/
theorem scanFor_eq_keep (recorded : Recorded) (rule : CommentRule) (start : Nat) (data : Bytes) :
    scanFor recorded rule start data = keep recorded (scan rule start data) := by
  fun_induction scan rule start data with
  | case1 start =>
      rw [scanFor]
      rfl
  | case2 start byte tail kind hkind more ih =>
      rw [scanFor, keep_cons, wants_of_literalKind? hkind, ← ih]
      simp only [hkind, more]
  | case3 start tail hstar hkind hlength =>
      rw [scanFor]
      simp only [hkind, if_true, hstar, hlength]
      rfl
  | case4 start tail hstar size hkind hlength ih =>
      rw [scanFor, keep_cons, ← ih]
      simp only [hkind, if_true, hstar, hlength]
      rfl
  | case5 start tail hstar hkind ih =>
      rw [scanFor, ← ih]
      simp only [hkind, if_true, hstar, if_false]
  | case6 start tail hkind hslash more ih =>
      rw [scanFor, keep_cons, ← ih]
      simp only [hkind, hslash, if_true]
      rfl
  | case7 start byte tail hkind hslash hbackslash ih =>
      rw [scanFor, ← ih]
      simp only [hkind, hslash, hbackslash, if_false]

end Marking

namespace Piece

variable {rule : CommentRule} {pieces : List Piece}

/-- With the wanted marks blanked, a text is cut into pieces that have the other marks. -/
theorem exists_fit_blankMarks (hfit : Fit rule pieces) (wanted : MarkKind → Bool) :
    ∃ others, Fit rule others ∧
      bytes others = (bytes pieces).blankMarks ((marksFrom 0 pieces).filter (wanted ·.kind)) ∧
      marksFrom 0 others = (marksFrom 0 pieces).filter (!wanted ·.kind) := by
  have haligned := aligned_covers wanted 0 pieces
  refine ⟨collapse (covers wanted 0 pieces) 0 pieces, fit_collapse hfit haligned, ?_, ?_⟩
  · rw [bytes_collapse haligned, Bytes.blankMarks_eq_mask]
    rfl
  · rw [marksFrom_collapse]
    apply List.filter_congr
    intro mark hmark
    rw [covers_first_of_mem hfit.text_ne_nil hmark]

end Piece

namespace Bytes

/-- The marks of a text, each kind of them made only on demand. -/
def marksFor (data : Bytes) (rule : CommentRule) (recorded : Recorded) :
    Except Fault (List Mark) :=
  let marking := Marking.scanFor recorded rule 0 data
  match marking.openComment with
  | some offset => .error (.openComment (data.lineAt offset))
  | none => .ok marking.marks

theorem marksFor_eq_marks (data : Bytes) (rule : CommentRule) (recorded : Recorded) :
    data.marksFor rule recorded = data.marks rule recorded := by
  rw [marksFor, Marking.scanFor_eq_keep]
  rfl

/-- Whether the pass fails, and where, does not depend on the marks that are wanted. -/
theorem marks_eq_filter (data : Bytes) (rule : CommentRule) (recorded : Recorded) :
    data.marks rule recorded =
      (data.marks rule .everything).map fun marks => marks.filter (recorded.wants ·.kind) := by
  cases hopen : (data.marking rule).openComment with
  | some offset =>
      simp only [marks, hopen]
      rfl
  | none =>
      obtain ⟨pieces, hfit, rfl⟩ := Piece.exists_fit hopen
      have hmarking : (Piece.bytes pieces).marking rule = ⟨Piece.marksFrom 0 pieces, none⟩ :=
        Piece.scan_bytes hfit 0
      simp only [marks, hmarking, Piece.filter_everything hfit 0]
      rfl

/-- Behind the blanking of what was recorded, a pass finds the rest of what it found before. -/
theorem exists_marks_blankMarks {data : Bytes} {rule : CommentRule} {recorded : Recorded}
    {marks : List Mark} (hmarks : data.marks rule recorded = .ok marks) (second : Recorded) :
    ∃ found, data.marks rule second = .ok found ∧
      (data.blankMarks marks).marks rule second =
        .ok (found.filter fun mark => !recorded.wants mark.kind) := by
  obtain ⟨pieces, hfit, rfl, rfl⟩ := Piece.marks_eq_ok_iff.mp hmarks
  obtain ⟨others, hothers, hbytes, hleft⟩ := Piece.exists_fit_blankMarks hfit recorded.wants
  refine ⟨_, Piece.marks_eq_ok_iff.mpr ⟨pieces, hfit, rfl, rfl⟩, ?_⟩
  refine Piece.marks_eq_ok_iff.mpr ⟨others, hothers, hbytes, ?_⟩
  rw [hleft, List.filter_filter, List.filter_filter]
  apply List.filter_congr
  intro mark _
  exact Bool.and_comm _ _

end Bytes

/-- Which marks are recorded changes nothing but which are given: the pass that makes them on
demand filters all marks of the text, and fails exactly when the pass that makes all of them
does. The marks lie in the text one behind the other. Once they are blanked, a pass that records
whatever else finds what it found before, less the kinds that were recorded; so a second pass of
the same kind finds nothing. -/
theorem recording_only_filters (data : Bytes) (rule : CommentRule) (recorded : Recorded) :
    data.marks rule recorded = data.marksFor rule recorded ∧
    data.marks rule recorded =
      ((data.marks rule .everything).map fun marks => marks.filter (recorded.wants ·.kind)) ∧
    ∀ marks, data.marks rule recorded = .ok marks →
      data.Separates marks ∧
      (∀ second, ∃ found, data.marks rule second = .ok found ∧
        (data.blankMarks marks).marks rule second =
          .ok (found.filter fun mark => !recorded.wants mark.kind)) ∧
      (data.blankMarks marks).marks rule recorded = .ok [] := by
  refine ⟨(data.marksFor_eq_marks rule recorded).symm, data.marks_eq_filter rule recorded,
    fun marks hmarks => ?_⟩
  have hsecond := Bytes.exists_marks_blankMarks hmarks
  refine ⟨Piece.separates_of_marks hmarks, hsecond, ?_⟩
  obtain ⟨found, hfound, hleft⟩ := hsecond recorded
  rw [hleft]
  obtain ⟨pieces, _, _, rfl⟩ := Piece.marks_eq_ok_iff.mp hfound
  simp

/-- A comment bracket in a literal, a quote in a comment and one behind a backslash: with the
literals blanked, the comment and the escape are found where they were. -/
theorem recording_only_filters_literals :
    let data := Bytes.ofChars "a\"/*\"/*'*/\\\"'b'".toList
    let literals : Recorded := ⟨true, false, false⟩
    let marks : List Mark := [⟨⟨1, 4⟩, .string⟩, ⟨⟨12, 14⟩, .character⟩]
    data.marks .nested literals = .ok marks ∧
      data.marks .nested .everything =
        .ok [⟨⟨1, 4⟩, .string⟩, ⟨⟨5, 9⟩, .comment⟩, ⟨⟨10, 11⟩, .escape⟩,
          ⟨⟨12, 14⟩, .character⟩] ∧
      (data.blankMarks marks).marks .nested .everything =
        .ok [⟨⟨5, 9⟩, .comment⟩, ⟨⟨10, 11⟩, .escape⟩] := by
  intro data literals marks
  have hmarks : data.marks .nested literals = .ok marks := by decide +kernel
  have hall : data.marks .nested .everything =
      .ok [⟨⟨1, 4⟩, .string⟩, ⟨⟨5, 9⟩, .comment⟩, ⟨⟨10, 11⟩, .escape⟩,
        ⟨⟨12, 14⟩, .character⟩] := by decide +kernel
  obtain ⟨_, hsecond, _⟩ := (recording_only_filters data .nested literals).2.2 marks hmarks
  obtain ⟨found, hfound, hleft⟩ := hsecond .everything
  rw [hall] at hfound
  cases hfound
  exact ⟨hmarks, hall, hleft⟩

end CDelta

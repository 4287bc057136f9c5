import CDelta.Proofs.Comment
import CDelta.Proofs.Piece

/-! # The pass over a text as a cut into pieces

The pass that marks comments, literals and escapes takes one piece at a time off the front of
the text. The pieces determine the marks, and pieces that fit each other are what the pass
finds in the text they make. Whether a piece fits depends on what follows only for a slash,
which must not be followed by a star, and for literals and escapes that the end of the text
cuts off.
-/

namespace CDelta

namespace Bytes

/-- Where a literal ends does not depend on what follows, unless the text ends first. -/
theorem literalRest_congr_after {quote : UInt8} {escaped : Bool} {front back other : Bytes}
    (hrest : literalRest quote escaped (front ++ back) = front.length)
    (hend : back = [] → other = []) :
    literalRest quote escaped (front ++ other) = front.length := by
  induction front generalizing escaped with
  | nil =>
      cases back with
      | nil => simp [hend rfl, literalRest]
      | cons byte back =>
          simp only [List.nil_append, literalRest, List.length_nil] at hrest
          split at hrest <;> omega
  | cons byte front ih =>
      simp only [List.cons_append, literalRest, List.length_cons] at hrest ⊢
      split
      next hquote =>
        rw [if_pos hquote] at hrest
        exact hrest
      next hquote =>
        rw [if_neg hquote] at hrest
        rw [ih (by omega)]
        omega

end Bytes

namespace Marking

variable {rule : CommentRule} {start : Nat} {rest : Bytes}

theorem scan_opening_of_none
    (hlength : rule.length? start (Byte.slash :: Byte.star :: rest) = none) :
    scan rule start (Byte.slash :: Byte.star :: rest) = stopped start := by
  have hnone : literalKind? Byte.slash = none := by decide
  rw [scan]
  simp only [hnone, if_true, List.head?_cons, hlength]

theorem scan_opening_of_some {size : Nat}
    (hlength : rule.length? start (Byte.slash :: Byte.star :: rest) = some size) :
    scan rule start (Byte.slash :: Byte.star :: rest) =
      cons ⟨⟨start, start + size - 1⟩, .comment⟩
        (scan rule (start + size) ((Byte.star :: rest).drop (size - 1))) := by
  have hnone : literalKind? Byte.slash = none := by decide
  rw [scan]
  simp only [hnone, if_true, List.head?_cons, hlength]

end Marking

namespace Piece

/-- A byte that opens no literal, comment or escape in front of `after`. -/
def IsPlain (byte : UInt8) (after : Bytes) : Prop :=
  Marking.literalKind? byte = none ∧ ¬ (byte = Byte.slash ∧ after.head? = some Byte.star) ∧
    byte ≠ Byte.backslash

/-- The pass cuts the piece off a text in which `after` follows it. -/
inductive Cut (rule : CommentRule) : Piece → Bytes → Prop
  | literal {kind : MarkKind} {quote : UInt8} {more after : Bytes}
      (hkind : Marking.literalKind? quote = some kind)
      (hrest : Bytes.literalRest quote false (more ++ after) = more.length) :
      Cut rule ⟨kind, quote :: more⟩ after
  | comment {more after : Bytes}
      (hlength : rule.length? 0 (Byte.slash :: Byte.star :: (more ++ after)) =
        some (more.length + 2)) :
      Cut rule ⟨.comment, Byte.slash :: Byte.star :: more⟩ after
  | escape {more after : Bytes} (hlength : more.length = min 1 (more ++ after).length) :
      Cut rule ⟨.escape, Byte.backslash :: more⟩ after
  | plain {byte : UInt8} {after : Bytes} (hplain : IsPlain byte after) :
      Cut rule ⟨.plain, [byte]⟩ after

/-- Each piece is what the pass cuts off the text of the pieces from it on. -/
def Fit (rule : CommentRule) : List Piece → Prop
  | [] => True
  | piece :: rest => Cut rule piece (bytes rest) ∧ Fit rule rest

namespace Cut

variable {rule : CommentRule} {piece : Piece} {after : Bytes}

theorem text_ne_nil (hcut : Cut rule piece after) : piece.text ≠ [] := by
  cases hcut <;> simp

theorem length_pos (hcut : Cut rule piece after) : 0 < piece.text.length :=
  List.length_pos_iff.mpr hcut.text_ne_nil

theorem literalKind?_isLiteral {byte : UInt8} {kind : MarkKind}
    (hkind : Marking.literalKind? byte = some kind) : kind.isLiteral = true := by
  unfold Marking.literalKind? at hkind
  split at hkind
  · cases hkind
    rfl
  · split at hkind
    · cases hkind
      rfl
    · cases hkind

/-- Each piece that is not plain is recorded when everything is. -/
theorem wanted (hcut : Cut rule piece after) (hmarked : piece.kind ≠ .plain) :
    Recorded.everything.wants piece.kind = true := by
  cases hcut with
  | @literal kind _ _ _ hkind _ =>
      have hliteral := literalKind?_isLiteral hkind
      cases kind <;> simp_all [MarkKind.isLiteral, Recorded.wants, Recorded.everything]
  | comment => rfl
  | escape => rfl
  | plain => exact absurd rfl hmarked

/-- A plain piece is one byte. -/
theorem exists_plain (hcut : Cut rule piece after) (hplain : piece.kind = .plain) :
    ∃ byte, piece = ⟨.plain, [byte]⟩ ∧ IsPlain byte after := by
  cases hcut with
  | @literal kind _ _ _ hkind =>
      obtain rfl : kind = .plain := hplain
      exact absurd (literalKind?_isLiteral hkind) (by decide)
  | comment => cases hplain
  | escape => cases hplain
  | @plain byte _ hbyte => exact ⟨byte, rfl, hbyte⟩

/-- What follows a piece may change, as long as no star comes to stand behind it and the end
of the text stays where it was. -/
theorem congr_after {other : Bytes} (hcut : Cut rule piece after)
    (hend : piece.kind = .comment ∨ (after = [] → other = []))
    (hstar : other.head? = some Byte.star → after.head? = some Byte.star) :
    Cut rule piece other := by
  cases hcut with
  | literal hkind hrest =>
      rcases hend with rfl | hend
      · exact absurd (literalKind?_isLiteral hkind) (by decide)
      · exact .literal hkind (Bytes.literalRest_congr_after hrest hend)
  | comment hlength => exact .comment (CommentRule.length?_congr_after hlength 0 other)
  | @escape more _ hlength =>
      rcases hend with hkind | hend
      · cases hkind
      · refine .escape ?_
        rw [List.length_append] at hlength ⊢
        cases after with
        | nil => simpa [hend rfl] using hlength
        | cons byte after =>
            rw [List.length_cons] at hlength
            omega
  | plain hplain => exact .plain ⟨hplain.1, fun h => hplain.2.1 ⟨h.1, hstar h.2⟩, hplain.2.2⟩

/-- The pass takes a piece in one step. -/
theorem scan (hcut : Cut rule piece after) (start : Nat) :
    Marking.scan rule start (piece.text ++ after) =
      if piece.kind = .plain then Marking.scan rule (start + piece.text.length) after
      else Marking.cons (piece.mark start)
        (Marking.scan rule (start + piece.text.length) after) := by
  cases hcut with
  | @literal kind quote more _ hkind hrest =>
      have hmarked : kind ≠ .plain := by
        rintro rfl
        exact absurd (literalKind?_isLiteral hkind) (by decide)
      have hlast : (start : Int) + (more.length + 1 : Nat) - 1 = start + more.length := by omega
      have hplace : start + (more.length + 1) = start + 1 + more.length := by omega
      rw [if_neg hmarked, List.cons_append, Marking.scan]
      simp only [hkind, hrest, List.drop_left, mark, List.length_cons, hlast, hplace]
  | @comment more _ hlength =>
      have hsize := (CommentRule.length?_start rule start 0 (more ++ after)).trans hlength
      have hdrop : (Byte.star :: (more ++ after)).drop (more.length + 2 - 1) = after := by
        simp
      rw [if_neg nofun, List.cons_append, List.cons_append, Marking.scan_opening_of_some hsize,
        hdrop]
      rfl
  | @escape more _ hlength =>
      have hnone : Marking.literalKind? Byte.backslash = none := by decide
      have hslash : Byte.backslash ≠ Byte.slash := by decide
      have hlast : (start : Int) + (more.length + 1 : Nat) - 1 = start + more.length := by omega
      rw [if_neg nofun, List.cons_append, Marking.scan]
      simp only [hnone, if_neg hslash, if_true, ← hlength, mark, List.length_cons, hlast]
      congr 1
      rcases more with _ | ⟨byte, _ | ⟨second, more⟩⟩
      · obtain rfl : after = [] := by
          cases after with
          | nil => rfl
          | cons byte after => simp at hlength
        simp [Marking.scan]
      · rfl
      · simp only [List.length_append, List.length_cons] at hlength
        omega
  | @plain byte _ hplain =>
      obtain ⟨hnone, hcomment, hescape⟩ := hplain
      rw [if_pos rfl, List.cons_append, Marking.scan]
      by_cases hslash : byte = Byte.slash
      · have hstar : ¬ after.head? = some Byte.star := fun h => hcomment ⟨hslash, h⟩
        subst hslash
        simp [hnone, hstar]
      · simp [hnone, hslash, hescape]

end Cut

end Piece

/-- A comment opens at the front of a text and never ends. -/
def CommentRule.Endless (rule : CommentRule) (data : Bytes) : Prop :=
  ∃ rest, data = Byte.slash :: Byte.star :: rest ∧ rule.length? 0 data = none

/-- The pass stops at a comment that never ends. -/
theorem CommentRule.Endless.scan {rule : CommentRule} {data : Bytes} (hendless : rule.Endless data)
    (start : Nat) : Marking.scan rule start data = Marking.stopped start := by
  obtain ⟨rest, rfl, hlength⟩ := hendless
  rw [← CommentRule.length?_start rule start 0 rest] at hlength
  exact Marking.scan_opening_of_none hlength

namespace Piece

/-- The pass over a text takes a piece off its front, unless a comment opens there that never
ends. -/
theorem exists_cut (rule : CommentRule) {data : Bytes} (hdata : data ≠ []) :
    (∃ piece after, data = piece.text ++ after ∧ Cut rule piece after) ∨ rule.Endless data := by
  obtain ⟨byte, tail, rfl⟩ := List.exists_cons_of_ne_nil hdata
  cases hkind : Marking.literalKind? byte with
  | some kind =>
      have hle := Bytes.literalRest_le_length byte false tail
      refine .inl ⟨⟨kind, byte :: tail.take (Bytes.literalRest byte false tail)⟩,
        tail.drop (Bytes.literalRest byte false tail), by simp, .literal hkind ?_⟩
      rw [List.take_append_drop, List.length_take]
      omega
  | none =>
      by_cases hescape : byte = Byte.backslash
      · subst hescape
        refine .inl ⟨⟨.escape, Byte.backslash :: tail.take 1⟩, tail.drop 1, ?_, .escape ?_⟩
        · rw [List.cons_append, List.take_append_drop]
        · rw [List.take_append_drop, List.length_take]
      · by_cases hcomment : byte = Byte.slash ∧ tail.head? = some Byte.star
        · obtain ⟨rfl, hstar⟩ := hcomment
          obtain ⟨rest, rfl⟩ := List.head?_eq_some_iff.mp hstar
          cases hlength : rule.length? 0 (Byte.slash :: Byte.star :: rest) with
          | none => exact .inr ⟨rest, rfl, hlength⟩
          | some size =>
              obtain ⟨hlow, hhigh⟩ := CommentRule.length?_bounds hlength
              refine .inl ⟨⟨.comment, Byte.slash :: Byte.star :: rest.take (size - 2)⟩,
                rest.drop (size - 2), by simp, .comment ?_⟩
              rw [List.take_append_drop, hlength, List.length_take]
              congr 1
              omega
        · exact .inl ⟨⟨.plain, [byte]⟩, tail, rfl, .plain ⟨hkind, hcomment, hescape⟩⟩

/-- Each piece is what the pass cuts off the text of the pieces from it on, with `after` behind
them. -/
def Leads (rule : CommentRule) (after : Bytes) : List Piece → Prop
  | [] => True
  | piece :: rest => Cut rule piece (bytes rest ++ after) ∧ Leads rule after rest

/-- Pieces that lead to the end of the text fit. -/
theorem Leads.fit {rule : CommentRule} {pieces : List Piece} (hleads : Leads rule [] pieces) :
    Fit rule pieces := by
  induction pieces with
  | nil => trivial
  | cons piece rest ih =>
      obtain ⟨hcut, hrest⟩ := hleads
      rw [List.append_nil] at hcut
      exact ⟨hcut, ih hrest⟩

theorem Leads.text_ne_nil {rule : CommentRule} {after : Bytes} {front : List Piece}
    (hleads : Leads rule after front) : ∀ piece ∈ front, piece.text ≠ [] := by
  induction front with
  | nil => simp
  | cons piece rest ih => exact List.forall_mem_cons.mpr ⟨hleads.1.text_ne_nil, ih hleads.2⟩

/-- The pass marks the pieces in front and goes on behind them. -/
theorem Leads.scan {rule : CommentRule} {front : List Piece} {after : Bytes}
    (hleads : Leads rule after front) (start : Nat) :
    Marking.scan rule start (bytes front ++ after) =
      { Marking.scan rule (start + (bytes front).length) after with
        marks := marksFrom start front ++
          (Marking.scan rule (start + (bytes front).length) after).marks } := by
  induction front generalizing start with
  | nil => rfl
  | cons piece rest ih =>
      obtain ⟨hcut, hrest⟩ := hleads
      have hplace : start + piece.text.length + (bytes rest).length =
          start + (bytes (piece :: rest)).length := by
        rw [bytes_cons, List.length_append, Nat.add_assoc]
      rw [bytes_cons, List.append_assoc, hcut.scan, ih hrest, hplace]
      by_cases hkind : piece.kind = .plain
      · rw [if_pos hkind, marksFrom_plain hkind]
        rfl
      · rw [if_neg hkind, marksFrom_marked hkind]
        rfl

/-- The pass comes to the end of the text or to a comment that never ends. -/
theorem exists_leads (rule : CommentRule) (data : Bytes) :
    ∃ front after, bytes front ++ after = data ∧ Leads rule after front ∧
      (after = [] ∨ rule.Endless after) := by
  -- by the length of the text: a piece is never empty
  induction hlength : data.length using Nat.strongRecOn generalizing data with
  | ind length ih =>
      by_cases hdata : data = []
      · exact ⟨[], data, rfl, trivial, .inl hdata⟩
      · rcases exists_cut rule hdata with ⟨piece, rest, rfl, hcut⟩ | hendless
        · have hshort : rest.length < length := by
            rw [← hlength, List.length_append]
            have hpos := hcut.length_pos
            omega
          obtain ⟨front, after, rfl, hleads, hend⟩ := ih _ hshort rest rfl
          exact ⟨piece :: front, after, by simp, ⟨hcut, hleads⟩, hend⟩
        · exact ⟨[], data, rfl, trivial, .inr hendless⟩

theorem Fit.of_append {rule : CommentRule} {front back : List Piece}
    (hfit : Fit rule (front ++ back)) : Fit rule back := by
  induction front with
  | nil => exact hfit
  | cons piece rest ih => exact ih hfit.2

theorem Fit.text_ne_nil {rule : CommentRule} {pieces : List Piece} (hfit : Fit rule pieces) :
    ∀ piece ∈ pieces, piece.text ≠ [] := by
  induction pieces with
  | nil => simp
  | cons piece rest ih =>
      intro other hother
      rcases List.mem_cons.mp hother with rfl | hother
      · exact hfit.1.text_ne_nil
      · exact ih hfit.2 other hother

/-- A literal begins with a byte that a comparison looks at. -/
theorem quote_of_mem_marksFrom {rule : CommentRule} {pieces : List Piece}
    (hfit : Fit rule pieces) {mark : Mark} (hmem : mark ∈ marksFrom 0 pieces)
    (hliteral : mark.kind.isLiteral = true) :
    ∃ quote, (bytes pieces)[mark.first.toNat]? = some quote ∧
      (Marking.literalKind? quote).isSome = true := by
  obtain ⟨front, piece, back, rfl, _, rfl⟩ := mem_marksFrom hmem
  obtain ⟨hcut, _⟩ := hfit.of_append
  have hplace : (piece.mark (0 + (bytes front).length)).first.toNat = (bytes front).length := by
    simp [Piece.mark]
  cases hcut with
  | @literal kind quote more _ hkind _ =>
      refine ⟨quote, ?_, by rw [hkind]; rfl⟩
      rw [hplace, bytes_append, List.getElem?_append_right (Nat.le_refl _)]
      simp
  | comment => exact absurd hliteral (by simp [Piece.mark, MarkKind.isLiteral])
  | escape => exact absurd hliteral (by simp [Piece.mark, MarkKind.isLiteral])
  | plain => exact absurd hliteral (by simp [Piece.mark, MarkKind.isLiteral])

/-- The marks of pieces that fit are what the pass over their text makes. -/
theorem scan_bytes {rule : CommentRule} {pieces : List Piece} (hfit : Fit rule pieces)
    (start : Nat) :
    Marking.scan rule start (bytes pieces) = ⟨marksFrom start pieces, none⟩ := by
  induction pieces generalizing start with
  | nil => simp [Marking.scan, Marking.done, marksFrom]
  | cons piece rest ih =>
      obtain ⟨hcut, hrest⟩ := hfit
      rw [bytes_cons, hcut.scan, ih hrest]
      by_cases hkind : piece.kind = .plain
      · rw [if_pos hkind, marksFrom_plain hkind]
      · rw [if_neg hkind, marksFrom_marked hkind, Marking.cons]

/-- A text in which every comment ends is cut into pieces that fit. -/
theorem exists_fit {rule : CommentRule} {start : Nat} {data : Bytes}
    (hclosed : (Marking.scan rule start data).openComment = none) :
    ∃ pieces, Fit rule pieces ∧ bytes pieces = data := by
  obtain ⟨front, after, rfl, hleads, rfl | hendless⟩ := exists_leads rule data
  · exact ⟨front, hleads.fit, by simp⟩
  · rw [hleads.scan, hendless.scan] at hclosed
    cases hclosed

/-- The marks of a text, when it has any, are those of pieces that fit. -/
theorem marks_eq_ok_iff {rule : CommentRule} {recorded : Recorded} {data : Bytes}
    {marks : List Mark} :
    data.marks rule recorded = .ok marks ↔
      ∃ pieces, Fit rule pieces ∧ bytes pieces = data ∧
        marks = (marksFrom 0 pieces).filter (recorded.wants ·.kind) := by
  constructor
  · intro hmarks
    have hclosed : (Marking.scan rule 0 data).openComment = none := by
      simp only [Bytes.marks, Bytes.marking] at hmarks
      split at hmarks
      next => cases hmarks
      next hnone => exact hnone
    obtain ⟨pieces, hfit, rfl⟩ := exists_fit hclosed
    refine ⟨pieces, hfit, rfl, ?_⟩
    simpa [Bytes.marks, Bytes.marking, scan_bytes hfit] using hmarks.symm
  · rintro ⟨pieces, hfit, rfl, rfl⟩
    simp [Bytes.marks, Bytes.marking, scan_bytes hfit]

/-- The marks of a text lie in it one behind the other. -/
theorem separates_of_marks {data : Bytes} {rule : CommentRule} {recorded : Recorded}
    {marks : List Mark} (hmarks : data.marks rule recorded = .ok marks) :
    data.Separates marks := by
  obtain ⟨pieces, hfit, rfl, rfl⟩ := marks_eq_ok_iff.mp hmarks
  exact (separates_marksFrom hfit.text_ne_nil).filter _

/-- When everything is recorded no mark of the pieces is left out. -/
theorem filter_everything {rule : CommentRule} {pieces : List Piece} (hfit : Fit rule pieces)
    (start : Nat) :
    (marksFrom start pieces).filter (Recorded.everything.wants ·.kind) =
      marksFrom start pieces := by
  induction pieces generalizing start with
  | nil => rfl
  | cons piece rest ih =>
      obtain ⟨hcut, hrest⟩ := hfit
      by_cases hkind : piece.kind = .plain
      · rw [marksFrom_plain hkind, ih hrest]
      · have hwanted : Recorded.everything.wants (piece.mark start).kind = true :=
          hcut.wanted hkind
        rw [marksFrom_marked hkind, List.filter_cons, if_pos hwanted, ih hrest]

theorem head?_mask_star {hidden : Nat → Bool} {start : Nat} {data : Bytes}
    (hstar : (Bytes.mask hidden start data).head? = some Byte.star) :
    data.head? = some Byte.star := by
  cases data with
  | nil => simp at hstar
  | cons byte rest =>
      rw [Bytes.mask, List.head?_cons, Option.some.injEq] at hstar
      split at hstar
      · exact absurd hstar (by decide)
      · rw [List.head?_cons, hstar]

/-- Pieces still fit when some of them are overwritten as a whole. -/
theorem fit_collapse {rule : CommentRule} {hidden : Nat → Bool} {start : Nat}
    {pieces : List Piece} (hfit : Fit rule pieces) (haligned : Aligned hidden start pieces) :
    Fit rule (collapse hidden start pieces) := by
  have hblanks : ∀ (count : Nat) (rest : List Piece), Fit rule rest →
      Fit rule (List.replicate count blank ++ rest) := by
    intro count rest hrest
    induction count with
    | zero => exact hrest
    | succ count ih =>
        refine ⟨.plain ⟨by decide, fun h => ?_, by decide⟩, ih⟩
        exact absurd h.1 (by decide)
  induction pieces generalizing start with
  | nil => trivial
  | cons piece rest ih =>
      obtain ⟨hcut, hrest⟩ := hfit
      have hbehind := ih hrest haligned.2
      rw [collapse]
      split
      · exact hblanks _ _ hbehind
      · have htext : bytes (collapse hidden (start + piece.text.length) rest) =
            Bytes.mask hidden (start + piece.text.length) (bytes rest) :=
          bytes_collapse haligned.2
        have hkept : Cut rule piece
            (bytes (collapse hidden (start + piece.text.length) rest)) := by
          rw [htext]
          refine hcut.congr_after (.inr fun hnil => ?_) head?_mask_star
          rw [hnil, Bytes.mask_nil]
        exact ⟨hkept, hbehind⟩

/-- Behind a newline that stands in the blanked text no piece is under way. -/
theorem clears_of_newline {rule : CommentRule} {index : Nat} {pieces : List Piece}
    (hfit : Fit rule pieces) (start : Nat)
    (hnewline : (bytes (pieces.map (hide fun _ => true)))[index]? = some Byte.newline) :
    Clears (start + index + 1 : Nat) start pieces := by
  induction pieces generalizing start index with
  | nil => trivial
  | cons piece rest ih =>
      obtain ⟨hcut, hrest⟩ := hfit
      rw [List.map_cons, bytes_cons] at hnewline
      by_cases hinside : index < piece.text.length
      · -- the newline is not hidden, so its piece is plain and has no other byte
        refine ⟨.inr ?_, clears_of_le (by omega)⟩
        rw [List.getElem?_append_left (by simpa using hinside)] at hnewline
        have hplain : piece.kind = .plain := by
          by_contra hkind
          rw [hide, if_pos (by simp [hkind]), List.getElem?_replicate, if_pos hinside] at hnewline
          exact absurd hnewline (by decide)
        obtain ⟨byte, rfl, _⟩ := hcut.exists_plain hplain
        rw [List.length_singleton] at hinside ⊢
        omega
      · rw [List.getElem?_append_right (by simpa using hinside), length_text_hide] at hnewline
        refine ⟨.inr (by omega), ?_⟩
        have hbehind := ih hrest (start + piece.text.length) hnewline
        have hoffset : start + piece.text.length + (index - piece.text.length) + 1 =
            start + index + 1 := by omega
        rwa [hoffset] at hbehind

end Piece

end CDelta

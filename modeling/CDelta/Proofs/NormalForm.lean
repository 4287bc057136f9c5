import CDelta.Proofs.Fingerprint
import CDelta.Proofs.Lexing

/-! # Normal forms

The normal form of a text leaves out its comments and, outside of literals, its spaces, tabs
and newlines. A comparison sees the literals of the normal form in their order and its other
bytes in theirs, but not how the two are interleaved: texts that compare as the same have the
same normal form up to where the literals stand among the other bytes.
-/

namespace CDelta

/-- One sign of a normal form. -/
inductive Glyph where
  /-- A byte outside of literals. -/
  | code (byte : UInt8)
  /-- A literal, verbatim. -/
  | literal (kind : MarkKind) (text : Bytes)
deriving DecidableEq, Repr

namespace Glyph

/-- The byte of a sign outside of literals. -/
def code? : Glyph → Option UInt8
  | code byte => some byte
  | literal _ _ => none

/-- The literal of a sign. -/
def literal? : Glyph → Option (MarkKind × Bytes)
  | code _ => none
  | literal kind text => some (kind, text)

/-- The text of a sign. -/
def text : Glyph → Bytes
  | code byte => [byte]
  | literal _ text => text

/-- For each literal, how many other bytes stand in front of it. -/
def places (count : Nat) : List Glyph → List Nat
  | [] => []
  | code _ :: rest => places (count + 1) rest
  | literal _ _ :: rest => count :: places count rest

theorem le_of_mem_places {count place : Nat} {glyphs : List Glyph}
    (hmem : place ∈ places count glyphs) : count ≤ place := by
  induction glyphs generalizing count with
  | nil => simp [places] at hmem
  | cons glyph rest ih =>
      cases glyph with
      | code byte => exact Nat.le_of_succ_le (ih hmem)
      | literal kind text =>
          rcases List.mem_cons.mp hmem with rfl | hmem
          · exact Nat.le_refl _
          · exact ih hmem

/-- Signs are determined by their bytes, their literals and where these stand. -/
theorem eq_of_projections {first second : List Glyph} {count : Nat}
    (hcode : first.filterMap code? = second.filterMap code?)
    (hliteral : first.filterMap literal? = second.filterMap literal?)
    (hplaces : places count first = places count second) : first = second := by
  -- where one side has a byte and the other a literal, the places tell them apart
  have hapart : ∀ {count kind text byte} {left right : List Glyph},
      places count (literal kind text :: left) ≠ places count (code byte :: right) := by
    intro count kind text byte left right heq
    have hmem : count ∈ places (count + 1) right := by
      rw [← show _ = places (count + 1) right from heq]
      exact List.mem_cons_self
    exact absurd (le_of_mem_places hmem) (by omega)
  induction first generalizing second count with
  | nil =>
      cases second with
      | nil => rfl
      | cons glyph rest => cases glyph <;> simp [code?, literal?] at hcode hliteral
  | cons glyph rest ih =>
      cases second with
      | nil => cases glyph <;> simp [code?, literal?] at hcode hliteral
      | cons other more =>
          cases glyph with
          | code byte =>
              cases other with
              | code second =>
                  obtain ⟨rfl, hrest⟩ := List.cons.inj hcode
                  rw [ih hrest hliteral hplaces]
              | literal kind text => exact absurd hplaces.symm hapart
          | literal kind text =>
              cases other with
              | code byte => exact absurd hplaces hapart
              | literal second other =>
                  obtain ⟨hsame, hrest⟩ := List.cons.inj hliteral
                  obtain ⟨rfl, rfl⟩ := Prod.mk.inj hsame
                  have hbytes : rest.filterMap code? = more.filterMap code? := hcode
                  rw [ih hbytes hrest (List.cons.inj hplaces).2]

end Glyph

namespace Bytes

/-- The sign that a byte and its offset add to the normal form: a literal at its first byte,
and nothing for the rest of it. -/
def glyph? (marks : List Mark) (data : Bytes) (element : UInt8 × Nat) : Option Glyph :=
  match (marks.filter (Recorded.visible.wants ·.kind)).find? (·.has element.2) with
  | some mark =>
    if mark.kind.isLiteral && mark.first = element.2 then
      some (.literal mark.kind (mark.toSpan.slice data))
    else none
  | none => if View.isSignificant element.1 then some (.code element.1) else none

/-- The normal form of a text. -/
def normal (rule : CommentRule) (data : Bytes) : Except Fault (List Glyph) :=
  (data.marks rule .everything).map fun marks => data.zipIdx.filterMap (glyph? marks data)

/-- The bytes of the normal form are those that a comparison sees. -/
theorem filterMap_code? (marks : List Mark) (data : Bytes) :
    (data.zipIdx.filterMap (glyph? marks data)).filterMap Glyph.code? =
      ((View.ofMarks data marks []).fingerprint (Span.whole data) []).bytes := by
  rw [View.bytes_fingerprint, List.filterMap_filterMap, ← List.filterMap_eq_map,
    List.filterMap_filter]
  refine List.filterMap_congr fun element helement => ?_
  have hregion : (Span.whole data).has element.2 = true := by
    have hlt := List.snd_lt_of_mem_zipIdx helement
    simp only [Span.has_iff, Span.whole]
    omega
  have hveiled : Span.cover (View.veils marks) element.2 =
      ((marks.filter (Recorded.visible.wants ·.kind)).find? (·.has element.2)).isSome := by
    rw [Bool.eq_iff_iff, List.find?_isSome, Span.cover_iff]
    simp [View.veils]
  simp only [View.seesByte, hregion, hveiled, glyph?]
  cases (marks.filter (Recorded.visible.wants ·.kind)).find? (·.has element.2) with
  | none => 
      by_cases hsignificant : View.isSignificant element.1 = true
      · simp [hsignificant, Glyph.code?, Span.cover]
      · simp [hsignificant]
  | some mark =>
      simp only [Option.isSome_some, Bool.true_or, Bool.not_true, Bool.and_false]
      split <;> simp [Glyph.code?]

/-- A byte adds a literal to the normal form when one begins there. -/
theorem glyph?_bind_literal? (marks : List Mark) (data : Bytes) (element : UInt8 × Nat) :
    (glyph? marks data element).bind Glyph.literal? =
      (((marks.filter (Recorded.visible.wants ·.kind)).find? (·.has element.2)).filter
        fun mark => mark.kind.isLiteral && mark.first = (element.2 : Int)).map
          fun mark => (mark.kind, mark.toSpan.slice data) := by
  cases hfound : (marks.filter (Recorded.visible.wants ·.kind)).find? (·.has element.2) with
  | none =>
      simp only [glyph?, hfound]
      split <;> rfl
  | some mark =>
      simp only [glyph?, hfound, Option.filter_some]
      split <;> rfl

end Bytes

namespace Piece

/-- The bytes of one piece add its literal to the normal form, and no other. -/
theorem filterMap_literal?_text {marks : List Mark} {data : Bytes} {start : Nat}
    {piece : Piece} (hfull : piece.text ≠ [])
    (hfind : ∀ index < piece.text.length,
      (marks.filter (Recorded.visible.wants ·.kind)).find? (·.has (start + index : Nat)) =
        if piece.kind ≠ .plain && Recorded.visible.wants piece.kind then some (piece.mark start)
        else none) :
    (piece.text.zipIdx start).filterMap (fun element =>
        (Bytes.glyph? marks data element).bind Glyph.literal?) =
      if piece.kind.isLiteral then [(piece.kind, (piece.mark start).toSpan.slice data)]
      else [] := by
  have hliteral : ∀ index < piece.text.length, ∀ byte : UInt8,
      (Bytes.glyph? marks data (byte, start + index)).bind Glyph.literal? =
        if piece.kind.isLiteral ∧ index = 0 then
          some (piece.kind, (piece.mark start).toSpan.slice data)
        else none := by
    intro index hindex byte
    rw [Bytes.glyph?_bind_literal?, hfind index hindex]
    have hplace : ((start : Int) = start + index) ↔ index = 0 := by omega
    cases hkind : piece.kind <;>
      simp [hkind, MarkKind.isLiteral, Recorded.wants, Recorded.visible, Option.filter_some, mark,
        hplace]
  obtain ⟨byte, more, heq⟩ := List.exists_cons_of_ne_nil hfull
  have hfirst := hliteral 0 (by simp [heq]) byte
  have hmore : (more.zipIdx (start + 1)).filterMap (fun element =>
      (Bytes.glyph? marks data element).bind Glyph.literal?) = [] := by
    rw [List.filterMap_eq_nil_iff]
    rintro ⟨other, offset⟩ helement
    have hlow := List.le_snd_of_mem_zipIdx helement
    have hhigh := List.snd_lt_add_of_mem_zipIdx helement
    have hother := hliteral (offset - start) (by simp only [heq, List.length_cons]; omega) other
    rw [Nat.add_sub_cancel' (by omega)] at hother
    rw [hother, if_neg (by omega)]
  rw [heq, List.zipIdx_cons, List.filterMap_cons, hmore]
  simp only [Nat.add_zero] at hfirst
  rw [hfirst]
  split <;> simp_all

/-- The literals of the normal form are the pieces that are literals. -/
theorem filterMap_literal?_bytes {rule : CommentRule} {marks : List Mark} {data : Bytes}
    {start : Nat} {pieces : List Piece} (hfit : Fit rule pieces)
    (hfind : ∀ offset, start ≤ offset →
      (marks.filter (Recorded.visible.wants ·.kind)).find? (·.has offset) =
        ((marksFrom start pieces).filter (Recorded.visible.wants ·.kind)).find?
          (·.has offset)) :
    ((bytes pieces).zipIdx start).filterMap (fun element =>
        (Bytes.glyph? marks data element).bind Glyph.literal?) =
      ((marksFrom start pieces).filter (·.kind.isLiteral)).map fun mark =>
        (mark.kind, mark.toSpan.slice data) := by
  induction pieces generalizing start with
  | nil => rfl
  | cons piece rest ih =>
      obtain ⟨hcut, hrest⟩ := hfit
      rw [bytes_cons, List.zipIdx_append, List.filterMap_append,
        filterMap_literal?_text hcut.text_ne_nil, ih hrest]
      · by_cases hliteral : piece.kind.isLiteral = true
        · have hkind : piece.kind ≠ .plain := by
            intro hplain
            simp [hplain, MarkKind.isLiteral] at hliteral
          have hmark : (piece.mark start).kind.isLiteral = true := hliteral
          rw [marksFrom_marked hkind, List.filter_cons, if_pos hmark, if_pos hliteral]
          rfl
        · have hmark : ¬ (piece.mark start).kind.isLiteral = true := hliteral
          rw [if_neg hliteral, List.nil_append]
          by_cases hkind : piece.kind = .plain
          · rw [marksFrom_plain hkind]
          · rw [marksFrom_marked hkind, List.filter_cons, if_neg hmark]
      · intro offset hoffset
        rw [hfind offset (by omega), find?_behind hoffset]
      · intro index hindex
        rw [hfind _ (by omega), find?_first hindex]

theorem contains_whole_of_mem_marksFrom {pieces : List Piece} {mark : Mark}
    (hmem : mark ∈ marksFrom 0 pieces) :
    (Span.whole (bytes pieces)).contains mark.toSpan = true := by
  obtain ⟨front, piece, back, rfl, _, rfl⟩ := mem_marksFrom hmem
  simp only [Span.contains, Span.whole, Piece.mark, bytes_append, bytes_cons, List.length_append,
    Bool.and_eq_true, decide_eq_true_eq]
  omega

end Piece

namespace Bytes

/-- The literals of the normal form are those that a comparison sees. -/
theorem filterMap_literal? {rule : CommentRule} {marks : List Mark} {data : Bytes}
    (hmarks : data.marks rule .everything = .ok marks) :
    (data.zipIdx.filterMap (glyph? marks data)).filterMap Glyph.literal? =
      ((View.ofMarks data marks []).fingerprint (Span.whole data) []).literals := by
  obtain ⟨pieces, hfit, rfl, rfl⟩ := Piece.marks_eq_ok_iff.mp hmarks
  rw [Piece.filter_everything hfit, View.literals_fingerprint, List.filterMap_filterMap,
    Piece.filterMap_literal?_bytes hfit fun _ _ => rfl]
  congr 1
  refine List.filter_congr fun mark hmark => ?_
  simp [View.seesLiteral, View.excludes, Piece.contains_whole_of_mem_marksFrom hmark]

end Bytes

/-- Texts compare as the same exactly when their normal forms have the same literals in the
same order and the same other bytes in the same order. The normal forms are equal exactly when,
besides, each literal stands behind as many of the other bytes. -/
theorem same_iff_normal_up_to_places {rule : CommentRule} {a b : Bytes} {viewA viewB : View}
    (hviewA : View.ofSource rule a [] = .ok viewA)
    (hviewB : View.ofSource rule b [] = .ok viewB) :
    ∃ normalA normalB, a.normal rule = .ok normalA ∧ b.normal rule = .ok normalB ∧
      (Outcome.ofRegions viewA (Span.whole a) viewB (Span.whole b) = .same ↔
        normalA.filterMap Glyph.literal? = normalB.filterMap Glyph.literal? ∧
          normalA.filterMap Glyph.code? = normalB.filterMap Glyph.code?) ∧
      (normalA = normalB ↔
        Outcome.ofRegions viewA (Span.whole a) viewB (Span.whole b) = .same ∧
          Glyph.places 0 normalA = Glyph.places 0 normalB) := by
  have hview : ∀ {data : Bytes} {view : View}, View.ofSource rule data [] = .ok view →
      ∃ marks, data.marks rule .everything = .ok marks ∧ view = View.ofMarks data marks [] := by
    intro data view hview
    cases hmarks : data.marks rule .everything with
    | error fault => simp [View.ofSource, hmarks, Except.map] at hview
    | ok marks => exact ⟨marks, rfl, by simpa [View.ofSource, hmarks, Except.map] using hview.symm⟩
  obtain ⟨marksA, hmarksA, rfl⟩ := hview hviewA
  obtain ⟨marksB, hmarksB, rfl⟩ := hview hviewB
  have hsame : Outcome.ofRegions (View.ofMarks a marksA []) (Span.whole a)
      (View.ofMarks b marksB []) (Span.whole b) = .same ↔
        (a.zipIdx.filterMap (a.glyph? marksA)).filterMap Glyph.literal? =
            (b.zipIdx.filterMap (b.glyph? marksB)).filterMap Glyph.literal? ∧
          (a.zipIdx.filterMap (a.glyph? marksA)).filterMap Glyph.code? =
            (b.zipIdx.filterMap (b.glyph? marksB)).filterMap Glyph.code? := by
    rw [Outcome.ofRegions_eq_same_iff, Bytes.filterMap_literal? hmarksA,
      Bytes.filterMap_literal? hmarksB, Bytes.filterMap_code?, Bytes.filterMap_code?,
      ← Fingerprint.mk.injEq]
  refine ⟨_, _, by rw [Bytes.normal, hmarksA]; rfl, by rw [Bytes.normal, hmarksB]; rfl, hsame,
    ?_⟩
  rw [hsame]
  constructor
  · intro heq
    rw [heq]
    exact ⟨⟨rfl, rfl⟩, rfl⟩
  · rintro ⟨⟨hliteral, hcode⟩, hplaces⟩
    exact Glyph.eq_of_projections hcode hliteral hplaces

/-- The statement at a text and a copy of it with other blanks and a comment. -/
theorem same_iff_normal_up_to_places_reformatted :
    let a := Bytes.ofChars "x = \"a b\";".toList
    let b := Bytes.ofChars "x=/* ' */\n\"a b\" ;".toList
    let viewA := View.ofMarks a [⟨⟨4, 8⟩, .string⟩] []
    let viewB := View.ofMarks b [⟨⟨2, 8⟩, .comment⟩, ⟨⟨10, 14⟩, .string⟩] []
    View.ofSource .nested a [] = .ok viewA ∧ View.ofSource .nested b [] = .ok viewB ∧
      ∃ normalA normalB, a.normal .nested = .ok normalA ∧ b.normal .nested = .ok normalB ∧
        (Outcome.ofRegions viewA (Span.whole a) viewB (Span.whole b) = .same ↔
          normalA.filterMap Glyph.literal? = normalB.filterMap Glyph.literal? ∧
            normalA.filterMap Glyph.code? = normalB.filterMap Glyph.code?) ∧
        (normalA = normalB ↔
          Outcome.ofRegions viewA (Span.whole a) viewB (Span.whole b) = .same ∧
            Glyph.places 0 normalA = Glyph.places 0 normalB) := by
  intro a b viewA viewB
  have hmarksA : a.marks .nested .everything = .ok [⟨⟨4, 8⟩, .string⟩] := by decide +kernel
  have hmarksB : b.marks .nested .everything =
      .ok [⟨⟨2, 8⟩, .comment⟩, ⟨⟨10, 14⟩, .string⟩] := by decide +kernel
  have hviewA : View.ofSource .nested a [] = .ok viewA := by rw [View.ofSource, hmarksA]; rfl
  have hviewB : View.ofSource .nested b [] = .ok viewB := by rw [View.ofSource, hmarksB]; rfl
  exact ⟨hviewA, hviewB, same_iff_normal_up_to_places hviewA hviewB⟩

/-- A literal that moves across a word is not seen: texts that compare as the same may have
different normal forms. -/
theorem same_with_moved_literal :
    ¬ ∀ (rule : CommentRule) (a b : Bytes) (viewA viewB : View),
      View.ofSource rule a [] = .ok viewA → View.ofSource rule b [] = .ok viewB →
      Outcome.ofRegions viewA (Span.whole a) viewB (Span.whole b) = .same →
      ∀ normalA normalB, a.normal rule = .ok normalA → b.normal rule = .ok normalB →
        normalA.flatMap Glyph.text = normalB.flatMap Glyph.text := by
  intro hequal
  let a := Bytes.ofChars "x\"s\"".toList
  let b := Bytes.ofChars "\"s\"x".toList
  have hmarksA : a.marks .nested .everything = .ok [⟨⟨1, 3⟩, .string⟩] := by decide +kernel
  have hmarksB : b.marks .nested .everything = .ok [⟨⟨0, 2⟩, .string⟩] := by decide +kernel
  have hviewA : View.ofSource .nested a [] = .ok (View.ofMarks a [⟨⟨1, 3⟩, .string⟩] []) := by
    rw [View.ofSource, hmarksA]; rfl
  have hviewB : View.ofSource .nested b [] = .ok (View.ofMarks b [⟨⟨0, 2⟩, .string⟩] []) := by
    rw [View.ofSource, hmarksB]; rfl
  have hnormalA : a.normal .nested =
      .ok [.code 120, .literal .string (Bytes.ofChars "\"s\"".toList)] := by
    rw [Bytes.normal, hmarksA]
    decide +kernel
  have hnormalB : b.normal .nested =
      .ok [.literal .string (Bytes.ofChars "\"s\"".toList), .code 120] := by
    rw [Bytes.normal, hmarksB]
    decide +kernel
  have htexts := hequal .nested a b _ _ hviewA hviewB (by decide +kernel) _ _ hnormalA hnormalB
  exact absurd htexts (by decide)

end CDelta

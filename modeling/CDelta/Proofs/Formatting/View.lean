import CDelta.Proofs.Fingerprint
import CDelta.Proofs.Footprint
import CDelta.Proofs.Formatting.Pieces

/-! # Formatting is not seen

A comparison sees neither blanks nor comments. With formatting inserted into a text, a region
that moves along shows the same bytes and the same literals as before.
-/

namespace CDelta

namespace Bytes

/-- Picking bytes by their offsets when bytes are inserted of which none is picked. -/
theorem filter_zipIdx_insert {front gap back : Bytes} {keep other : UInt8 × Nat → Bool}
    (hgap : ∀ index byte, gap[index]? = some byte → other (byte, front.length + index) = false)
    (hkeep : ∀ byte offset,
      other (byte, moved front.length gap.length offset) = keep (byte, offset)) :
    ((front ++ (gap ++ back)).zipIdx.filter other).map (·.1) =
      ((front ++ back).zipIdx.filter keep).map (·.1) := by
  have hnone : (gap.zipIdx front.length).filter other = [] := by
    rw [List.filter_eq_nil_iff]
    rintro ⟨byte, offset⟩ hmem
    obtain ⟨hle, hbyte⟩ := List.mk_mem_zipIdx_iff_le_and_getElem?_sub.mp hmem
    have hplace := hgap (offset - front.length) byte hbyte
    rw [Nat.add_sub_cancel' hle] at hplace
    simp [hplace]
  have hfront : front.zipIdx.filter other = front.zipIdx.filter keep := by
    refine List.filter_congr ?_
    rintro ⟨byte, offset⟩ hmem
    have hlt := (List.mem_zipIdx hmem).2.1
    rw [← hkeep byte offset, moved_of_lt (by omega)]
  have hback : ((back.zipIdx (front.length + gap.length)).filter other).map (·.1) =
      ((back.zipIdx front.length).filter keep).map (·.1) := by
    rw [Nat.add_comm, ← List.map_snd_add_zipIdx_eq_zipIdx, List.filter_map, List.map_map]
    have hsame : (back.zipIdx front.length).filter
        (other ∘ Prod.map id (· + gap.length)) = (back.zipIdx front.length).filter keep := by
      refine List.filter_congr ?_
      rintro ⟨byte, offset⟩ hmem
      have hle := (List.mem_zipIdx hmem).1
      rw [← hkeep byte offset, moved_of_le hle]
      rfl
    rw [hsame]
    rfl
  simp only [List.zipIdx_append, List.filter_append, List.map_append, Nat.zero_add, hnone,
    hfront, hback, List.nil_append]

end Bytes

namespace Span

/-- The text of a span moves along when bytes are inserted in front of it or behind it. -/
theorem slice_insert {front back : Bytes} (gap : Bytes) {span : Span} (hfirst : 0 ≤ span.first)
    (hle : span.first ≤ span.last)
    (hapart : span.last < front.length ∨ front.length ≤ span.first) :
    (span.relocate (moved front.length gap.length)).slice (front ++ (gap ++ back)) =
      span.slice (front ++ back) := by
  simp only [slice, relocate]
  rcases hapart with hfront | hback
  · rw [moved_of_lt (by omega), moved_of_lt (by omega),
      List.drop_append_of_le_length (by omega), List.drop_append_of_le_length (by omega),
      List.take_append_of_le_length (by rw [List.length_drop]; omega),
      List.take_append_of_le_length (by rw [List.length_drop]; omega)]
  · have hnew : (front ++ (gap ++ back)).drop (span.first + gap.length).toNat =
        back.drop (span.first.toNat - front.length) := by
      rw [← List.append_assoc, List.drop_append,
        List.drop_eq_nil_of_le (by rw [List.length_append]; omega), List.nil_append]
      congr 1
      rw [List.length_append]
      omega
    have hold : (front ++ back).drop span.first.toNat =
        back.drop (span.first.toNat - front.length) := by
      rw [List.drop_append, List.drop_eq_nil_of_le (by omega), List.nil_append]
    rw [moved_of_le (by omega), moved_of_le (by omega), hnew, hold]
    congr 1
    omega

theorem has_whole_insert (front gap back : Bytes) (offset : Nat) :
    (whole (front ++ (gap ++ back))).has (Bytes.moved front.length gap.length offset) =
      (whole (front ++ back)).has offset := by
  rw [Bool.eq_iff_iff, has_iff, has_iff]
  simp only [whole, List.length_append, Bytes.moved]
  split <;> omega

/-- A span that is not empty lies in another exactly when its ends do. -/
theorem contains_eq_has {region span : Span} (hle : span.first ≤ span.last) :
    region.contains span = (region.has span.first && region.has span.last) := by
  rw [Bool.eq_iff_iff, contains_iff, Bool.and_eq_true, has_iff, has_iff]
  omega

end Span

namespace Piece

variable {rule : CommentRule} {front fillers back : List Piece}

/-- Each byte of fillers is blank or lies in a comment. -/
theorem blank_or_covers_fillers (hfillers : ∀ piece ∈ fillers, Filler rule piece)
    {wanted : MarkKind → Bool} (hwanted : wanted .comment = true) (start : Nat) {index : Nat}
    {byte : UInt8} (hbyte : (bytes fillers)[index]? = some byte) :
    (byte = Byte.space ∨ byte = Byte.tab) ∨ covers wanted start fillers (start + index) = true := by
  induction fillers generalizing start index with
  | nil => simp at hbyte
  | cons piece rest ih =>
      rw [bytes_cons] at hbyte
      by_cases hinside : index < piece.text.length
      · rw [List.getElem?_append_left hinside] at hbyte
        cases hfillers piece List.mem_cons_self with
        | @blank other hother =>
            obtain rfl : index = 0 := by simpa using hinside
            obtain rfl : other = byte := by simpa using hbyte
            exact .inl hother
        | comment =>
            rw [covers_first hinside]
            exact .inr (by simp [hwanted])
      · rw [List.getElem?_append_right (by omega)] at hbyte
        have hrest := ih (fun other hother => hfillers other (List.mem_cons_of_mem _ hother))
          (start + piece.text.length) hbyte
        rwa [Nat.add_assoc, Nat.add_sub_cancel' (by omega), ← covers_behind (by omega)] at hrest

theorem covers_of_inner {wanted : MarkKind → Bool} {offset : Nat}
    (hcovers : covers wanted (bytes front).length fillers offset = true) :
    covers wanted 0 (front ++ (fillers ++ back)) offset = true := by
  obtain ⟨mark, hmark, hwanted, hhas⟩ := covers_iff.mp hcovers
  refine covers_iff.mpr ⟨mark, ?_, hwanted, hhas⟩
  rw [marksFrom_append, marksFrom_append, Nat.zero_add]
  exact List.mem_append_right _ (List.mem_append_left _ hmark)

end Piece

namespace View

/-- A region and excluded spans that move along when `size` bytes are inserted at the offset
`spot`. -/
structure Follows (spot size : Nat) (region : Span) (excluded : List Span) (widened : Span)
    (others : List Span) : Prop where
  has : ∀ offset : Nat, widened.has (Bytes.moved spot size offset) = region.has offset
  cover : ∀ offset : Nat,
    Span.cover others (Bytes.moved spot size offset) = Span.cover excluded offset
  last_nonneg : ∀ span ∈ excluded, 0 ≤ span.last
  other_nonneg : ∀ span ∈ others, 0 ≤ span.last

variable {rule : CommentRule} {front fillers back : List Piece} {spot size : Nat}
  {region widened : Span} {excluded others : List Span}

/-- A literal is seen where it was. -/
theorem Follows.seesLiteral_moved (hfollows : Follows spot size region excluded widened others)
    {mark : Mark} (hfirst : 0 ≤ mark.first) (hle : mark.first ≤ mark.last)
    (length lengthOther : Nat) :
    seesLiteral lengthOther others widened []
        (mark.map (·.relocate (Span.moved spot size))) =
      seesLiteral length excluded region [] mark := by
  obtain ⟨⟨first, last⟩, kind⟩ := mark
  obtain ⟨first, rfl⟩ := Int.eq_ofNat_of_zero_le hfirst
  obtain ⟨last, rfl⟩ := Int.eq_ofNat_of_zero_le (Int.le_trans hfirst hle)
  have hmoved : Span.moved spot size first ≤ Span.moved spot size last :=
    (Span.moved_le_moved_iff spot size).mpr hle
  simp only [seesLiteral, Mark.map, Span.relocate]
  rw [Span.contains_eq_has hle, Span.contains_eq_has hmoved]
  simp only [← Span.natCast_moved, excludes_eq_cover hfollows.last_nonneg,
    excludes_eq_cover hfollows.other_nonneg, hfollows.has, hfollows.cover, List.any_nil]

/-- Literals of which none reaches across the place of an insertion are seen with the text that
they had. -/
theorem Follows.literals_moved {front gap back : Bytes}
    (hfollows : Follows front.length gap.length region excluded widened others)
    {marks : List Mark} (hmarks : ∀ mark ∈ marks, 0 ≤ mark.first ∧ mark.first ≤ mark.last ∧
      (mark.last < front.length ∨ front.length ≤ mark.first)) (length lengthOther : Nat) :
    ((marks.map (·.map (·.relocate (Span.moved front.length gap.length)))).filter
        (seesLiteral lengthOther others widened [])).map
          (fun mark => (mark.kind, mark.toSpan.slice (front ++ (gap ++ back)))) =
      (marks.filter (seesLiteral length excluded region [])).map
        fun mark => (mark.kind, mark.toSpan.slice (front ++ back)) := by
  rw [List.filter_map, List.map_map]
  have hkept : marks.filter (seesLiteral lengthOther others widened [] ∘
      (·.map (·.relocate (Span.moved front.length gap.length)))) =
        marks.filter (seesLiteral length excluded region []) := by
    refine List.filter_congr fun mark hmark => ?_
    obtain ⟨hfirst, hle, _⟩ := hmarks mark hmark
    exact hfollows.seesLiteral_moved hfirst hle length lengthOther
  rw [hkept]
  refine List.map_congr_left fun mark hmark => congrArg (mark.kind, ·) ?_
  obtain ⟨hfirst, hle, hapart⟩ := hmarks mark (List.mem_filter.mp hmark).1
  exact Span.slice_insert gap hfirst hle hapart

theorem bytes_fingerprint_insert (hfull : ∀ piece ∈ front ++ (fillers ++ back), piece.text ≠ [])
    (hfillers : ∀ piece ∈ fillers, Piece.Filler rule piece)
    (hfollows : Follows (Piece.bytes front).length (Piece.bytes fillers).length region excluded
      widened others) :
    ((ofMarks (Piece.bytes (front ++ (fillers ++ back)))
        (Piece.marksFrom 0 (front ++ (fillers ++ back))) others).fingerprint widened []).bytes =
      ((ofMarks (Piece.bytes (front ++ back)) (Piece.marksFrom 0 (front ++ back))
        excluded).fingerprint region []).bytes := by
  rw [bytes_fingerprint, bytes_fingerprint, Piece.bytes_append, Piece.bytes_append,
    Piece.bytes_append]
  refine Bytes.filter_zipIdx_insert (fun index byte hbyte => ?_) fun byte offset => ?_
  · have hwanted : Recorded.visible.wants .comment = true := rfl
    rcases Piece.blank_or_covers_fillers hfillers hwanted (Piece.bytes front).length hbyte with
      hblank | hcomment
    · have hsignificant : isSignificant byte = false := by
        rcases hblank with rfl | rfl <;> decide
      simp [seesByte, hsignificant]
    · have hveiled : Span.cover (veils (Piece.marksFrom 0 (front ++ (fillers ++ back))))
          ((Piece.bytes front).length + index) = true := Piece.covers_of_inner hcomment
      simp [seesByte, hveiled]
  · have hveils : Span.cover (veils (Piece.marksFrom 0 (front ++ (fillers ++ back))))
        (Bytes.moved (Piece.bytes front).length (Piece.bytes fillers).length offset) =
          Span.cover (veils (Piece.marksFrom 0 (front ++ back))) offset :=
      Piece.covers_insert hfull Recorded.visible.wants offset
    have hnone : ∀ offset, Span.cover [] offset = false := fun _ => rfl
    simp only [seesByte, hveils, hfollows.has, hfollows.cover, hnone]

theorem literals_fingerprint_insert
    (hfull : ∀ piece ∈ front ++ (fillers ++ back), piece.text ≠ [])
    (hfillers : ∀ piece ∈ fillers, Piece.Filler rule piece)
    (hfollows : Follows (Piece.bytes front).length (Piece.bytes fillers).length region excluded
      widened others) :
    ((ofMarks (Piece.bytes (front ++ (fillers ++ back)))
        (Piece.marksFrom 0 (front ++ (fillers ++ back))) others).fingerprint widened []).literals =
      ((ofMarks (Piece.bytes (front ++ back)) (Piece.marksFrom 0 (front ++ back))
        excluded).fingerprint region []).literals := by
  rw [literals_fingerprint, literals_fingerprint, Piece.marksFrom_insert hfull,
    Piece.marksFrom_append, Nat.zero_add, Piece.bytes_append, Piece.bytes_append,
    Piece.bytes_append]
  have hnone : ∀ length, (Piece.marksFrom (Piece.bytes front).length fillers).filter
      (seesLiteral length others widened []) = [] := by
    intro length
    rw [List.filter_eq_nil_iff]
    intro mark hmark
    obtain ⟨before, piece, after, rfl, _, rfl⟩ := Piece.mem_marksFrom hmark
    have hkind := (hfillers piece (by simp)).not_literal
    simp [seesLiteral, Piece.mark, hkind]
  rw [List.filter_append, List.filter_append, List.filter_append, hnone, List.nil_append,
    List.map_append, List.map_append, hfollows.literals_moved, hfollows.literals_moved]
  · intro mark hmark
    have hbounds := Piece.bounds_of_mem_marksFrom
      (fun piece hpiece => hfull piece (by simp [hpiece])) hmark
    omega
  · intro mark hmark
    have hbounds := Piece.bounds_of_mem_marksFrom
      (fun piece hpiece => hfull piece (by simp [hpiece])) hmark
    omega

/-- Formatting does not change what is seen of a region that moves along. -/
theorem fingerprint_insert (hfit : Piece.Fit rule (front ++ (fillers ++ back)))
    (hfillers : ∀ piece ∈ fillers, Piece.Filler rule piece)
    (hfollows : Follows (Piece.bytes front).length (Piece.bytes fillers).length region excluded
      widened others) :
    (ofMarks (Piece.bytes (front ++ (fillers ++ back)))
        (Piece.marksFrom 0 (front ++ (fillers ++ back))) others).fingerprint widened [] =
      (ofMarks (Piece.bytes (front ++ back)) (Piece.marksFrom 0 (front ++ back))
        excluded).fingerprint region [] := by
  have hliterals := literals_fingerprint_insert hfit.text_ne_nil hfillers hfollows
  have hbytes := bytes_fingerprint_insert hfit.text_ne_nil hfillers hfollows
  exact Fingerprint.mk.injEq _ _ _ _ ▸ ⟨hliterals, hbytes⟩

end View

end CDelta

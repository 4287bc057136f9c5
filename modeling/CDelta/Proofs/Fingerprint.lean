import CDelta.Outcome
import CDelta.Proofs.Mask
import Mathlib.Data.List.Basic

/-! # What a comparison sees

Two regions compare as the same exactly when their fingerprints are equal. A fingerprint is
read off the source itself: its bytes are those at the offsets that nothing hides, and its
literals those that begin there.
-/

namespace CDelta

namespace Bytes

/-- Numbering a blanked text and dropping its spaces is dropping the hidden offsets. -/
theorem filter_zipIdx_mask (hidden : Nat → Bool) {keep : UInt8 × Nat → Bool}
    (hspace : ∀ offset, keep (Byte.space, offset) = false) (start : Nat) (data : Bytes) :
    ((mask hidden start data).zipIdx start).filter keep =
      (data.zipIdx start).filter fun element => !hidden element.2 && keep element := by
  induction data generalizing start with
  | nil => rfl
  | cons byte rest ih =>
      rw [mask, List.zipIdx_cons, List.zipIdx_cons, List.filter_cons, List.filter_cons, ih]
      by_cases hhidden : hidden start = true
      · simp [hhidden, hspace]
      · simp [hhidden]

end Bytes

namespace View

theorem isSignificant_space : isSignificant Byte.space = false := by decide

/-- Spans that do not end before the text exclude what they hold. -/
theorem excludes_eq_any {excluded : List Span} (hlast : ∀ span ∈ excluded, 0 ≤ span.last)
    (size : Nat) (offset : Int) : excludes size excluded offset = excluded.any (·.has offset) := by
  rw [Bool.eq_iff_iff, excludes, List.any_eq_true, List.any_eq_true]
  refine exists_congr fun span => and_congr_right fun hspan => ?_
  have hnonneg := hlast span hspan
  rw [Span.fromEnd, if_neg (by omega)]

theorem excludes_eq_cover {excluded : List Span} (hlast : ∀ span ∈ excluded, 0 ≤ span.last)
    (size offset : Nat) : excludes size excluded offset = Span.cover excluded offset :=
  excludes_eq_any hlast size offset

/-- The spans of the comments and literals among marks. -/
def veils (marks : List Mark) : List Span :=
  (marks.filter (Recorded.visible.wants ·.kind)).map (·.toSpan)

theorem significant_ofMarks (source : Bytes) (marks : List Mark) (excluded : List Span) :
    (ofMarks source marks excluded).significant =
      source.zipIdx.filter fun element =>
        !Span.cover (veils marks ++ excluded) element.2 && isSignificant element.1 := by
  have hdata : (ofMarks source marks excluded).data =
      Bytes.mask (Span.cover (veils marks ++ excluded)) 0 source := by
    rw [← Bytes.blank_eq_mask, ← Bytes.blank_blank]
    rfl
  rw [significant, hdata]
  exact Bytes.filter_zipIdx_mask _ (fun _ => isSignificant_space) 0 source

/-- A byte is seen in a region. -/
def seesByte (marks : List Mark) (excluded : List Span) (region : Span) (hidden : List Span)
    (element : UInt8 × Nat) : Bool :=
  isSignificant element.1 && region.has element.2 &&
    !(Span.cover (veils marks) element.2 || Span.cover excluded element.2 ||
      Span.cover hidden element.2)

theorem bytes_fingerprint (source : Bytes) (marks : List Mark) (excluded : List Span)
    (region : Span) (hidden : List Span) :
    ((ofMarks source marks excluded).fingerprint region hidden).bytes =
      (source.zipIdx.filter (seesByte marks excluded region hidden)).map (·.1) := by
  simp only [fingerprint, significantIn_eq_filter, significant_ofMarks, List.filter_filter]
  congr 1
  refine List.filter_congr fun element _ => ?_
  rw [Span.cover_append, seesByte, Span.cover, Span.cover, Span.cover]
  generalize hidden.any _ = hides
  cases hides <;> cases region.has element.2 <;> cases isSignificant element.1 <;> simp

/-- A mark is a literal that is seen in a region. -/
def seesLiteral (size : Nat) (excluded : List Span) (region : Span) (hidden : List Span)
    (mark : Mark) : Bool :=
  mark.kind.isLiteral && !excludes size excluded mark.first &&
    region.contains mark.toSpan && !hidden.any (·.has mark.first)

theorem wants_visible_of_isLiteral {kind : MarkKind} (hliteral : kind.isLiteral = true) :
    Recorded.visible.wants kind = true := by
  cases kind <;> simp_all [MarkKind.isLiteral, Recorded.wants, Recorded.visible]

theorem mem_literals_ofMarks {source : Bytes} {marks : List Mark} {excluded : List Span}
    {mark : Mark} :
    mark ∈ (ofMarks source marks excluded).literals ↔
      mark ∈ marks ∧ mark.kind.isLiteral = true ∧
        excludes source.length excluded mark.first = false := by
  simp only [ofMarks, List.mem_filter, Bool.and_eq_true, Bool.not_eq_true']
  constructor
  · rintro ⟨⟨hmark, _⟩, hliteral, hshown⟩
    exact ⟨hmark, hliteral, hshown⟩
  · rintro ⟨hmark, hliteral, hshown⟩
    exact ⟨⟨hmark, wants_visible_of_isLiteral hliteral⟩, hliteral, hshown⟩

theorem literals_fingerprint (source : Bytes) (marks : List Mark) (excluded : List Span)
    (region : Span) (hidden : List Span) :
    ((ofMarks source marks excluded).fingerprint region hidden).literals =
      (marks.filter (seesLiteral source.length excluded region hidden)).map fun mark =>
        (mark.kind, mark.toSpan.slice source) := by
  simp only [fingerprint, literalsIn, ofMarks, List.filter_filter]
  congr 1
  refine List.filter_congr fun mark _ => ?_
  unfold seesLiteral
  by_cases hliteral : mark.kind.isLiteral = true
  · rw [hliteral, wants_visible_of_isLiteral hliteral]
    cases excludes source.length excluded mark.first <;>
      cases region.contains mark.toSpan <;> simp
  · simp [hliteral]

end View

namespace Outcome

theorem firstDifference_eq_none_iff {α κ : Type} [DecidableEq κ] {keyA keyB : α → κ}
    {as bs : List α} :
    firstDifference keyA keyB as bs = none ↔ as.map keyA = bs.map keyB := by
  induction as generalizing bs with
  | nil => cases bs <;> simp [firstDifference]
  | cons a as ih =>
      cases bs with
      | nil => simp [firstDifference]
      | cons b bs =>
          by_cases hkey : keyA a = keyB b <;> simp [firstDifference, hkey, ih]

/-- Regions compare as the same exactly when all that is seen of them is. -/
theorem ofRegions_eq_same_iff {viewA viewB : View} {regionA regionB : Span} :
    ofRegions viewA regionA viewB regionB = .same ↔
      viewA.fingerprint regionA [] = viewB.fingerprint regionB [] := by
  have hliterals : literalDifference viewA regionA viewB regionB = none ↔
      (viewA.fingerprint regionA []).literals = (viewB.fingerprint regionB []).literals := by
    simp [literalDifference, firstDifference_eq_none_iff, View.fingerprint]
  have hbytes : byteDifference viewA regionA viewB regionB = none ↔
      (viewA.fingerprint regionA []).bytes = (viewB.fingerprint regionB []).bytes := by
    simp [byteDifference, firstDifference_eq_none_iff, View.fingerprint]
  have hboth : viewA.fingerprint regionA [] = viewB.fingerprint regionB [] ↔
      literalDifference viewA regionA viewB regionB = none ∧
        byteDifference viewA regionA viewB regionB = none := by
    rw [hliterals, hbytes, ← Fingerprint.mk.injEq]
  rw [hboth, ofRegions]
  cases literalDifference viewA regionA viewB regionB with
  | some difference => simp
  | none => cases byteDifference viewA regionA viewB regionB <;> simp

end Outcome

end CDelta

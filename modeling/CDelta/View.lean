import CDelta.Survey

/-! # Views

A view is what a comparison sees of a file: its literals, and its other bytes with comments
and literals blanked. Excluded spans are blanked as well and the literals that begin in
them are dropped. Spaces, tabs and newlines are never looked at; a carriage return is.
-/

namespace CDelta

namespace Span

/-- The span with a last offset below minus one counted back from the end of a text. -/
def fromEnd (size : Nat) (span : Span) : Span :=
  if span.last < -1 then ⟨span.first, span.last + size⟩ else span

end Span

/-- A file as a comparison sees it. -/
structure View where
  source : Bytes
  /-- The text with comments, literals and excluded spans blanked. -/
  data : Bytes
  excluded : List Span
  literals : List Mark

/-- All that a comparison sees of a region. -/
structure Fingerprint where
  literals : List (MarkKind × Bytes)
  bytes : Bytes
deriving DecidableEq, Repr

namespace View

/-- An offset of a text of some size lies in an excluded span. -/
def excludes (size : Nat) (excluded : List Span) (offset : Int) : Bool :=
  excluded.any fun span => (span.fromEnd size).has offset

/-- The view of a text with its marks. -/
def ofMarks (source : Bytes) (marks : List Mark) (excluded : List Span) : View :=
  let marks := marks.filter (Recorded.visible.wants ·.kind)
  let size := source.length
  { source := source
    data := (source.blankMarks marks).blank excluded
    excluded := excluded
    literals := marks.filter fun mark =>
      mark.kind.isLiteral && !excludes size excluded mark.first }

/-- The view of a text. -/
def ofSource (rule : CommentRule) (source : Bytes) (excluded : List Span) :
    Except Fault View :=
  (source.marks rule .everything).map fun marks => ofMarks source marks excluded

/-- The byte is looked at. -/
def isSignificant (byte : UInt8) : Bool :=
  byte ≠ Byte.space && byte ≠ Byte.tab && byte ≠ Byte.newline

/-- The bytes that are looked at, with their offsets. -/
def significant (view : View) : List (UInt8 × Nat) :=
  view.data.zipIdx.filter fun (byte, _) => isSignificant byte

/-- The literals that lie in a region as a whole. -/
def literalsIn (view : View) (region : Span) : List Mark :=
  view.literals.filter fun mark => region.contains mark.toSpan

/-- The bytes of a region that are looked at, with their offsets. -/
def significantIn (view : View) (region : Span) : List (UInt8 × Nat) :=
  ((region.slice view.data).zipIdx region.first.toNat).filter fun (byte, _) =>
    isSignificant byte

/-- A literal as a comparison sees it. -/
def literalKey (view : View) (mark : Mark) : MarkKind × Bytes :=
  (mark.kind, mark.toSpan.slice view.source)

/-- What is seen of a region when some spans are hidden. A literal is hidden with its first
byte. -/
def fingerprint (view : View) (region : Span) (hidden : List Span) : Fingerprint :=
  let shows (offset : Int) : Bool := !hidden.any (·.has offset)
  { literals := ((view.literalsIn region).filter (shows ·.first)).map view.literalKey
    bytes := ((view.significantIn region).filter fun (_, offset) => shows offset).map (·.1) }

/-- A span begins inside of the text and in no excluded span. -/
def shows (view : View) (span : Span) : Bool :=
  0 ≤ span.first && span.first < view.source.length &&
    !excludes view.source.length view.excluded span.first

/-- The numbered elements from `low` up to `high` are those of the part between them. -/
theorem filter_zipIdx_between {α : Type} (data : List α) (start low high : Nat) :
    (data.zipIdx start).filter (fun element => low ≤ element.2 && element.2 < high) =
      ((data.take (high - start)).drop (low - start)).zipIdx (max low start) := by
  induction data generalizing start with
  | nil => simp
  | cons head rest ih =>
      rw [List.zipIdx_cons]
      by_cases hhigh : start < high
      · have htake : high - start = (high - (start + 1)) + 1 := by omega
        rw [htake, List.take_succ_cons]
        by_cases hlow : low ≤ start
        · have hfirst : low - start = 0 := by omega
          have hnext : low - (start + 1) = 0 := by omega
          have hstart : max low start = start := by omega
          have hsucc : max low (start + 1) = start + 1 := by omega
          rw [List.filter_cons_of_pos (by simp [hlow, hhigh]), ih, hfirst, hnext, hstart, hsucc]
          simp [List.zipIdx_cons]
        · have hdrop : low - start = (low - (start + 1)) + 1 := by omega
          have hmax : max low (start + 1) = max low start := by omega
          rw [List.filter_cons_of_neg (by simp [hlow]), ih, hdrop, List.drop_succ_cons, hmax]
      · have hnone : high - start = 0 := by omega
        have hsome : high - (start + 1) = 0 := by omega
        rw [List.filter_cons_of_neg (by simp; omega), ih, hnone, hsome]
        simp

/-- The bytes looked at in a region are those of the whole file that lie in it. -/
theorem significantIn_eq_filter (view : View) (region : Span) :
    view.significantIn region =
      view.significant.filter fun element => region.has element.2 := by
  have hbetween := filter_zipIdx_between view.data 0 region.first.toNat (region.last + 1).toNat
  simp only [Nat.sub_zero, Nat.max_zero, List.drop_take] at hbetween
  unfold significantIn significant Span.slice
  rw [← hbetween, List.filter_filter, List.filter_filter]
  refine List.filter_congr fun element _ => ?_
  have hhas : region.has element.2 =
      (decide (region.first.toNat ≤ element.2) && decide (element.2 < (region.last + 1).toNat)) := by
    rw [Bool.eq_iff_iff]
    simp only [Span.has_iff, Bool.and_eq_true, decide_eq_true_eq]
    omega
  rw [hhas, Bool.and_comm]

end View

end CDelta

import CDelta.Conditional
import CDelta.Text.Quoted
import CDelta.Text.Utf8

/-! # Conditionals as indented text

One line for each sequence, conditional and branch, indented by its depth: its kind, the
position and the text of its directive, and its span.
-/

namespace CDelta

/-- The directive as it stands in the text: one line without blanks at its ends. -/
def Control.shown (source : Bytes) (control : Control) : Bytes :=
  let spaced := (control.span.slice source).map fun byte =>
    if byte = Byte.newline then Byte.space else byte
  let isMargin : UInt8 → Bool := fun byte => byte = Byte.space || 9 ≤ byte && byte ≤ 13
  ((spaced.dropWhile isMargin).reverse.dropWhile isMargin).reverse

namespace Sequence

/-- One line of a listing. -/
def listingLine (indent : Nat) (kind : String) (position : Int) (directive : Bytes)
    (text : Span) : String :=
  let margin := String.ofList (List.replicate indent ' ')
  let shown := Text.quoted (Text.Utf8.decode directive)
  let first := text.first
  let last := text.last
  s!"{margin}{kind} pid={position} directive={shown} text=[{first}, {last}]"

end Sequence

/-- The line of a branch. -/
def Branch.listingLine (source : Bytes) (indent : Nat) (branch : Branch) : String :=
  Sequence.listingLine indent "AND" branch.opener.index (branch.opener.shown source) branch.text

/-- The line of a conditional. -/
def Conditional.listingLine (source : Bytes) (indent : Nat) (conditional : Conditional) :
    String :=
  Sequence.listingLine indent "OR" conditional.opener.index (conditional.opener.shown source)
    conditional.text

mutual

/-- The lines of the conditionals of a sequence. -/
def Sequence.listingLines (source : Bytes) (indent : Nat) : Sequence → List String
  | .nil => []
  | .cons first rest =>
    first.listingLine source indent ::
      (first.branchLines source (indent + 1) ++ rest.listingLines source indent)

/-- The lines of the branches of a conditional. -/
def Conditional.branchLines (source : Bytes) (indent : Nat) : Conditional → List String
  | .last opener closer body =>
    Branch.listingLine source indent ⟨opener, closer, body⟩ ::
      body.listingLines source (indent + 1)
  | .more opener closer body rest =>
    Branch.listingLine source indent ⟨opener, closer, body⟩ ::
      (body.listingLines source (indent + 1) ++ rest.branchLines source indent)

end

namespace Sequence

/-- The listing of a whole text's conditionals. -/
def listing (source : Bytes) (sequence : Sequence) : String :=
  "\n".intercalate
    (listingLine 0 "AND" (-1) [] sequence.text :: sequence.listingLines source 1)

end Sequence

end CDelta

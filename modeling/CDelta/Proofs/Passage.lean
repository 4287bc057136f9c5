import CDelta.Proofs.Lexing

/-! # Where the pass stands

The pass over a text comes to an offset in code when it has cut off whole pieces in front of
it. What it marks from there on depends on nothing in front. A pass that fails has come in code
to a comment that never ends.
-/

namespace CDelta

namespace Bytes

/-- An opening comment bracket stands at an offset. -/
def OpensCommentAt (data : Bytes) (offset : Nat) : Prop :=
  data[offset]? = some Byte.slash ∧ data[offset + 1]? = some Byte.star

/-- A closing comment bracket stands at an offset. -/
def ClosesCommentAt (data : Bytes) (offset : Nat) : Prop :=
  data[offset]? = some Byte.star ∧ data[offset + 1]? = some Byte.slash

instance (data : Bytes) (offset : Nat) : Decidable (data.OpensCommentAt offset) :=
  inferInstanceAs (Decidable (_ ∧ _))

instance (data : Bytes) (offset : Nat) : Decidable (data.ClosesCommentAt offset) :=
  inferInstanceAs (Decidable (_ ∧ _))

/-- The pass comes to an offset outside of all literals, comments and escapes. -/
def InCode (data : Bytes) (rule : CommentRule) (offset : Nat) : Prop :=
  ∃ front after, Piece.Leads rule after front ∧ data = Piece.bytes front ++ after ∧
    offset = (Piece.bytes front).length

/-- From an offset in code on, the pass goes over the text as if it began there. -/
theorem InCode.marking_eq {data : Bytes} {rule : CommentRule} {offset : Nat}
    (hcode : data.InCode rule offset) :
    ∃ front, offset = (Piece.bytes front).length ∧ (∀ piece ∈ front, piece.text ≠ []) ∧
      data.marking rule =
        { Marking.scan rule offset (data.drop offset) with
          marks := Piece.marksFrom 0 front ++
            (Marking.scan rule offset (data.drop offset)).marks } := by
  obtain ⟨front, after, hleads, rfl, rfl⟩ := hcode
  refine ⟨front, rfl, hleads.text_ne_nil, ?_⟩
  rw [List.drop_left, marking, hleads.scan, Nat.zero_add]

/-- The pass fails exactly when it comes in code to a comment that never ends. -/
theorem openComment_eq_some_iff {data : Bytes} {rule : CommentRule} {offset : Nat} :
    (data.marking rule).openComment = some offset ↔
      data.InCode rule offset ∧ rule.Endless (data.drop offset) := by
  constructor
  · intro hopen
    obtain ⟨front, after, rfl, hleads, hend⟩ := Piece.exists_leads rule data
    rw [marking, hleads.scan, Nat.zero_add] at hopen
    rcases hend with rfl | hendless
    · simp [Marking.scan, Marking.done] at hopen
    · rw [hendless.scan] at hopen
      obtain rfl : (Piece.bytes front).length = offset := Option.some.inj hopen
      rw [List.drop_left]
      exact ⟨⟨front, after, hleads, rfl, rfl⟩, hendless⟩
  · rintro ⟨hcode, hendless⟩
    obtain ⟨front, _, _, hmarking⟩ := hcode.marking_eq
    rw [hmarking, hendless.scan]
    rfl

end Bytes

end CDelta

import CDelta.Proofs.Passage
import CDelta.Proofs.Spelling

/-! # Comments that both rules end alike

A comment with no other comment in it ends at its first closing bracket, whether comments nest
or not. The rule for nested comments reads tokens, and there is one token that hides a closing
bracket from it: an equals sign in front of the bracket takes the star for an operator, unless
it belongs to an operator in front of it.
-/

namespace CDelta

namespace Bytes

/-- The first closing comment bracket from an offset on, with no opening one in front of it. -/
structure ClosesFrom (data : Bytes) (start closer : Nat) : Prop where
  behind : start ≤ closer
  closes : data.ClosesCommentAt closer
  earliest : ∀ offset, start ≤ offset → offset < closer → ¬ data.ClosesCommentAt offset
  alone : ∀ offset, start ≤ offset → offset < closer → ¬ data.OpensCommentAt offset

/-- Dropping bytes in front of the closing bracket moves it. -/
theorem ClosesFrom.drop {data : Bytes} {start closer distance : Nat}
    (hcloses : data.ClosesFrom start closer) (hstart : start ≤ distance)
    (hdistance : distance ≤ closer) : ClosesFrom (data.drop distance) 0 (closer - distance) := by
  have hplace : distance + (closer - distance) = closer := by omega
  refine ⟨Nat.zero_le _, ?_, fun offset _ hoffset hhere => ?_, fun offset _ hoffset hhere => ?_⟩
  · rw [ClosesCommentAt, List.getElem?_drop, List.getElem?_drop, ← Nat.add_assoc, hplace]
    exact hcloses.closes
  · rw [ClosesCommentAt, List.getElem?_drop, List.getElem?_drop, ← Nat.add_assoc] at hhere
    exact hcloses.earliest _ (by omega) (by omega) hhere
  · rw [OpensCommentAt, List.getElem?_drop, List.getElem?_drop, ← Nat.add_assoc] at hhere
    exact hcloses.alone _ (by omega) (by omega) hhere

end Bytes

namespace CommentRule

end CommentRule

namespace Token

end Token

namespace Bracket

end Bracket

namespace Bytes.ClosesFrom

open Token

variable {place : Nat} {rest gap body after : Bytes} {token : Token}

theorem not_blank (hcloses : rest.ClosesFrom 0 place) : ¬ Blank rest := by
  intro hblank
  have hstar := hblank Byte.star (List.mem_of_getElem? hcloses.closes.1)
  exact absurd hstar (by decide)

end Bytes.ClosesFrom

namespace Bytes

namespace SimpleComment

variable {data : Bytes} {first closer : Nat}

end SimpleComment

end Bytes

end CDelta

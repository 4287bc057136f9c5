import CDelta.Mark.Lexical
import CDelta.Proofs.Token

/-! # Where a comment ends

The end of a comment is decided by the bytes of the comment alone: neither the offset it
stands at nor anything behind its closing bracket matters. For nested comments this is so
because a closing bracket is one token and two single delimiters, which no later byte can
change.
-/

namespace CDelta

namespace Bracket

theorem closer?_mem {bracket : Bracket} {depth : Nat} {tokens : List Token} {closer : Token}
    (hcloser : bracket.closer? depth tokens = some closer) : closer ∈ tokens := by
  induction tokens generalizing depth with
  | nil => simp [closer?] at hcloser
  | cons token rest ih =>
      unfold closer? at hcloser
      split at hcloser
      next =>
        obtain rfl := Option.some.inj hcloser
        exact List.mem_cons_self
      next => exact List.mem_cons_of_mem _ (ih hcloser)

theorem closerIn?_mem {bracket : Bracket} {depth start : Nat} {rest : Bytes} {closer : Token}
    (hcloser : bracket.closerIn? depth start rest = some closer) :
    closer ∈ Token.scan start rest := by
  rw [closerIn?_eq_closer?] at hcloser
  exact closer?_mem hcloser

theorem closerIn?_of_next? {bracket : Bracket} {depth start : Nat} {rest : Bytes}
    {token : Token} {after : Bytes} (hnext : Token.next? start rest = some (token, after)) :
    bracket.closerIn? depth start rest =
      match bracket.depthAfter depth token.text with
      | 0 => some token
      | inner + 1 => bracket.closerIn? (inner + 1) (token.last + 1) after := by
  rw [closerIn?]
  split
  next hnone => simp [hnext] at hnone
  next hsome =>
    obtain ⟨rfl, rfl⟩ := Prod.mk.inj (Option.some.inj (hnext.symm.trans hsome))
    rfl

theorem closerIn?_of_blank {bracket : Bracket} {depth start : Nat} {rest : Bytes}
    (hblank : Token.Blank rest) : bracket.closerIn? depth start rest = none := by
  rw [closerIn?_eq_closer?, Token.scan_of_blank hblank]
  rfl

theorem closerIn?_shift (bracket : Bracket) (depth start distance : Nat) (rest : Bytes) :
    bracket.closerIn? depth (start + distance) rest =
      (bracket.closerIn? depth start rest).map (·.relocate (· + distance)) := by
  cases hnext : Token.next? start rest with
  | none =>
      have hblank := Token.next?_eq_none_iff.mp hnext
      rw [closerIn?_of_blank hblank, closerIn?_of_blank hblank]
      rfl
  | some found =>
      have hshorter := Token.length_lt_of_next? hnext
      have hmoved := Token.next?_shift start distance rest
      rw [hnext, Option.map_some] at hmoved
      rw [closerIn?_of_next? hmoved, closerIn?_of_next? hnext]
      have hlast : (found.1.relocate (· + distance)).last + 1 = found.1.last + 1 + distance := by
        simp only [Token.relocate]
        omega
      rw [hlast]
      simp only [Token.relocate]
      split
      next => rfl
      next inner _ => exact closerIn?_shift bracket (inner + 1) (found.1.last + 1) distance found.2
termination_by rest.length

/-- A closing comment bracket is one token whatever follows it. -/
theorem next?_closing_congr {start : Nat} {front back kept : Bytes} {token : Token}
    (hnext : Token.next? start (front ++ back) = some (token, kept ++ back))
    (htext : token.text = comment.closing) (other : Bytes) :
    Token.next? start (front ++ other) = some (token, kept ++ other) := by
  rcases Token.next?_eq_some_iff.mp hnext with
    ⟨hbasic, _⟩ | ⟨left, tail, right, hleft, hright, hjoins, rfl⟩
  · obtain ⟨_, _, _, hsingle | ⟨hword, _⟩, _⟩ := Token.basic?_eq_some_iff.mp hbasic
    · obtain ⟨byte, heq, _⟩ := hsingle
      simp [htext, comment] at heq
    · rw [htext] at hword
      exact absurd hword (by decide)
  · obtain ⟨_, _, _, hbasicLeft, _⟩ := Token.basic?_eq_some_iff.mp hleft
    obtain ⟨_, _, _, hbasicRight, _⟩ := Token.basic?_eq_some_iff.mp hright
    have hslash : right.text = [Byte.slash] := by
      obtain ⟨first, more, hfirst⟩ := List.exists_cons_of_ne_nil hbasicLeft.ne_nil
      obtain ⟨second, rest, hsecond⟩ := List.exists_cons_of_ne_nil hbasicRight.ne_nil
      simp only [comment, hfirst, hsecond, List.cons_append, List.cons.injEq] at htext
      obtain ⟨_, htail⟩ := htext
      cases more with
      | nil => rw [hsecond]; exact htail
      | cons third others =>
          have hlength := congrArg List.length htail
          simp only [List.cons_append, List.length_cons, List.length_append, List.length_nil]
            at hlength
          omega
    refine Token.next?_join_congr hleft hright hjoins fun hword => ?_
    rw [hslash] at hword
    exact absurd hword (by decide)

/-- The token that closes a comment is found whatever follows it. -/
theorem closerIn?_congr_after {depth start : Nat} {front back : Bytes} {closer : Token}
    (hcloser : comment.closerIn? (depth + 1) start (front ++ back) = some closer)
    (hlast : closer.last + 1 = start + front.length) (other : Bytes) :
    comment.closerIn? (depth + 1) start (front ++ other) = some closer := by
  cases hnext : Token.next? start (front ++ back) with
  | none =>
      rw [closerIn?_of_blank (Token.next?_eq_none_iff.mp hnext)] at hcloser
      simp at hcloser
  | some found =>
      obtain ⟨token, after⟩ := found
      obtain ⟨gap, byte, more, _, _, _, hsplit, hfirst, hend⟩ := Token.next?_place hnext
      rw [closerIn?_of_next? hnext] at hcloser
      -- The bytes up to the end of the token all lie in `front`.
      have hprefix : token.last + 1 ≤ start + front.length →
          ∃ kept, front = gap ++ byte :: more ++ kept ∧ after = kept ++ back := by
        intro hle
        have happend : front ++ back = (gap ++ byte :: more) ++ after := by simpa using hsplit
        rcases List.append_eq_append_iff.mp happend with
          ⟨kept, hkept, hafter⟩ | ⟨kept, hkept, hafter⟩
        · have hlength := congrArg List.length hkept
          simp only [List.length_append, List.length_cons] at hlength
          obtain rfl : kept = [] := List.eq_nil_of_length_eq_zero (by omega)
          exact ⟨[], by simpa using hkept.symm, by simpa using hafter.symm⟩
        · exact ⟨kept, hkept, hafter⟩
      split at hcloser
      next hdepth =>
        obtain rfl := Option.some.inj hcloser
        obtain ⟨kept, _, rfl⟩ := hprefix (by omega)
        have hmoved := next?_closing_congr hnext (text_of_depthAfter_eq_zero hdepth) other
        rw [closerIn?_of_next? hmoved, hdepth]
      next inner hdepth =>
        obtain ⟨index, first, hplace, hbyte, _, hblank, hle, _⟩ :=
          Token.mem_scan (closerIn?_mem hcloser)
        obtain ⟨kept, hkept, rfl⟩ := hprefix (by omega)
        have hlength : front.length = gap.length + 1 + more.length + kept.length := by
          rw [hkept]
          simp only [List.length_append, List.length_cons]
          omega
        have hinside : first ∈ kept := by
          rw [List.getElem?_append_left (by omega)] at hbyte
          exact List.mem_of_getElem? hbyte
        have hmoved := Token.next?_congr_after hnext ⟨first, hinside, hblank⟩ other
        rw [closerIn?_of_next? hmoved, hdepth]
        exact closerIn?_congr_after hcloser (by omega) other
termination_by front.length
decreasing_by omega

end Bracket

namespace Token

/-- An opening comment bracket is one token. -/
theorem next?_opening (start : Nat) (rest : Bytes) :
    next? start (Byte.slash :: Byte.star :: rest) =
      some (⟨start, start + 1, Bracket.comment.opening⟩, rest) :=
  next?_operator (by decide) start rest

end Token

namespace CommentRule

theorem flatRest_bounds {data : Bytes} {size : Nat} (hsize : flatRest data = some size) :
    2 ≤ size ∧ size ≤ data.length := by
  fun_induction flatRest data generalizing size with
  | case1 => simp at hsize
  | case2 => simp at hsize
  | case3 a b rest hclosing =>
      obtain rfl := Option.some.inj hsize
      simp
  | case4 a b rest hclosing ih =>
      obtain ⟨inner, hinner, rfl⟩ := Option.map_eq_some_iff.mp hsize
      have hbounds := ih hinner
      simp only [List.length_cons] at hbounds ⊢
      omega

theorem flatRest_congr_after {front back : Bytes}
    (hsize : flatRest (front ++ back) = some front.length) (other : Bytes) :
    flatRest (front ++ other) = some front.length := by
  match front with
  | [] =>
      have hbounds := flatRest_bounds hsize
      simp at hbounds
  | [a] =>
      have hbounds := flatRest_bounds hsize
      simp at hbounds
  | a :: b :: rest =>
      simp only [List.cons_append, flatRest, List.length_cons] at hsize ⊢
      split at hsize
      next hclosing => rw [if_pos hclosing, hsize]
      next hclosing =>
        obtain ⟨inner, hinner, heq⟩ := Option.map_eq_some_iff.mp hsize
        have hrest : flatRest (b :: rest ++ back) = some (b :: rest).length := by
          rw [List.cons_append, hinner, List.length_cons]
          congr 1
          omega
        have hmoved := flatRest_congr_after hrest other
        rw [if_neg hclosing]
        rw [List.cons_append, List.length_cons] at hmoved
        rw [hmoved]
        rfl

theorem nested_length? (start : Nat) (rest : Bytes) :
    nested.length? start (Byte.slash :: Byte.star :: rest) =
      (Bracket.comment.closerIn? 1 (start + 2) rest).map (·.last + 1 - start) := by
  rw [length?, Bracket.closerIn?_of_next? (Token.next?_opening start rest)]
  rfl

theorem flat_length? (start : Nat) (rest : Bytes) :
    flat.length? start (Byte.slash :: Byte.star :: rest) = (flatRest rest).map (· + 2) := rfl

/-- A comment is longer than its opening bracket and no longer than the text. -/
theorem length?_bounds {rule : CommentRule} {start : Nat} {rest : Bytes} {size : Nat}
    (hsize : rule.length? start (Byte.slash :: Byte.star :: rest) = some size) :
    2 < size ∧ size ≤ rest.length + 2 := by
  cases rule with
  | nested =>
      rw [nested_length?] at hsize
      obtain ⟨closer, hcloser, rfl⟩ := Option.map_eq_some_iff.mp hsize
      obtain ⟨index, _, hfirst, _, _, _, hle, hlt⟩ :=
        Token.mem_scan (Bracket.closerIn?_mem hcloser)
      omega
  | flat =>
      rw [flat_length?] at hsize
      obtain ⟨inner, hinner, rfl⟩ := Option.map_eq_some_iff.mp hsize
      have hbounds := flatRest_bounds hinner
      omega

/-- Whether some bytes are a comment depends neither on their offset nor on what follows. -/
theorem length?_congr_after {rule : CommentRule} {start : Nat} {front back : Bytes}
    (hsize : rule.length? start (Byte.slash :: Byte.star :: (front ++ back)) =
      some (front.length + 2)) (place : Nat) (other : Bytes) :
    rule.length? place (Byte.slash :: Byte.star :: (front ++ other)) =
      some (front.length + 2) := by
  cases rule with
  | nested =>
      rw [nested_length?] at hsize ⊢
      obtain ⟨closer, hcloser, hlength⟩ := Option.map_eq_some_iff.mp hsize
      have hmoved := Bracket.closerIn?_congr_after hcloser (by omega) other
      -- Both offsets are moved from zero, where the closer is the same token.
      have hstart := Bracket.closerIn?_shift .comment 1 2 start (front ++ other)
      have hplace := Bracket.closerIn?_shift .comment 1 2 place (front ++ other)
      rw [Nat.add_comm 2 start, hmoved] at hstart
      obtain ⟨base, hbase, hrelocated⟩ := Option.map_eq_some_iff.mp hstart.symm
      rw [Nat.add_comm place 2, hplace, hbase]
      have hbaseLast : base.last + start = closer.last := congrArg Token.last hrelocated
      simp only [Option.map_some, Token.relocate, Option.some.injEq]
      omega
  | flat =>
      rw [flat_length?] at hsize ⊢
      obtain ⟨inner, hinner, hlength⟩ := Option.map_eq_some_iff.mp hsize
      obtain rfl : inner = front.length := by omega
      rw [flatRest_congr_after hinner other]
      rfl

/-- The length of a comment does not depend on its offset. -/
theorem length?_start (rule : CommentRule) (start place : Nat) (rest : Bytes) :
    rule.length? start (Byte.slash :: Byte.star :: rest) =
      rule.length? place (Byte.slash :: Byte.star :: rest) := by
  have hmove : ∀ {first second size : Nat},
      rule.length? first (Byte.slash :: Byte.star :: rest) = some size →
        rule.length? second (Byte.slash :: Byte.star :: rest) = some size := by
    intro first second size hsize
    obtain ⟨hlow, hhigh⟩ := length?_bounds hsize
    have hfront : (rest.take (size - 2)).length + 2 = size := by
      rw [List.length_take]
      omega
    have hsplit : rest.take (size - 2) ++ rest.drop (size - 2) = rest :=
      List.take_append_drop (size - 2) rest
    have hcut : rule.length? first
        (Byte.slash :: Byte.star :: (rest.take (size - 2) ++ rest.drop (size - 2))) =
          some ((rest.take (size - 2)).length + 2) := by
      rw [hsplit, hsize, hfront]
    have hmoved := length?_congr_after hcut second (rest.drop (size - 2))
    rwa [hsplit, hfront] at hmoved
  cases hstart : rule.length? start (Byte.slash :: Byte.star :: rest) with
  | some size => exact (hmove hstart).symm
  | none =>
      cases hplace : rule.length? place (Byte.slash :: Byte.star :: rest) with
      | some size => simp [hmove hplace] at hstart
      | none => rfl

end CommentRule

end CDelta

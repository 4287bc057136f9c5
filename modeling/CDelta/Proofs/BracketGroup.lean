import CDelta.Bracket
import Mathlib.Data.List.Basic

/-! # Bracket groups by grammar

The search for the end of a group counts the groups that are open. A grammar says the same
without counting: balanced texts are none, or a text that is no bracket in front of balanced
ones, or a group in front of balanced ones, where a group holds balanced texts between its
brackets. The search stops where the group of the grammar ends, and fails when the tokens do
not begin with one.
-/

namespace CDelta

namespace Bracket

/-- Texts in which the brackets belong together in pairs. -/
inductive Balanced (bracket : Bracket) : List Bytes → Prop
  | nil : Balanced bracket []
  | other {text : Bytes} {rest : List Bytes} (hopening : text ≠ bracket.opening)
      (hclosing : text ≠ bracket.closing) (hrest : Balanced bracket rest) :
      Balanced bracket (text :: rest)
  | group {inner rest : List Bytes} (hinner : Balanced bracket inner)
      (hrest : Balanced bracket rest) :
      Balanced bracket (bracket.opening :: (inner ++ bracket.closing :: rest))

/-- The tokens begin with a group, and `closer` is the token that closes it. -/
def Encloses (bracket : Bracket) (tokens : List Token) (closer : Token) : Prop :=
  ∃ opener inner rest, tokens = opener :: (inner ++ closer :: rest) ∧
    opener.text = bracket.opening ∧ bracket.Balanced (inner.map (·.text)) ∧
    closer.text = bracket.closing

variable {bracket : Bracket} {token closer : Token} {rest tokens : List Token} {depth : Nat}

theorem closer?_opening (htext : token.text = bracket.opening) :
    bracket.closer? depth (token :: rest) = bracket.closer? (depth + 1) rest := by
  simp [closer?, depthAfter, htext]

theorem closer?_closing (hdistinct : bracket.opening ≠ bracket.closing)
    (htext : token.text = bracket.closing) :
    bracket.closer? (depth + 1) (token :: rest) =
      if depth = 0 then some token else bracket.closer? depth rest := by
  cases depth <;> simp [closer?, depthAfter, htext, hdistinct.symm]

theorem closer?_other (hopening : token.text ≠ bracket.opening)
    (hclosing : token.text ≠ bracket.closing) :
    bracket.closer? (depth + 1) (token :: rest) = bracket.closer? (depth + 1) rest := by
  simp [closer?, depthAfter, hopening, hclosing]

/-- The search passes over balanced tokens. -/
theorem Balanced.closer?_append (hdistinct : bracket.opening ≠ bracket.closing)
    {inner : List Token} (hbalanced : bracket.Balanced (inner.map (·.text))) (depth : Nat)
    (rest : List Token) :
    bracket.closer? (depth + 1) (inner ++ rest) = bracket.closer? (depth + 1) rest := by
  generalize htexts : inner.map (·.text) = texts at hbalanced
  induction hbalanced generalizing inner depth rest with
  | nil =>
      rw [List.map_eq_nil_iff.mp htexts, List.nil_append]
  | other hopening hclosing _ ih =>
      obtain ⟨token, more, rfl, rfl, hmore⟩ := List.map_eq_cons_iff.mp htexts
      rw [List.cons_append, closer?_other hopening hclosing]
      exact ih depth rest hmore
  | group _ _ ihInner ihRest =>
      obtain ⟨opener, more, rfl, hopener, hmore⟩ := List.map_eq_cons_iff.mp htexts
      obtain ⟨within, behind, rfl, hwithin, hbehind⟩ := List.map_eq_append_iff.mp hmore
      obtain ⟨closer, after, rfl, hcloser, hafter⟩ := List.map_eq_cons_iff.mp hbehind
      -- the group goes one level down and comes back
      rw [List.cons_append, closer?_opening hopener, List.append_assoc,
        ihInner (depth + 1) _ hwithin, List.cons_append, closer?_closing hdistinct hcloser,
        if_neg (Nat.succ_ne_zero depth)]
      exact ihRest depth rest hafter

/-- In front of the token at which the search first comes back to its level the tokens are
balanced. -/
theorem exists_balanced_of_closer? (hdistinct : bracket.opening ≠ bracket.closing)
    (hcloser : bracket.closer? (depth + 1) tokens = some closer) :
    ∃ inner token rest, tokens = inner ++ token :: rest ∧
      bracket.Balanced (inner.map (·.text)) ∧ token.text = bracket.closing := by
  induction hlength : tokens.length using Nat.strongRecOn generalizing tokens depth with
  | ind length ih =>
      cases tokens with
      | nil => simp [closer?] at hcloser
      | cons token rest =>
          rw [List.length_cons] at hlength
          by_cases hopening : token.text = bracket.opening
          · -- the group that opens here ends, and the search goes on behind it
            rw [closer?_opening hopening] at hcloser
            obtain ⟨inner, last, after, rfl, hinner, hlast⟩ := ih _ (by omega) hcloser rfl
            rw [hinner.closer?_append hdistinct, closer?_closing hdistinct hlast,
              if_neg (Nat.succ_ne_zero depth)] at hcloser
            rw [List.length_append, List.length_cons] at hlength
            obtain ⟨more, found, behind, rfl, hmore, hfound⟩ := ih _ (by omega) hcloser rfl
            refine ⟨token :: (inner ++ last :: more), found, behind, by simp, ?_, hfound⟩
            rw [List.map_cons, List.map_append, List.map_cons, hopening, hlast]
            exact .group hinner hmore
          · by_cases hclosing : token.text = bracket.closing
            · exact ⟨[], token, rest, rfl, .nil, hclosing⟩
            · rw [closer?_other hopening hclosing] at hcloser
              obtain ⟨inner, found, behind, rfl, hinner, hfound⟩ := ih _ (by omega) hcloser rfl
              exact ⟨token :: inner, found, behind, rfl, .other hopening hclosing hinner, hfound⟩

/-- The search behind an opening token finds the end of the group. -/
theorem Encloses.closer?_eq (hdistinct : bracket.opening ≠ bracket.closing)
    (hencloses : bracket.Encloses (token :: rest) closer) :
    token.text = bracket.opening ∧ bracket.closer? 1 rest = some closer := by
  obtain ⟨opener, inner, after, htokens, hopener, hinner, hcloser⟩ := hencloses
  obtain ⟨rfl, rfl⟩ := List.cons.inj htokens
  refine ⟨hopener, ?_⟩
  rw [hinner.closer?_append hdistinct, closer?_closing hdistinct hcloser, if_pos rfl]

theorem encloses_of_closer? (hdistinct : bracket.opening ≠ bracket.closing)
    (hopening : token.text = bracket.opening) (hcloser : bracket.closer? 1 rest = some closer) :
    bracket.Encloses (token :: rest) closer := by
  obtain ⟨inner, last, after, rfl, hinner, hlast⟩ := exists_balanced_of_closer? hdistinct hcloser
  rw [hinner.closer?_append hdistinct, closer?_closing hdistinct hlast, if_pos rfl] at hcloser
  obtain rfl := Option.some.inj hcloser
  exact ⟨token, inner, after, rfl, hopening, hinner, hlast⟩

theorem Encloses.unique (hdistinct : bracket.opening ≠ bracket.closing) {other : Token}
    (hencloses : bracket.Encloses tokens closer) (hother : bracket.Encloses tokens other) :
    closer = other := by
  cases tokens with
  | nil =>
      obtain ⟨_, _, _, htokens, _⟩ := hencloses
      cases htokens
  | cons token rest =>
      have hfirst := (hencloses.closer?_eq hdistinct).2
      have hsecond := (hother.closer?_eq hdistinct).2
      exact Option.some.inj (hfirst.symm.trans hsecond)

/-- The search answers with the end of the group that the tokens begin with, or with a fault
about its own bracket when they begin with none. -/
theorem closingOffset_cases (hdistinct : bracket.opening ≠ bracket.closing) (data : Bytes)
    (index : Int) :
    (∃ closer, bracket.Encloses (data.tokensFrom index) closer ∧
        bracket.closingOffset data index = .ok closer.first) ∨
      (∀ closer, ¬ bracket.Encloses (data.tokensFrom index) closer) ∧
        ∃ line found,
          bracket.closingOffset data index = .error (.unmatched bracket.opening line found) := by
  unfold closingOffset
  cases htokens : data.tokensFrom index with
  | nil =>
      refine .inr ⟨fun closer hencloses => ?_, _, _, rfl⟩
      obtain ⟨_, _, _, hnil, _⟩ := hencloses
      cases hnil
  | cons token rest =>
      by_cases hopening : token.text = bracket.opening
      · cases hcloser : bracket.closer? 1 rest with
        | some closer =>
            refine .inl ⟨closer, encloses_of_closer? hdistinct hopening hcloser, ?_⟩
            simp [hopening, hcloser]
        | none =>
            refine .inr ⟨fun closer hencloses => ?_, data.lineOf index, none, ?_⟩
            · rw [(hencloses.closer?_eq hdistinct).2] at hcloser
              cases hcloser
            · simp [hopening, hcloser]
      · refine .inr ⟨fun closer hencloses => ?_, data.lineAt token.first, some token.text, ?_⟩
        · exact hopening (hencloses.closer?_eq hdistinct).1
        · simp [hopening]

end Bracket

/-- The end of a group is where the grammar has it: the offset of the closing token of the group
that the tokens from the index on begin with. There is at most one such token, and when there is
none the answer is a fault about the bracket. -/
theorem closing_offset_by_grammar {bracket : Bracket}
    (hdistinct : bracket.opening ≠ bracket.closing) (data : Bytes) (index : Int) :
    (∀ place, bracket.closingOffset data index = .ok place ↔
      ∃ closer, bracket.Encloses (data.tokensFrom index) closer ∧ closer.first = place) ∧
    ((∀ closer, ¬ bracket.Encloses (data.tokensFrom index) closer) ↔
      ∃ line found,
        bracket.closingOffset data index = .error (.unmatched bracket.opening line found)) ∧
    ∀ closer other, bracket.Encloses (data.tokensFrom index) closer →
      bracket.Encloses (data.tokensFrom index) other → closer = other := by
  refine ⟨fun place => ?_, ?_, fun closer other => Bracket.Encloses.unique hdistinct⟩
  · rcases bracket.closingOffset_cases hdistinct data index with
      ⟨closer, hencloses, hok⟩ | ⟨hnone, line, found, herror⟩
    · rw [hok, Except.ok.injEq]
      constructor
      · exact fun hplace => ⟨closer, hencloses, hplace⟩
      · rintro ⟨other, hother, rfl⟩
        rw [hencloses.unique hdistinct hother]
    · rw [herror]
      exact iff_of_false (by simp) fun ⟨closer, hencloses, _⟩ => hnone closer hencloses
  · rcases bracket.closingOffset_cases hdistinct data index with
      ⟨closer, hencloses, hok⟩ | ⟨hnone, hfault⟩
    · exact iff_of_false (fun hnone => hnone closer hencloses) (by simp [hok])
    · exact iff_of_true hnone hfault

/-- A comment in a comment, and an operator in front of the bracket that closes the outer one:
the second closing bracket ends the group, and the third belongs to none. -/
theorem closing_offset_by_grammar_nested_comment :
    let data := Bytes.ofChars "a /*b/**/==*/*/".toList
    Bracket.comment.opening ≠ Bracket.comment.closing ∧
      Bracket.comment.closingOffset data 1 = .ok 11 ∧
      ∃ closer, Bracket.comment.Encloses (data.tokensFrom 1) closer ∧ closer.first = 11 := by
  intro data
  have hdistinct : Bracket.comment.opening ≠ Bracket.comment.closing := by decide
  have hplace : Bracket.comment.closingOffset data 1 = .ok 11 := by decide +kernel
  exact ⟨hdistinct, hplace, ((closing_offset_by_grammar hdistinct data 1).1 11).mp hplace⟩

end CDelta

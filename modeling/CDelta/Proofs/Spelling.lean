import CDelta.Proofs.Token

/-! # How tokens are spelled

A token takes up a stretch of the text: a delimiter, a word, an operator, or a hash with its
word and the blanks between the two. Its own text is that stretch without blanks, so a token
is determined by where it stands.
-/

namespace CDelta

namespace Token

/-- A stretch of text is a token with a text. -/
inductive Spells : Bytes → Bytes → Prop
  | single {byte : UInt8} (hdelimiter : isDelimiter byte = true) (hblank : isBlank byte = false) :
      Spells [byte] [byte]
  | word {text : Bytes} (hword : isWord text = true) : Spells text text
  | operator {left right : UInt8} (hfuses : fuses [left] [right] = true) :
      Spells [left, right] [left, right]
  | hash {gap word : Bytes} (hgap : Blank gap) (hword : isWord word = true) :
      Spells (Byte.hash :: (gap ++ word)) (Byte.hash :: word)

theorem IsBasic.spells {text after : Bytes} (hbasic : IsBasic text after) : Spells text text := by
  rcases hbasic with ⟨byte, rfl, hdelimiter, hblank⟩ | ⟨hword, _⟩
  · exact .single hdelimiter hblank
  · exact .word hword

/-- Two basic tokens that join spell one token. -/
theorem spells_of_joins {left right : Token} {gap : Bytes} (hgap : Blank gap)
    (hjoins : joins left gap right = true) :
    Spells (left.text ++ (gap ++ right.text)) (left.text ++ right.text) := by
  unfold joins at hjoins
  split at hjoins
  next hhash =>
    rw [hhash]
    exact .hash hgap (Bool.and_eq_true_iff.mp hjoins).1
  next =>
    obtain ⟨hempty, hfuses⟩ := Bool.and_eq_true_iff.mp hjoins
    obtain rfl := List.isEmpty_iff.mp hempty
    obtain ⟨first, second, hfirst, hsecond, hfuses⟩ := exists_bytes_of_fuses hfuses
    rw [hfirst, hsecond]
    exact .operator hfuses

/-- A token is read off the stretch behind the blanks in front of it. -/
theorem next?_spells {start : Nat} {rest : Bytes} {token : Token} {after : Bytes}
    (hnext : next? start rest = some (token, after)) :
    ∃ gap body, Blank gap ∧ rest = gap ++ (body ++ after) ∧ Spells body token.text ∧
      token.first = start + gap.length ∧ token.last + 1 = token.first + body.length := by
  rcases next?_eq_some_iff.mp hnext with
    ⟨hbasic, _⟩ | ⟨left, tail, right, hleft, hright, hjoins, rfl⟩
  · obtain ⟨gap, hgap, hrest, htext, hplace⟩ := basic?_eq_some_iff.mp hbasic
    exact ⟨gap, token.text, hgap, hrest, htext.spells, hplace⟩
  · obtain ⟨gap, hgap, rfl, _, hfirst, hlast⟩ := basic?_eq_some_iff.mp hleft
    obtain ⟨inner, hinner, rfl, hbasic, hrfirst, hrlast⟩ := basic?_eq_some_iff.mp hright
    have hblanks : (inner ++ (right.text ++ after)).takeWhile isBlank = inner := by
      obtain ⟨byte, more, hmore⟩ := List.exists_cons_of_ne_nil hbasic.ne_nil
      rw [hmore] at hbasic ⊢
      rw [takeWhile_blank_append hinner]
      simp [hbasic.head_not_blank]
    rw [hblanks] at hjoins
    refine ⟨gap, left.text ++ (inner ++ right.text), hgap, by simp, spells_of_joins hinner hjoins,
      hfirst, ?_⟩
    simp only [List.length_append]
    omega

/-- Every token of a text is read off a stretch of it. -/
theorem mem_scan_spells {start : Nat} {rest : Bytes} {token : Token}
    (hmem : token ∈ scan start rest) :
    ∃ front body after, rest = front ++ (body ++ after) ∧ Spells body token.text ∧
      token.first = start + front.length ∧ token.last + 1 = token.first + body.length := by
  cases hnext : next? start rest with
  | none => simp [scan_of_blank (next?_eq_none_iff.mp hnext)] at hmem
  | some found =>
      obtain ⟨next, after⟩ := found
      have hshorter := length_lt_of_next? hnext
      obtain ⟨gap, body, _, rfl, hspells, hfirst, hlast⟩ := next?_spells hnext
      rw [scan_of_next? hnext, List.mem_cons] at hmem
      rcases hmem with rfl | hmem
      · exact ⟨gap, body, after, rfl, hspells, hfirst, hlast⟩
      · obtain ⟨front, other, behind, hafter, hother, hplace, hend⟩ := mem_scan_spells hmem
        refine ⟨gap ++ (body ++ front), other, behind, by simp [hafter], hother, ?_, hend⟩
        simp only [List.length_append]
        omega
termination_by rest.length

namespace Spells

variable {body text : Bytes}

theorem ne_nil (hspells : Spells body text) : body ≠ [] := by
  cases hspells with
  | single => simp
  | word hword => exact (isWord_iff.mp hword).1
  | operator => simp
  | hash => simp

/-- A token that begins with no hash takes up its own bytes. -/
theorem body_eq (hspells : Spells body text) (hhead : text.head? ≠ some Byte.hash) :
    body = text := by
  cases hspells with
  | single => rfl
  | word => rfl
  | operator => rfl
  | hash => exact absurd rfl hhead

/-- The text of a token is its stretch without blanks. -/
theorem text_eq (hspells : Spells body text) : text = body.filter (!isBlank ·) := by
  have hwords : ∀ word : Bytes, isWord word = true → word.filter (!isBlank ·) = word := by
    intro word hword
    rw [List.filter_eq_self]
    intro byte hbyte
    have hdelimiter := (isWord_iff.mp hword).2 byte hbyte
    rw [Bool.not_eq_true', Bool.eq_false_iff]
    intro hblank
    rw [isDelimiter_of_isBlank hblank] at hdelimiter
    cases hdelimiter
  cases hspells with
  | single _ hblank => simp [hblank]
  | word hword => exact (hwords _ hword).symm
  | operator hfuses =>
      have hbytes := bytes_of_fuses hfuses
      simp only [List.mem_cons, List.not_mem_nil, or_false, forall_eq_or_imp, forall_eq] at hbytes
      simp [hbytes]
  | @hash gap word hgap hword =>
      have hnone : gap.filter (!isBlank ·) = [] := by
        rw [List.filter_eq_nil_iff]
        intro byte hbyte
        simp [hgap byte hbyte]
      have hhash : isBlank Byte.hash = false := by decide
      simp [List.filter_append, hnone, hwords word hword, hhash]

/-- A delimiter in a token is the first byte of it or the second one of an operator. -/
theorem delimiter_cases (hspells : Spells body text) {index : Nat} {byte : UInt8}
    (hbyte : body[index]? = some byte) (hdelimiter : isDelimiter byte = true)
    (hblank : isBlank byte = false) :
    index = 0 ∨ ∃ left, index = 1 ∧ body = [left, byte] ∧ text = body ∧
      fuses [left] [byte] = true := by
  have hnone : ∀ word : Bytes, isWord word = true → byte ∉ word := by
    intro word hword hmem
    rw [(isWord_iff.mp hword).2 byte hmem] at hdelimiter
    cases hdelimiter
  cases hspells with
  | single =>
      left
      have hindex := (List.getElem?_eq_some_iff.mp hbyte).1
      simpa using hindex
  | word hword => exact absurd (List.mem_of_getElem? hbyte) (hnone _ hword)
  | @operator left right hfuses =>
      rcases index with _ | _ | index
      · exact .inl rfl
      · obtain rfl : right = byte := by simpa using hbyte
        exact .inr ⟨left, rfl, rfl, rfl, hfuses⟩
      · simp at hbyte
  | @hash gap word hgap hword =>
      cases index with
      | zero => exact .inl rfl
      | succ index =>
          rw [List.getElem?_cons_succ] at hbyte
          rcases List.mem_append.mp (List.mem_of_getElem? hbyte) with hmem | hmem
          · rw [hgap byte hmem] at hblank
            cases hblank
          · exact absurd hmem (hnone word hword)

end Spells

/-- At each offset of a word stands a byte that is no delimiter. -/
theorem exists_letter_of_mem_tokens {data : Bytes} {token : Token} (hmem : token ∈ data.tokens)
    (hword : isWord token.text = true) {offset : Nat} (hfirst : token.first ≤ offset)
    (hlast : offset ≤ token.last) :
    ∃ byte, data[offset]? = some byte ∧ isDelimiter byte = false := by
  obtain ⟨front, body, after, rfl, hspells, hplace, hend⟩ := mem_scan_spells hmem
  have hletters := (isWord_iff.mp hword).2
  obtain rfl : body = token.text := by
    apply hspells.body_eq
    intro hhead
    have hhash := hletters Byte.hash (List.mem_of_mem_head? hhead)
    exact absurd hhash (by decide)
  have hindex : offset - front.length < token.text.length := by omega
  refine ⟨_, ?_, hletters _ (List.getElem_mem hindex)⟩
  rw [List.getElem?_append_right (by omega), List.getElem?_append_left hindex,
    List.getElem?_eq_getElem hindex]

end Token

end CDelta

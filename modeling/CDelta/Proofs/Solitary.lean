import CDelta.Proofs.Insertion.Tokens
import CDelta.Proofs.Spelling

/-! # Bytes that stand alone

A delimiter that belongs to no operator and is no hash makes a token wherever it stands. So
does the end of a text behind such a token: it cuts no token in two, and the tokens of a longer
text are those of its two parts.
-/

namespace CDelta

namespace Token

/-- The byte is a token by itself, whatever stands beside it. -/
structure Solitary (byte : UInt8) : Prop where
  delimiter : isDelimiter byte = true
  not_blank : isBlank byte = false
  not_hash : byte ≠ Byte.hash
  apart : ∀ operator ∈ operators, byte ∉ operator

theorem solitary_semicolon : Solitary ';'.toUInt8 :=
  ⟨by decide, by decide, by decide, by decide +kernel⟩

theorem solitary_brace : Solitary '}'.toUInt8 :=
  ⟨by decide, by decide, by decide, by decide +kernel⟩

namespace Solitary

variable {byte : UInt8}

theorem not_mem_of_fuses (hsolitary : Solitary byte) {left right : UInt8}
    (hfuses : fuses [left] [right] = true) : byte ∉ [left, right] := by
  simp only [fuses, Bool.or_eq_true, List.contains_eq_mem, decide_eq_true_eq] at hfuses
  rcases hfuses with hmem | hmem
  · exact hsolitary.apart _ hmem
  · have hnot := hsolitary.apart _ hmem
    simpa [and_comm] using hnot

/-- A token with the byte in it is the byte. -/
theorem eq_of_spells (hsolitary : Solitary byte) {body text : Bytes} (hspells : Spells body text)
    {index : Nat} (hbyte : body[index]? = some byte) : body = [byte] ∧ text = [byte] := by
  have hmem : byte ∈ body := List.mem_of_getElem? hbyte
  rcases hspells.delimiter_cases hbyte hsolitary.delimiter hsolitary.not_blank with
    rfl | ⟨left, rfl, rfl, _, hfuses⟩
  · cases hspells with
    | single =>
        obtain rfl := List.mem_singleton.mp hmem
        exact ⟨rfl, rfl⟩
    | word hword =>
        have hletter := (isWord_iff.mp hword).2 byte hmem
        exact absurd rfl (ne_of_letter hletter hsolitary.delimiter)
    | operator hfuses => exact absurd hmem (hsolitary.not_mem_of_fuses hfuses)
    | hash => exact absurd (Option.some.inj hbyte).symm hsolitary.not_hash
  · exact absurd (by simp) (hsolitary.not_mem_of_fuses hfuses)

/-- The byte is a token wherever it stands. -/
theorem mem_scan (hsolitary : Solitary byte) (start : Nat) {index : Nat} {rest : Bytes}
    (hbyte : rest[index]? = some byte) :
    ⟨start + index, start + index, [byte]⟩ ∈ scan start rest := by
  cases hnext : next? start rest with
  | none =>
      have hblank := next?_eq_none_iff.mp hnext byte (List.mem_of_getElem? hbyte)
      rw [hsolitary.not_blank] at hblank
      cases hblank
  | some found =>
      obtain ⟨token, after⟩ := found
      have hshorter := length_lt_of_next? hnext
      obtain ⟨gap, body, hgap, rfl, hspells, hfirst, hlast⟩ := next?_spells hnext
      rw [scan_of_next? hnext]
      rcases Nat.lt_or_ge index gap.length with hindex | hindex
      · rw [List.getElem?_append_left hindex] at hbyte
        have hblank := hgap byte (List.mem_of_getElem? hbyte)
        rw [hsolitary.not_blank] at hblank
        cases hblank
      rw [List.getElem?_append_right hindex] at hbyte
      rcases Nat.lt_or_ge (index - gap.length) body.length with hinside | hbehind
      · rw [List.getElem?_append_left hinside] at hbyte
        obtain ⟨rfl, htext⟩ := hsolitary.eq_of_spells hspells hbyte
        rw [List.length_singleton] at hinside hlast
        have htoken : token = ⟨start + index, start + index, [byte]⟩ := by
          obtain ⟨first, last, text⟩ := token
          simp only at hfirst hlast htext
          rw [Token.mk.injEq]
          exact ⟨by omega, by omega, htext⟩
        rw [htoken]
        exact List.mem_cons_self
      · rw [List.getElem?_append_right hbehind] at hbyte
        have hmem := hsolitary.mem_scan (token.last + 1) hbyte
        have hplace : token.last + 1 + (index - gap.length - body.length) = start + index := by
          omega
        rw [hplace] at hmem
        exact List.mem_cons_of_mem _ hmem
termination_by rest.length

/-- The byte joins nothing behind it. -/
theorem joins_eq_false (hsolitary : Solitary byte) {token right : Token}
    (htext : token.text = [byte]) (gap : Bytes) : joins token gap right = false := by
  rw [joins, if_neg (by simp [htext, hsolitary.not_hash]), Bool.and_eq_false_iff]
  right
  rw [Bool.eq_false_iff]
  intro hfuses
  obtain ⟨first, second, hfirst, _, hfuses⟩ := exists_bytes_of_fuses hfuses
  have hnot := hsolitary.not_mem_of_fuses hfuses
  rw [htext] at hfirst
  exact hnot (by simp [(List.cons.inj hfirst).1])

/-- What follows the byte does not change the token that it is. -/
theorem next?_append (hsolitary : Solitary byte) {start : Nat} {front after : Bytes}
    {token : Token} (hnext : next? start front = some (token, after)) (htext : token.text = [byte])
    (back : Bytes) : next? start (front ++ back) = some (token, after ++ back) := by
  rcases next?_eq_some_iff.mp hnext with
    ⟨hbasic, _⟩ | ⟨left, tail, right, hleft, hright, _, rfl⟩
  · refine next?_eq_some_iff.mpr (.inl ⟨basic?_append hbasic fun hword => ?_, ?_⟩)
    · have hletter := (isWord_iff.mp hword).2 byte (by simp [htext])
      exact absurd rfl (ne_of_letter hletter hsolitary.delimiter)
    · exact fun right behind _ => hsolitary.joins_eq_false htext _
  · -- two basic tokens that join make a text of two bytes or more
    obtain ⟨_, _, _, hfirst, _⟩ := basic?_eq_some_iff.mp hleft
    obtain ⟨_, _, _, hsecond, _⟩ := basic?_eq_some_iff.mp hright
    have hlength := congrArg List.length htext
    have hleftLength := List.length_pos_iff.mpr hfirst.ne_nil
    have hrightLength := List.length_pos_iff.mpr hsecond.ne_nil
    simp only [List.length_append, List.length_singleton] at hlength
    omega

end Solitary

/-- Where the last token in front stands alone, the tokens of two texts side by side are those of
each. -/
theorem scan_append_of_solitary {start : Nat} {front : Bytes}
    (hlast : ∀ token ∈ (scan start front).getLast?, ∃ byte, Solitary byte ∧ token.text = [byte])
    (back : Bytes) :
    scan start (front ++ back) = scan start front ++ scan (start + front.length) back := by
  cases hnext : next? start front with
  | none =>
      have hblank := next?_eq_none_iff.mp hnext
      rw [scan_of_blank hblank, scan_blank_append hblank, List.nil_append]
  | some found =>
      obtain ⟨token, after⟩ := found
      have hshorter := length_lt_of_next? hnext
      obtain ⟨gap, body, _, hfront, _, hfirst, hend⟩ := next?_spells hnext
      have hplace : token.last + 1 + after.length = start + front.length := by
        rw [hfront]
        simp only [List.length_append]
        omega
      have hlonger : next? start (front ++ back) = some (token, after ++ back) := by
        by_cases hafter : ∃ byte ∈ after, isBlank byte = false
        · have hbefore : next? start (front ++ []) = some (token, after ++ []) := by
            rwa [List.append_nil, List.append_nil]
          exact next?_congr_after hbefore hafter back
        · -- only blanks follow, so this token is the last one
          have hblank : Blank after := by
            intro byte hbyte
            by_contra hnot
            exact hafter ⟨byte, hbyte, by simpa using hnot⟩
          have hone : scan start front = [token] := by
            rw [scan_of_next? hnext, scan_of_blank hblank]
          obtain ⟨byte, hsolitary, htext⟩ := hlast token (by rw [hone]; rfl)
          exact hsolitary.next?_append hnext htext back
      have hlater : ∀ later ∈ (scan (token.last + 1) after).getLast?,
          ∃ byte, Solitary byte ∧ later.text = [byte] := by
        intro later hmem
        obtain ⟨before, hbefore⟩ := List.getLast?_eq_some_iff.mp hmem
        refine hlast later ?_
        rw [scan_of_next? hnext, hbefore, ← List.cons_append]
        exact List.getLast?_concat
      rw [scan_of_next? hlonger, scan_of_next? hnext, scan_append_of_solitary hlater back, hplace,
        List.cons_append]
termination_by front.length

end Token

end CDelta

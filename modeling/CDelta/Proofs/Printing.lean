import CDelta.Proofs.Insertion.Tokens
import CDelta.Proofs.Spelling

/-! # Printing tokens and reading them again

A token's text, read by itself, is one token again. A newline keeps any two tokens apart, so
tokens that are printed one to a line are read back as they were. Blanks behind a token part
nothing that was one token and join nothing that was two.
-/

namespace CDelta

namespace Bytes

/-- The texts of all tokens. -/
def texts (data : Bytes) : List Bytes :=
  data.tokens.map (·.text)

/-- Texts one to a line, without a newline behind the last one. -/
def printed (texts : List Bytes) : Bytes :=
  [Byte.newline].intercalate texts

/-- The text with a gap in front of the byte at an offset. -/
def spread (data : Bytes) (offset : Nat) (gap : Bytes) : Bytes :=
  data.take offset ++ (gap ++ data.drop offset)

end Bytes

namespace Token

theorem IsBasic.basic?_eq {text after : Bytes} (hbasic : IsBasic text after) (start : Nat) :
    basic? start (text ++ after) = some (⟨start, start + (text.length - 1), text⟩, after) := by
  have hlength := List.length_pos_iff.mpr hbasic.ne_nil
  refine basic?_eq_some_iff.mpr ⟨[], by simp [Blank], rfl, hbasic, rfl, ?_⟩
  simp only
  omega

/-- A basic token with nothing behind it is a token. -/
theorem IsBasic.next?_eq {text : Bytes} (hbasic : IsBasic text []) (start : Nat) :
    next? start text = some (⟨start, start + (text.length - 1), text⟩, []) := by
  have halone := hbasic.basic?_eq start
  rw [List.append_nil] at halone
  refine next?_eq_some_iff.mpr (.inl ⟨halone, fun right behind hright => ?_⟩)
  rw [basic?_eq_none_iff.mpr (by simp [Blank])] at hright
  cases hright

/-- A hash in front of a word is one token with it. -/
theorem next?_hash {word : Bytes} (hword : isWord word = true) (start : Nat) :
    next? start (Byte.hash :: word) =
      some (⟨start, start + 1 + (word.length - 1), Byte.hash :: word⟩, []) := by
  have hbasic : IsBasic word [] := .inr ⟨hword, by simp⟩
  have hright := hbasic.basic?_eq (start + 1)
  rw [List.append_nil] at hright
  have hgap : word.takeWhile isBlank = [] := by
    obtain ⟨byte, more, rfl⟩ := List.exists_cons_of_ne_nil hbasic.ne_nil
    exact List.takeWhile_cons_of_neg (by simp [hbasic.head_not_blank])
  refine next?_eq_some_iff.mpr (.inr ⟨_, _, _,
    basic?_single (by decide) (by decide) start word, hright, ?_, rfl⟩)
  rw [hgap, joins_word hword]
  rfl

/-- The text of a token, read by itself, is one token with that text. -/
theorem Spells.next?_text {body text : Bytes} (hspells : Spells body text) (start : Nat) :
    ∃ token : Token, token.text = text ∧ next? start text = some (token, []) := by
  cases hspells with
  | @single byte hdelimiter hblank =>
      have hbasic : IsBasic [byte] [] := .inl ⟨byte, rfl, hdelimiter, hblank⟩
      exact ⟨_, rfl, hbasic.next?_eq start⟩
  | word hword =>
      have hbasic : IsBasic body [] := .inr ⟨hword, by simp⟩
      exact ⟨_, rfl, hbasic.next?_eq start⟩
  | operator hfuses => exact ⟨_, rfl, next?_operator hfuses start []⟩
  | hash _ hword => exact ⟨_, rfl, next?_hash hword start⟩

theorem Spells.texts_scan {body text : Bytes} (hspells : Spells body text) (start : Nat) :
    (scan start text).map (·.text) = [text] := by
  obtain ⟨token, htext, hnext⟩ := hspells.next?_text start
  have hnone : scan (token.last + 1) [] = [] := scan_of_blank (by simp [Blank])
  rw [scan_of_next? hnext, hnone, List.map_singleton, htext]

/-- Texts of tokens, printed one to a line, are read back. -/
theorem texts_scan_printed {texts : List Bytes} (htexts : ∀ text ∈ texts, ∃ body, Spells body text)
    (start : Nat) : (scan start (Bytes.printed texts)).map (·.text) = texts := by
  induction texts generalizing start with
  | nil =>
      rw [Bytes.printed, List.intercalate_nil, scan_of_blank (by simp [Blank])]
      rfl
  | cons text rest ih =>
      obtain ⟨⟨body, hspells⟩, hrest⟩ := List.forall_mem_cons.mp htexts
      cases rest with
      | nil =>
          rw [Bytes.printed, List.intercalate_singleton]
          exact hspells.texts_scan start
      | cons next others =>
          have hlines : Bytes.printed (text :: next :: others) =
              text ++ Byte.newline :: Bytes.printed (next :: others) := by
            rw [Bytes.printed, List.intercalate_cons_cons, List.append_assoc,
              List.singleton_append, Bytes.printed]
          rw [hlines, scan_newline, List.map_append, hspells.texts_scan, ih hrest,
            List.singleton_append]

/-- Blanks right behind a token leave the texts of all tokens as they are. -/
theorem texts_scan_spread {data gap : Bytes} (hgap : Blank gap) {token : Token}
    (htoken : token ∈ data.tokens) : (data.spread (token.last + 1) gap).texts = data.texts := by
  have hjoined : data.take (token.last + 1) ++ data.drop (token.last + 1) = data :=
    List.take_append_drop _ data
  have hspot : (data.take (token.last + 1)).length = token.last + 1 := by
    obtain ⟨_, _, _, _, _, _, _, hlast⟩ := mem_scan htoken
    exact List.length_take_of_le (by omega)
  have hmoved := scan_insert hgap 0 (data.take (token.last + 1)) (data.drop (token.last + 1))
    fun other hother => by
      rw [hjoined] at hother
      rw [hspot, Nat.zero_add]
      exact clear_behind_of_mem_scan htoken hother
  rw [Bytes.texts, Bytes.tokens, Bytes.spread, hmoved, hjoined, List.map_map]
  rfl

end Token

/-- Tokens printed one to a line are read back with the same texts, and so are those of a text
with blanks of any kind and number right behind any of its tokens. -/
theorem token_texts_are_stable (data : Bytes) :
    (Bytes.printed data.texts).texts = data.texts ∧
      ∀ token ∈ data.tokens, ∀ gap, Token.Blank gap →
        (data.spread (token.last + 1) gap).texts = data.texts := by
  refine ⟨Token.texts_scan_printed (fun text htext => ?_) 0, fun token htoken gap hgap => ?_⟩
  · obtain ⟨token, htoken, rfl⟩ := List.mem_map.mp htext
    obtain ⟨_, body, _, _, hspells, _⟩ := Token.mem_scan_spells htoken
    exact ⟨body, hspells⟩
  · exact Token.texts_scan_spread hgap htoken

/-- A hash that a newline keeps from its word, operators that are spelled backwards, a run that
only its second half joins, and a hash with its word: blanks of every kind behind the lone hash
do not let it take the word. -/
theorem token_texts_are_stable_lone_hash :
    let data := Bytes.ofChars "#\nif =<=/**/#  x".toList
    let gap := Bytes.ofChars " \t\r\n".toList
    let lone : Token := ⟨0, 0, [Byte.hash]⟩
    lone ∈ data.tokens ∧ Token.Blank gap ∧
      data.texts =
        ["#", "if", "=<", "=/", "*", "*/", "#x"].map (fun text => Bytes.ofChars text.toList) ∧
      (Bytes.printed data.texts).texts = data.texts ∧
      (data.spread 1 gap).texts = data.texts := by
  intro data gap lone
  have hlone : lone ∈ data.tokens := by decide +kernel
  have hgap : ∀ byte ∈ gap, Token.isBlank byte = true := by decide +kernel
  have htexts : data.texts =
      ["#", "if", "=<", "=/", "*", "*/", "#x"].map (fun text => Bytes.ofChars text.toList) := by
    decide +kernel
  obtain ⟨hprinted, hspread⟩ := token_texts_are_stable data
  exact ⟨hlone, hgap, htexts, hprinted, hspread lone hlone gap hgap⟩

end CDelta

import CDelta.Proofs.Directive
import CDelta.Proofs.Spelling

/-! # Words spelled another way

Where tokens begin and end depends on the delimiters of a text only. When the bytes of words
are all made alike, the tokens stay where they are and those bytes of them are made alike. So
two texts that differ in such bytes only have their tokens at the same places, and each token
has the text that stands there.
-/

namespace CDelta

namespace Token

/-- The byte with all bytes of words made alike. -/
def blur (byte : UInt8) : UInt8 :=
  if isDelimiter byte then byte else 'x'.toUInt8

theorem blur_of_delimiter {byte : UInt8} (hbyte : isDelimiter byte = true) : blur byte = byte :=
  if_pos hbyte

theorem blur_of_letter {byte : UInt8} (hbyte : isDelimiter byte = false) :
    blur byte = 'x'.toUInt8 := by
  simp [blur, hbyte]

@[simp]
theorem isDelimiter_blur (byte : UInt8) : isDelimiter (blur byte) = isDelimiter byte := by
  cases hbyte : isDelimiter byte with
  | true => rw [blur_of_delimiter hbyte, hbyte]
  | false =>
      rw [blur_of_letter hbyte]
      decide

/-- A delimiter is told from all other bytes still. -/
theorem blur_eq_iff {byte delimiter : UInt8} (hdelimiter : isDelimiter delimiter = true) :
    blur byte = delimiter ↔ byte = delimiter := by
  cases hbyte : isDelimiter byte with
  | true => rw [blur_of_delimiter hbyte]
  | false =>
      have hblurred : isDelimiter (blur byte) = false := by rw [isDelimiter_blur, hbyte]
      exact iff_of_false (ne_of_letter hblurred hdelimiter) (ne_of_letter hbyte hdelimiter)

@[simp]
theorem isBlank_blur (byte : UInt8) : isBlank (blur byte) = isBlank byte := by
  cases hbyte : isDelimiter byte with
  | true => rw [blur_of_delimiter hbyte]
  | false =>
      rw [Bool.eq_iff_iff]
      constructor
      · intro hblank
        have hdelimiter := isDelimiter_of_isBlank hblank
        rw [isDelimiter_blur, hbyte] at hdelimiter
        cases hdelimiter
      · intro hblank
        rw [isDelimiter_of_isBlank hblank] at hbyte
        cases hbyte

@[simp]
theorem isWord_map_blur (text : Bytes) : isWord (text.map blur) = isWord text := by
  simp [isWord, List.all_map, Function.comp_def]

theorem map_blur_eq_singleton_iff {text : Bytes} {delimiter : UInt8}
    (hdelimiter : isDelimiter delimiter = true) :
    text.map blur = [delimiter] ↔ text = [delimiter] := by
  simp [List.map_eq_singleton_iff, blur_eq_iff hdelimiter]

theorem fuses_map_blur (left right : Bytes) :
    fuses (left.map blur) (right.map blur) = fuses left right := by
  rw [Bool.eq_iff_iff]
  constructor
  · intro hfuses
    obtain ⟨first, second, hleft, hright, hbytes⟩ := exists_bytes_of_fuses hfuses
    have hfirst := (bytes_of_fuses hbytes first (by simp)).1
    have hsecond := (bytes_of_fuses hbytes second (by simp)).1
    rw [map_blur_eq_singleton_iff hfirst] at hleft
    rw [map_blur_eq_singleton_iff hsecond] at hright
    rwa [hleft, hright]
  · intro hfuses
    obtain ⟨first, second, rfl, rfl, hbytes⟩ := exists_bytes_of_fuses hfuses
    have hfirst := (bytes_of_fuses hbytes first (by simp)).1
    have hsecond := (bytes_of_fuses hbytes second (by simp)).1
    simpa [blur_of_delimiter hfirst, blur_of_delimiter hsecond] using hbytes

theorem blank_map_blur_iff {gap : Bytes} : Blank (gap.map blur) ↔ Blank gap := by
  simp [Blank]

theorem IsBasic.map_blur {text after : Bytes} (hbasic : IsBasic text after) :
    IsBasic (text.map blur) (after.map blur) := by
  rcases hbasic with ⟨byte, rfl, hdelimiter, hblank⟩ | ⟨hword, hends⟩
  · exact .inl ⟨blur byte, rfl, by rwa [isDelimiter_blur], by rwa [isBlank_blur]⟩
  · refine .inr ⟨by rwa [isWord_map_blur], ?_⟩
    simpa using hends

/-- The token with the bytes of words made alike. -/
def blurred (token : Token) : Token :=
  { token with text := token.text.map blur }

theorem joins_blurred (left right : Token) (gap : Bytes) :
    joins left.blurred (gap.map blur) right.blurred = joins left gap right := by
  have hhash : left.blurred.text = [Byte.hash] ↔ left.text = [Byte.hash] :=
    map_blur_eq_singleton_iff (by decide)
  have hnewline : (gap.map blur).contains Byte.newline = gap.contains Byte.newline := by
    rw [Bool.eq_iff_iff]
    simp [blur_eq_iff (show isDelimiter Byte.newline = true by decide)]
  simp only [joins, hhash, hnewline]
  simp [blurred, fuses_map_blur]

theorem basic?_map_blur (start : Nat) (rest : Bytes) :
    basic? start (rest.map blur) =
      (basic? start rest).map fun found => (found.1.blurred, found.2.map blur) := by
  cases hbasic : basic? start rest with
  | none =>
      rw [basic?_eq_none_iff] at hbasic
      exact basic?_eq_none_iff.mpr (blank_map_blur_iff.mpr hbasic)
  | some found =>
      obtain ⟨gap, hgap, rfl, htext, hfirst, hlast⟩ := basic?_eq_some_iff.mp hbasic
      rw [Option.map_some, basic?_eq_some_iff]
      refine ⟨gap.map blur, blank_map_blur_iff.mpr hgap, by simp [blurred], htext.map_blur, ?_, ?_⟩
      · simpa [blurred] using hfirst
      · simpa [blurred] using hlast

theorem next?_map_blur (start : Nat) (rest : Bytes) :
    next? start (rest.map blur) =
      (next? start rest).map fun found => (found.1.blurred, found.2.map blur) := by
  unfold next?
  rw [basic?_map_blur]
  cases basic? start rest with
  | none => rfl
  | some found =>
      obtain ⟨left, tail⟩ := found
      have hgap : (tail.map blur).takeWhile isBlank = (tail.takeWhile isBlank).map blur := by
        rw [List.takeWhile_map]
        simp [Function.comp_def]
      have hlast : left.blurred.last = left.last := rfl
      simp only [Option.map_some, hgap, hlast]
      rw [basic?_map_blur]
      cases basic? (left.last + 1) tail with
      | none => rfl
      | some found =>
          obtain ⟨right, after⟩ := found
          simp only [Option.map_some, joins_blurred]
          by_cases hjoins : joins left (tail.takeWhile isBlank) right = true
          · rw [if_pos hjoins, if_pos hjoins]
            simp [blurred]
          · rw [if_neg hjoins, if_neg hjoins]
            rfl

theorem scan_map_blur (start : Nat) (rest : Bytes) :
    scan start (rest.map blur) = (scan start rest).map blurred := by
  have hmoved := next?_map_blur start rest
  cases hnext : next? start rest with
  | none =>
      have hblank := next?_eq_none_iff.mp hnext
      rw [scan_of_blank hblank, scan_of_blank (blank_map_blur_iff.mpr hblank)]
      rfl
  | some found =>
      obtain ⟨token, after⟩ := found
      have hshorter := length_lt_of_next? hnext
      rw [hnext, Option.map_some] at hmoved
      rw [scan_of_next? hnext, scan_of_next? hmoved, List.map_cons]
      congr 1
      exact scan_map_blur (token.last + 1) after
termination_by rest.length

/-- The token with the text that stands at its place. -/
def readIn (data : Bytes) (token : Token) : Token :=
  { token with text := ((⟨token.first, token.last⟩ : Span).slice data).filter (!isBlank ·) }

/-- Every token has the text that stands at its place, without the blanks. -/
theorem readIn_of_mem_tokens {data : Bytes} {token : Token} (hmem : token ∈ data.tokens) :
    token.readIn data = token := by
  obtain ⟨front, body, after, rfl, hspells, hfirst, hlast⟩ := mem_scan_spells hmem
  have hslice : (⟨token.first, token.last⟩ : Span).slice (front ++ (body ++ after)) = body := by
    have hplace : (token.first : Int).toNat = front.length := by omega
    have hsize : ((token.last : Int) + 1).toNat - (token.first : Int).toNat = body.length := by
      omega
    rw [Span.slice, hsize, hplace, List.drop_left, List.take_left]
  rw [readIn, hslice, ← hspells.text_eq]

/-- Texts that differ in bytes of words only have tokens that differ in such bytes only. -/
theorem map_blurred_tokens {data other : Bytes} (hsame : other.map blur = data.map blur) :
    other.tokens.map blurred = data.tokens.map blurred := by
  rw [Bytes.tokens, Bytes.tokens, ← scan_map_blur, ← scan_map_blur, hsame]

/-- Their tokens stand at the same places. -/
theorem tokens_eq_map_readIn {data other : Bytes} (hsame : other.map blur = data.map blur) :
    other.tokens = data.tokens.map (readIn other) := by
  -- only the place of a token matters when it is read anew
  have hread : ∀ tokens : List Token,
      tokens.map (readIn other) = (tokens.map blurred).map (readIn other) := by
    intro tokens
    rw [List.map_map]
    rfl
  calc
    other.tokens = other.tokens.map (readIn other) :=
      (List.map_id _).symm.trans
        (List.map_congr_left fun token hmem => (readIn_of_mem_tokens hmem).symm)
    _ = data.tokens.map (readIn other) := by rw [hread, map_blurred_tokens hsame, ← hread]

/-- A token read anew differs in bytes of words only. -/
theorem blurred_readIn {data other : Bytes} (hsame : other.map blur = data.map blur)
    {token : Token} (hmem : token ∈ data.tokens) :
    (token.readIn other).blurred = token.blurred := by
  have hplaces := map_blurred_tokens hsame
  rw [tokens_eq_map_readIn hsame, List.map_map] at hplaces
  exact List.map_inj_left.mp hplaces token hmem

end Token

namespace Directive

/-- Which lines are directives does not depend on how words are spelled. -/
theorem lineKind?_eq_none_congr {line other : Bytes}
    (hsame : other.map Token.blur = line.map Token.blur) (hkind : lineKind? line = none) :
    lineKind? other = none := by
  have hblurred : ∀ text : Bytes,
      (∀ found ∈ Token.next? 0 (text.map Token.blur), found.1.text.head? ≠ some Byte.hash) ↔
        lineKind? text = none := by
    intro text
    rw [lineKind?_eq_none_iff, Token.next?_map_blur]
    cases Token.next? 0 text with
    | none => simp
    | some found =>
        simp [Token.blurred, Token.blur_eq_iff (show Token.isDelimiter Byte.hash = true by decide)]
  rw [← hblurred, hsame, hblurred]
  exact hkind

end Directive

end CDelta

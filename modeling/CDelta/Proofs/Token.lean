import CDelta.Token
import Mathlib.Data.List.TakeWhile

/-! # What a token depends on

A basic token is determined by the bytes it is made of and the byte behind it, and a token
by its own bytes and the next basic token. Blanks in front of a token only move it. A newline
always separates: the tokens of two texts with a newline between them are those of the one
and then those of the other.
-/

namespace CDelta

namespace Token

/-- The token with its offsets moved. -/
def relocate (place : Nat → Nat) (token : Token) : Token :=
  ⟨place token.first, place token.last, token.text⟩

/-- A text is a basic token in front of the bytes `after`. -/
def IsBasic (text after : Bytes) : Prop :=
  (∃ byte, text = [byte] ∧ isDelimiter byte = true ∧ isBlank byte = false) ∨
    isWord text = true ∧ ∀ byte ∈ after.head?, isDelimiter byte = true

/-- Every byte is blank. -/
def Blank (gap : Bytes) : Prop :=
  ∀ byte ∈ gap, isBlank byte = true

theorem isDelimiter_of_isBlank {byte : UInt8} (hblank : isBlank byte = true) :
    isDelimiter byte = true := by
  simp only [isBlank, isDelimiter, delimiters, List.contains_eq_mem, decide_eq_true_eq,
    List.mem_append] at hblank ⊢
  exact .inr hblank

/-- A byte that is no delimiter is none of the delimiters. -/
theorem ne_of_letter {byte delimiter : UInt8} (hbyte : isDelimiter byte = false)
    (hdelimiter : isDelimiter delimiter = true) : byte ≠ delimiter := by
  rintro rfl
  rw [hbyte] at hdelimiter
  cases hdelimiter

theorem isBlank_newline : isBlank Byte.newline = true := by decide

theorem isBlank_space : isBlank Byte.space = true := by decide

theorem ne_space_of_isBlank_eq_false {byte : UInt8} (hblank : isBlank byte = false) :
    byte ≠ Byte.space := by
  rintro rfl
  rw [isBlank_space] at hblank
  cases hblank

theorem blank_replicate (count : Nat) : Blank (List.replicate count Byte.space) := by
  intro byte hbyte
  rw [List.eq_of_mem_replicate hbyte, isBlank_space]

theorem isWord_iff {text : Bytes} :
    isWord text = true ↔ text ≠ [] ∧ ∀ byte ∈ text, isDelimiter byte = false := by
  simp [isWord]

namespace IsBasic

theorem ne_nil {text after : Bytes} (hbasic : IsBasic text after) : text ≠ [] := by
  rcases hbasic with ⟨byte, rfl, _, _⟩ | ⟨hword, _⟩
  · simp
  · exact (isWord_iff.mp hword).1

/-- A basic token does not begin with a blank. -/
theorem head_not_blank {byte : UInt8} {more after : Bytes}
    (hbasic : IsBasic (byte :: more) after) : isBlank byte = false := by
  rcases hbasic with ⟨other, heq, _, hblank⟩ | ⟨hword, _⟩
  · rw [(List.cons.inj heq).1, hblank]
  · have hdelimiter := (isWord_iff.mp hword).2 byte List.mem_cons_self
    cases hblank : isBlank byte with
    | false => rfl
    | true => simp [isDelimiter_of_isBlank hblank] at hdelimiter

/-- A word ends in front of a delimiter. -/
theorem ends {text after : Bytes} (hbasic : IsBasic text after) (hword : isWord text = true) :
    ∀ byte ∈ after.head?, isDelimiter byte = true := by
  rcases hbasic with ⟨byte, rfl, hdelimiter, _⟩ | ⟨_, hafter⟩
  · simp [isWord_iff, hdelimiter] at hword
  · exact hafter

/-- What follows a basic token matters only when the token is a word, and then only whether
it begins with a delimiter. -/
theorem congr_after {text after other : Bytes} (hbasic : IsBasic text after)
    (hother : isWord text = true → ∀ byte ∈ other.head?, isDelimiter byte = true) :
    IsBasic text other := by
  rcases hbasic with hsingle | ⟨hword, _⟩
  · exact .inl hsingle
  · exact .inr ⟨hword, hother hword⟩

end IsBasic

theorem dropWhile_blank_append {gap : Bytes} (hgap : Blank gap) (rest : Bytes) :
    (gap ++ rest).dropWhile isBlank = rest.dropWhile isBlank :=
  List.dropWhile_append_of_pos hgap

theorem takeWhile_blank_append {gap : Bytes} (hgap : Blank gap) (rest : Bytes) :
    (gap ++ rest).takeWhile isBlank = gap ++ rest.takeWhile isBlank :=
  List.takeWhile_append_of_pos hgap

/-- A basic token is where blanks end and the bytes are such a token in front of the rest. -/
theorem basic?_eq_some_iff {start : Nat} {rest : Bytes} {token : Token} {after : Bytes} :
    basic? start rest = some (token, after) ↔
      ∃ gap, Blank gap ∧ rest = gap ++ (token.text ++ after) ∧ IsBasic token.text after ∧
        token.first = start + gap.length ∧ token.last + 1 = token.first + token.text.length := by
  constructor
  · intro hbasic
    refine ⟨rest.takeWhile isBlank, fun byte => List.mem_takeWhile_imp, ?_⟩
    unfold basic? at hbasic
    split at hbasic
    next => simp at hbasic
    next byte tail hdrop =>
      have hrest : rest = rest.takeWhile isBlank ++ byte :: tail := by
        rw [← hdrop, List.takeWhile_append_dropWhile]
      have hblank : isBlank byte = false := by
        have hhead := List.head?_dropWhile_not isBlank rest
        rw [hdrop] at hhead
        simpa using hhead
      split at hbasic
      next hdelimiter =>
        obtain ⟨rfl, rfl⟩ := Prod.mk.inj (Option.some.inj hbasic)
        exact ⟨by simpa using hrest, .inl ⟨byte, rfl, hdelimiter, hblank⟩, rfl, rfl⟩
      next hdelimiter =>
        obtain ⟨rfl, rfl⟩ := Prod.mk.inj (Option.some.inj hbasic)
        refine ⟨?_, .inr ⟨?_, ?_⟩, rfl, by simp only [List.length_cons]; omega⟩
        · rw [List.cons_append, List.takeWhile_append_dropWhile]
          exact hrest
        · rw [isWord_iff]
          refine ⟨by simp, List.forall_mem_cons.mpr ⟨by simpa using hdelimiter, ?_⟩⟩
          intro other hother
          simpa using List.mem_takeWhile_imp hother
        · intro other hother
          have hhead := List.head?_dropWhile_not (!isDelimiter ·) tail
          rw [hother] at hhead
          simpa using hhead
  · rintro ⟨gap, hgap, rfl, hbasic, hfirst, hlast⟩
    obtain ⟨first, last, text⟩ := token
    obtain ⟨byte, more, rfl⟩ := List.exists_cons_of_ne_nil hbasic.ne_nil
    simp only at hfirst hlast
    have hdrop : (gap ++ (byte :: more ++ after)).dropWhile isBlank = byte :: (more ++ after) := by
      rw [dropWhile_blank_append hgap]
      simp [hbasic.head_not_blank]
    have htake : (gap ++ (byte :: more ++ after)).takeWhile isBlank = gap := by
      rw [takeWhile_blank_append hgap]
      simp [hbasic.head_not_blank]
    unfold basic?
    rw [hdrop, htake]
    simp only
    rcases hbasic with ⟨other, heq, hdelimiter, _⟩ | ⟨hword, hafter⟩
    · obtain ⟨rfl, rfl⟩ := List.cons.inj heq
      rw [if_pos hdelimiter]
      simp only [List.length_cons, List.length_nil] at hlast
      simp only [List.nil_append, Option.some.injEq, Prod.mk.injEq, Token.mk.injEq, and_true]
      omega
    · obtain ⟨hbyte, hmore⟩ := List.forall_mem_cons.mp (isWord_iff.mp hword).2
      have hall : ∀ other ∈ more, (!isDelimiter other) = true := by simpa using hmore
      have hstop : after.takeWhile (!isDelimiter ·) = [] ∧
          after.dropWhile (!isDelimiter ·) = after := by
        cases after with
        | nil => simp
        | cons other behind =>
            have hother := hafter other rfl
            simp [hother]
      rw [if_neg (by simp [hbyte]), List.takeWhile_append_of_pos hall,
        List.dropWhile_append_of_pos hall, hstop.1, hstop.2, List.append_nil]
      simp only [List.length_cons] at hlast
      simp only [Option.some.injEq, Prod.mk.injEq, Token.mk.injEq, and_true]
      omega

theorem basic?_eq_none_iff {start : Nat} {rest : Bytes} :
    basic? start rest = none ↔ Blank rest := by
  constructor
  · intro hnone
    unfold basic? at hnone
    split at hnone
    next hdrop => exact List.dropWhile_eq_nil_iff.mp hdrop
    next => split at hnone <;> simp at hnone
  · intro hblank
    have hdrop : rest.dropWhile isBlank = [] := List.dropWhile_eq_nil_iff.mpr hblank
    simp [basic?, hdrop]

/-- Blanks in front only move the start. -/
theorem basic?_blank_append {gap : Bytes} (hgap : Blank gap) (start : Nat) (rest : Bytes) :
    basic? start (gap ++ rest) = basic? (start + gap.length) rest := by
  unfold basic?
  rw [dropWhile_blank_append hgap, takeWhile_blank_append hgap, List.length_append,
    Nat.add_assoc]

theorem basic?_shift (start distance : Nat) (rest : Bytes) :
    basic? (start + distance) rest =
      (basic? start rest).map fun found => (found.1.relocate (· + distance), found.2) := by
  cases hbasic : basic? start rest with
  | none =>
      rw [basic?_eq_none_iff] at hbasic
      rw [basic?_eq_none_iff.mpr hbasic]
      rfl
  | some found =>
      obtain ⟨gap, hgap, hrest, htext, hfirst, hlast⟩ := basic?_eq_some_iff.mp hbasic
      rw [Option.map_some, basic?_eq_some_iff]
      refine ⟨gap, hgap, hrest, htext, ?_, ?_⟩
      · simp only [relocate]
        omega
      · simp only [relocate]
        omega

/-- The blanks in front of a basic token end where it begins, whatever follows it. -/
theorem takeWhile_of_basic? {start : Nat} {rest : Bytes} {token : Token} {after : Bytes}
    (hbasic : basic? start rest = some (token, after)) (more : Bytes) :
    (rest ++ more).takeWhile isBlank = rest.takeWhile isBlank := by
  obtain ⟨gap, hgap, rfl, htext, _⟩ := basic?_eq_some_iff.mp hbasic
  obtain ⟨byte, tail, heq⟩ := List.exists_cons_of_ne_nil htext.ne_nil
  rw [heq] at htext ⊢
  rw [List.append_assoc, takeWhile_blank_append hgap, takeWhile_blank_append hgap]
  simp [htext.head_not_blank]

theorem basic?_append {start : Nat} {rest : Bytes} {token : Token} {after : Bytes}
    (hbasic : basic? start rest = some (token, after)) {more : Bytes}
    (hmore : isWord token.text = true → after = [] → ∀ byte ∈ more.head?,
      isDelimiter byte = true) :
    basic? start (rest ++ more) = some (token, after ++ more) := by
  obtain ⟨gap, hgap, rfl, htext, hplace⟩ := basic?_eq_some_iff.mp hbasic
  refine basic?_eq_some_iff.mpr ⟨gap, hgap, by simp, htext.congr_after ?_, hplace⟩
  intro hword byte hbyte
  cases after with
  | nil => exact hmore hword rfl byte hbyte
  | cons other behind => exact htext.ends hword byte hbyte

/-- A token is a basic token that does not join the next one, or two that join. -/
theorem next?_eq_some_iff {start : Nat} {rest : Bytes} {token : Token} {after : Bytes} :
    next? start rest = some (token, after) ↔
      (basic? start rest = some (token, after) ∧
        ∀ right behind, basic? (token.last + 1) after = some (right, behind) →
          joins token (after.takeWhile isBlank) right = false) ∨
      ∃ left tail right, basic? start rest = some (left, tail) ∧
        basic? (left.last + 1) tail = some (right, after) ∧
        joins left (tail.takeWhile isBlank) right = true ∧
        token = ⟨left.first, right.last, left.text ++ right.text⟩ := by
  unfold next?
  constructor
  · intro hnext
    split at hnext
    next => simp at hnext
    next left tail hleft =>
      split at hnext
      next hright =>
        obtain ⟨rfl, rfl⟩ := Prod.mk.inj (Option.some.inj hnext)
        exact .inl ⟨hleft, fun right behind hsome => by simp [hright] at hsome⟩
      next right behind hright =>
        split at hnext
        next hjoins =>
          obtain ⟨rfl, rfl⟩ := Prod.mk.inj (Option.some.inj hnext)
          exact .inr ⟨left, tail, right, hleft, hright, hjoins, rfl⟩
        next hjoins =>
          obtain ⟨rfl, rfl⟩ := Prod.mk.inj (Option.some.inj hnext)
          refine .inl ⟨hleft, fun other more hsome => ?_⟩
          obtain ⟨rfl, rfl⟩ := Prod.mk.inj (Option.some.inj (hright.symm.trans hsome))
          simpa using hjoins
  · rintro (⟨hbasic, halone⟩ | ⟨left, tail, right, hleft, hright, hjoins, rfl⟩)
    · rw [hbasic]
      simp only
      split
      next => rfl
      next right behind hright => rw [halone right behind hright, if_neg (by simp)]
    · rw [hleft]
      simp only [hright, hjoins, if_true]

theorem next?_eq_none_iff {start : Nat} {rest : Bytes} :
    next? start rest = none ↔ Blank rest := by
  rw [← basic?_eq_none_iff]
  constructor
  · intro hnone
    unfold next? at hnone
    split at hnone
    next hbasic => exact hbasic
    next =>
      split at hnone
      next => simp at hnone
      next => split at hnone <;> simp at hnone
  · intro hnone
    rw [next?, hnone]

/-- A token lies in the bytes it is read from, in front of those that are left, and begins
with a byte that is not blank. -/
theorem next?_place {start : Nat} {rest : Bytes} {token : Token} {after : Bytes}
    (hnext : next? start rest = some (token, after)) :
    ∃ gap byte more, Blank gap ∧ token.text.head? = some byte ∧ isBlank byte = false ∧
      rest = gap ++ byte :: (more ++ after) ∧ token.first = start + gap.length ∧
      token.last = token.first + more.length := by
  rcases next?_eq_some_iff.mp hnext with ⟨hbasic, _⟩ | ⟨left, tail, right, hleft, hright, _, rfl⟩
  · obtain ⟨gap, hgap, rfl, htext, hfirst, hlast⟩ := basic?_eq_some_iff.mp hbasic
    obtain ⟨byte, more, heq⟩ := List.exists_cons_of_ne_nil htext.ne_nil
    rw [heq] at htext hlast ⊢
    refine ⟨gap, byte, more, hgap, rfl, htext.head_not_blank, rfl, hfirst, ?_⟩
    simp only [List.length_cons] at hlast
    omega
  · obtain ⟨gap, hgap, rfl, htext, hfirst, hlast⟩ := basic?_eq_some_iff.mp hleft
    obtain ⟨inner, _, rfl, hword, hrfirst, hrlast⟩ := basic?_eq_some_iff.mp hright
    obtain ⟨byte, more, heq⟩ := List.exists_cons_of_ne_nil htext.ne_nil
    rw [heq] at htext hlast ⊢
    refine ⟨gap, byte, more ++ (inner ++ right.text), hgap, rfl, htext.head_not_blank,
      by simp, hfirst, ?_⟩
    simp only [List.length_cons, List.length_append] at hlast ⊢
    omega

theorem next?_blank_append {gap : Bytes} (hgap : Blank gap) (start : Nat) (rest : Bytes) :
    next? start (gap ++ rest) = next? (start + gap.length) rest := by
  unfold next?
  rw [basic?_blank_append hgap]

theorem joins_relocate (place : Nat → Nat) (left right : Token) (gap : Bytes) :
    joins (left.relocate place) gap (right.relocate place) = joins left gap right := rfl

theorem next?_shift (start distance : Nat) (rest : Bytes) :
    next? (start + distance) rest =
      (next? start rest).map fun found => (found.1.relocate (· + distance), found.2) := by
  unfold next?
  rw [basic?_shift]
  cases basic? start rest with
  | none => rfl
  | some found =>
      obtain ⟨left, tail⟩ := found
      have hmoved : (left.relocate (· + distance)).last + 1 = left.last + 1 + distance := by
        simp only [relocate]
        omega
      simp only [Option.map_some, hmoved]
      rw [basic?_shift (left.last + 1)]
      cases basic? (left.last + 1) tail with
      | none => rfl
      | some found =>
          obtain ⟨right, after⟩ := found
          have hsame := joins_relocate (· + distance) left right (tail.takeWhile isBlank)
          simp only [Option.map_some]
          by_cases hjoins : joins left (tail.takeWhile isBlank) right = true
          · rw [if_pos (hsame.trans hjoins), if_pos hjoins]
            rfl
          · rw [if_neg (hsame ▸ hjoins), if_neg hjoins]
            rfl

/-- Operators are made of delimiters that are neither blank nor a hash. -/
theorem bytes_of_fuses {left right : UInt8} (hfuses : fuses [left] [right] = true) :
    ∀ byte ∈ [left, right],
      isDelimiter byte = true ∧ isBlank byte = false ∧ byte ≠ Byte.hash := by
  have hoperators : ∀ operator ∈ operators, ∀ byte ∈ operator,
      isDelimiter byte = true ∧ isBlank byte = false ∧ byte ≠ Byte.hash := by
    decide +kernel
  intro byte hbyte
  simp only [fuses, Bool.or_eq_true, List.contains_eq_mem, decide_eq_true_eq] at hfuses
  rcases hfuses with hmem | hmem
  · exact hoperators _ hmem byte hbyte
  · exact hoperators _ hmem byte (by simpa [or_comm] using hbyte)

/-- An operator is made of two single bytes. -/
theorem exists_bytes_of_fuses {left right : Bytes} (hfuses : fuses left right = true) :
    ∃ first second, left = [first] ∧ right = [second] ∧ fuses [first] [second] = true := by
  unfold fuses at hfuses
  split at hfuses
  next first second => exact ⟨first, second, rfl, rfl, hfuses⟩
  next => cases hfuses

theorem basic?_single {byte : UInt8} (hdelimiter : isDelimiter byte = true)
    (hblank : isBlank byte = false) (start : Nat) (rest : Bytes) :
    basic? start (byte :: rest) = some (⟨start, start, [byte]⟩, rest) :=
  basic?_eq_some_iff.mpr
    ⟨[], by simp [Blank], rfl, .inl ⟨byte, rfl, hdelimiter, hblank⟩, rfl, rfl⟩

/-- An operator is one token, whatever follows. -/
theorem next?_operator {left right : UInt8} (hfuses : fuses [left] [right] = true) (start : Nat)
    (rest : Bytes) :
    next? start (left :: right :: rest) =
      some (⟨start, start + 1, [left, right]⟩, rest) := by
  obtain ⟨hleft, hleftBlank, hhash⟩ := bytes_of_fuses hfuses left (by simp)
  obtain ⟨hright, hrightBlank, _⟩ := bytes_of_fuses hfuses right (by simp)
  refine next?_eq_some_iff.mpr (.inr ⟨_, _, _, basic?_single hleft hleftBlank start _,
    basic?_single hright hrightBlank (start + 1) rest, ?_, rfl⟩)
  have hgap : (right :: rest).takeWhile isBlank = [] :=
    List.takeWhile_cons_of_neg (by simp [hrightBlank])
  have hother : [left] ≠ [Byte.hash] := by simp [hhash]
  rw [hgap, joins, if_neg hother, hfuses]
  rfl

/-- An operator has no byte of a word in it. -/
theorem fuses_word {left right : Bytes} (hword : isWord right = true) :
    fuses left right = false := by
  rw [Bool.eq_false_iff]
  intro hfuses
  obtain ⟨first, second, rfl, rfl, hfuses⟩ := exists_bytes_of_fuses hfuses
  have hbyte := (isWord_iff.mp hword).2 second List.mem_cons_self
  rw [(bytes_of_fuses hfuses second (by simp)).1] at hbyte
  cases hbyte

/-- A word joins only a hash on its own line. -/
theorem joins_word {left right : Token} {gap : Bytes} (hword : isWord right.text = true) :
    joins left gap right = (left.text = [Byte.hash] && !gap.contains Byte.newline) := by
  unfold joins
  split
  next hhash => simp [hword, hhash]
  next hhash => simp [fuses_word hword, hhash]

/-- Whether the next basic token joins is decided by its first byte. -/
theorem joins_congr {left right other : Token} {gap after behind : Bytes}
    (hright : IsBasic right.text after) (hother : IsBasic other.text behind)
    (hhead : right.text.head? = other.text.head?) :
    joins left gap right = joins left gap other := by
  rcases hright with ⟨byte, hbyte, hdelimiter, _⟩ | ⟨hword, _⟩
  · rcases hother with ⟨second, hsecond, _, _⟩ | ⟨hword, _⟩
    · have hsame : right.text = other.text := by
        rw [hbyte, hsecond] at hhead ⊢
        simpa using hhead
      simp only [joins, hsame]
    · obtain ⟨_, hnone⟩ := isWord_iff.mp hword
      rw [hbyte] at hhead
      have hmem : byte ∈ other.text := List.mem_of_head? hhead.symm
      simp [hnone byte hmem] at hdelimiter
  · rcases hother with ⟨second, hsecond, hdelimiter, _⟩ | ⟨hsecond, _⟩
    · obtain ⟨_, hnone⟩ := isWord_iff.mp hword
      rw [hsecond] at hhead
      have hmem : second ∈ right.text := List.mem_of_head? hhead
      simp [hnone second hmem] at hdelimiter
    · rw [joins_word hword, joins_word hsecond]

/-- The basic token behind some bytes that are not all blank begins with the first of them
that is not. -/
theorem head?_of_basic? {start : Nat} {gap : Bytes} {byte : UInt8} {rest : Bytes}
    (hgap : Blank gap) (hbyte : isBlank byte = false) {token : Token} {after : Bytes}
    (hbasic : basic? start (gap ++ byte :: rest) = some (token, after)) :
    token.text.head? = some byte ∧ IsBasic token.text after := by
  rw [basic?_blank_append hgap] at hbasic
  obtain ⟨inner, hinner, hsplit, htext, _⟩ := basic?_eq_some_iff.mp hbasic
  refine ⟨?_, htext⟩
  cases inner with
  | nil =>
      obtain ⟨first, more, heq⟩ := List.exists_cons_of_ne_nil htext.ne_nil
      rw [heq] at hsplit ⊢
      obtain ⟨rfl, _⟩ := List.cons.inj hsplit
      rfl
  | cons first more =>
      obtain ⟨rfl, _⟩ := List.cons.inj hsplit
      simp [hinner byte List.mem_cons_self] at hbyte

theorem exists_blank_split {bytes : Bytes} (hsome : ∃ byte ∈ bytes, isBlank byte = false) :
    ∃ gap byte rest, Blank gap ∧ isBlank byte = false ∧ bytes = gap ++ byte :: rest := by
  obtain ⟨byte, hbyte, hblank⟩ := hsome
  cases hdrop : bytes.dropWhile isBlank with
  | nil => simp [List.dropWhile_eq_nil_iff.mp hdrop byte hbyte] at hblank
  | cons first rest =>
      refine ⟨bytes.takeWhile isBlank, first, rest, fun byte => List.mem_takeWhile_imp, ?_, ?_⟩
      · have hhead := List.head?_dropWhile_not isBlank bytes
        rw [hdrop] at hhead
        simpa using hhead
      · rw [← hdrop, List.takeWhile_append_dropWhile]

/-- Two basic tokens that join do so whatever follows, as long as the second still ends. -/
theorem next?_join_congr {start : Nat} {front back kept tail : Bytes} {left right : Token}
    (hleft : basic? start (front ++ back) = some (left, tail))
    (hright : basic? (left.last + 1) tail = some (right, kept ++ back))
    (hjoins : joins left (tail.takeWhile isBlank) right = true) {other : Bytes}
    (hother : isWord right.text = true → ∀ byte ∈ (kept ++ other).head?,
      isDelimiter byte = true) :
    next? start (front ++ other) =
      some (⟨left.first, right.last, left.text ++ right.text⟩, kept ++ other) := by
  obtain ⟨before, hbefore, hsplit, htext, hplace⟩ := basic?_eq_some_iff.mp hleft
  obtain ⟨between, hbetween, rfl, hbasic, hplaceRight⟩ := basic?_eq_some_iff.mp hright
  obtain ⟨byte, more, hmore⟩ := List.exists_cons_of_ne_nil hbasic.ne_nil
  have hfront : front = before ++ (left.text ++ (between ++ (right.text ++ kept))) := by
    have hcancel : front ++ back =
        before ++ (left.text ++ (between ++ (right.text ++ kept))) ++ back := by
      simpa using hsplit
    exact List.append_cancel_right hcancel
  have hhead : ∀ rest : Bytes, (between ++ (right.text ++ rest)).head? =
      (between ++ right.text).head? := by
    intro rest
    rw [hmore]
    cases between <;> rfl
  have hblanks : ∀ rest : Bytes, (between ++ (right.text ++ rest)).takeWhile isBlank = between := by
    intro rest
    rw [hmore] at hbasic ⊢
    rw [takeWhile_blank_append hbetween]
    simp [hbasic.head_not_blank]
  refine next?_eq_some_iff.mpr (.inr ⟨left, between ++ (right.text ++ (kept ++ other)), right,
    basic?_eq_some_iff.mpr ⟨before, hbefore, by simp [hfront], ?_, hplace⟩,
    basic?_eq_some_iff.mpr ⟨between, hbetween, rfl, hbasic.congr_after hother, hplaceRight⟩,
    ?_, rfl⟩)
  · refine htext.congr_after fun hword => ?_
    have hends := htext.ends hword
    rw [hhead] at hends ⊢
    exact hends
  · rw [hblanks] at hjoins ⊢
    exact hjoins

/-- What stands behind a token with another token behind it does not matter to the first. -/
theorem next?_congr_after {start : Nat} {front back kept : Bytes} {token : Token}
    (hnext : next? start (front ++ back) = some (token, kept ++ back))
    (hkept : ∃ byte ∈ kept, isBlank byte = false) (other : Bytes) :
    next? start (front ++ other) = some (token, kept ++ other) := by
  obtain ⟨gap, byte, rest, hgap, hbyte, rfl⟩ := exists_blank_split hkept
  have hhead : ∀ more : Bytes, (gap ++ byte :: rest ++ more).head? =
      (gap ++ byte :: rest).head? := by
    intro more
    cases gap <;> rfl
  have hblanks : ∀ more : Bytes, (gap ++ byte :: rest ++ more).takeWhile isBlank = gap := by
    intro more
    rw [List.append_assoc, takeWhile_blank_append hgap]
    simp [hbyte]
  rcases next?_eq_some_iff.mp hnext with
    ⟨hbasic, halone⟩ | ⟨left, tail, right, hleft, hright, hjoins, rfl⟩
  · obtain ⟨before, hbefore, hsplit, htext, hplace⟩ := basic?_eq_some_iff.mp hbasic
    have hfront : front = before ++ (token.text ++ (gap ++ byte :: rest)) := by
      have hcancel : front ++ back =
          before ++ (token.text ++ (gap ++ byte :: rest)) ++ back := by
        simpa using hsplit
      exact List.append_cancel_right hcancel
    refine next?_eq_some_iff.mpr
      (.inl ⟨basic?_eq_some_iff.mpr ⟨before, hbefore, by simp [hfront], ?_, hplace⟩, ?_⟩)
    · refine htext.congr_after fun hword => ?_
      have hends := htext.ends hword
      rw [hhead] at hends ⊢
      exact hends
    · intro right behind hright
      cases hbefore : basic? (token.last + 1) (gap ++ byte :: rest ++ back) with
      | none =>
          have hblank := basic?_eq_none_iff.mp hbefore byte (by simp)
          simp [hblank] at hbyte
      | some found =>
          have hfound := halone found.1 found.2 hbefore
          rw [List.append_assoc] at hright hbefore
          obtain ⟨hfirst, hbasicRight⟩ := head?_of_basic? hgap hbyte hright
          obtain ⟨hsecond, hbasicFound⟩ := head?_of_basic? hgap hbyte hbefore
          rw [hblanks] at hfound ⊢
          rw [joins_congr hbasicRight hbasicFound (hfirst.trans hsecond.symm)]
          exact hfound
  · refine next?_join_congr hleft hright hjoins fun hword => ?_
    obtain ⟨_, _, _, hbasic, _⟩ := basic?_eq_some_iff.mp hright
    have hends := hbasic.ends hword
    rw [hhead] at hends ⊢
    exact hends

/-- A newline ends every token. -/
theorem next?_newline {start : Nat} {front : Bytes} {token : Token} {after : Bytes}
    (hnext : next? start front = some (token, after)) (back : Bytes) :
    next? start (front ++ Byte.newline :: back) =
      some (token, after ++ Byte.newline :: back) := by
  have hends : ∀ byte ∈ (Byte.newline :: back).head?, isDelimiter byte = true := by
    intro byte hbyte
    obtain rfl : Byte.newline = byte := by simpa using hbyte
    exact isDelimiter_of_isBlank isBlank_newline
  rw [next?_eq_some_iff]
  rcases next?_eq_some_iff.mp hnext with
    ⟨hbasic, halone⟩ | ⟨left, tail, right, hleft, hright, hjoins, rfl⟩
  · refine .inl ⟨basic?_append hbasic fun _ _ => hends, fun right behind hright => ?_⟩
    cases hafter : basic? (token.last + 1) after with
    | none =>
        -- The next token stands behind the newline, which keeps the two apart.
        have hgap := takeWhile_blank_append (basic?_eq_none_iff.mp hafter)
          (Byte.newline :: back)
        rw [List.takeWhile_cons_of_pos isBlank_newline] at hgap
        rw [joins, hgap]
        split <;> simp
    | some found =>
        rw [basic?_append hafter fun _ _ => hends] at hright
        obtain ⟨rfl, rfl⟩ := Prod.mk.inj (Option.some.inj hright)
        rw [takeWhile_of_basic? hafter]
        exact halone found.1 found.2 hafter
  · refine .inr ⟨left, _, right, basic?_append hleft fun _ _ => hends,
      basic?_append hright fun _ _ => hends, ?_, rfl⟩
    rw [takeWhile_of_basic? hright]
    exact hjoins

theorem scan_of_blank {start : Nat} {rest : Bytes} (hblank : Blank rest) :
    scan start rest = [] := by
  have hnone : next? start rest = none := next?_eq_none_iff.mpr hblank
  unfold scan
  split
  next => rfl
  next hnext => simp [hnone] at hnext

theorem scan_of_next? {start : Nat} {rest : Bytes} {token : Token} {after : Bytes}
    (hnext : next? start rest = some (token, after)) :
    scan start rest = token :: scan (token.last + 1) after := by
  rw [scan]
  split
  next hnone => simp [hnext] at hnone
  next hsome =>
    obtain ⟨rfl, rfl⟩ := Prod.mk.inj (Option.some.inj (hnext.symm.trans hsome))
    rfl

theorem scan_blank_append {gap : Bytes} (hgap : Blank gap) (start : Nat) (rest : Bytes) :
    scan start (gap ++ rest) = scan (start + gap.length) rest := by
  cases hnext : next? (start + gap.length) rest with
  | none =>
      have hblank : Blank (gap ++ rest) := by
        rw [← next?_eq_none_iff, next?_blank_append hgap start]
        exact hnext
      rw [scan_of_blank hblank, scan_of_blank (next?_eq_none_iff.mp hnext)]
  | some found =>
      have hmoved := next?_blank_append hgap start rest
      rw [hnext] at hmoved
      rw [scan_of_next? hmoved, scan_of_next? hnext]

/-- The tokens of two texts with a newline between them are those of each. -/
theorem scan_newline (start : Nat) (front back : Bytes) :
    scan start (front ++ Byte.newline :: back) =
      scan start front ++ scan (start + front.length + 1) back := by
  cases hnext : next? start front with
  | none =>
      have hfront : Blank front := next?_eq_none_iff.mp hnext
      have hnewline : Blank [Byte.newline] := by
        intro byte hbyte
        rw [List.mem_singleton.mp hbyte, isBlank_newline]
      rw [scan_of_blank hfront, List.nil_append, scan_blank_append hfront]
      exact scan_blank_append hnewline (start + front.length) back
  | some found =>
      obtain ⟨token, after⟩ := found
      have hshorter := length_lt_of_next? hnext
      obtain ⟨gap, byte, more, _, _, _, hfront, hfirst, hlast⟩ := next?_place hnext
      have hoffset : token.last + 1 + after.length = start + front.length := by
        rw [hfront]
        simp only [List.length_append, List.length_cons]
        omega
      rw [scan_of_next? (next?_newline hnext back), scan_of_next? hnext,
        scan_newline (token.last + 1) after back, hoffset, List.cons_append]
termination_by front.length

/-- Every token lies in the text, and begins there with a byte that is not blank. -/
theorem mem_scan {start : Nat} {rest : Bytes} {token : Token} (hmem : token ∈ scan start rest) :
    ∃ index byte, token.first = start + index ∧ rest[index]? = some byte ∧
      token.text.head? = some byte ∧ isBlank byte = false ∧ token.first ≤ token.last ∧
      token.last < start + rest.length := by
  cases hnext : next? start rest with
  | none => simp [scan_of_blank (next?_eq_none_iff.mp hnext)] at hmem
  | some found =>
      obtain ⟨next, after⟩ := found
      have hshorter := length_lt_of_next? hnext
      obtain ⟨gap, byte, more, _, hhead, hblank, hrest, hfirst, hlast⟩ := next?_place hnext
      have hlength : rest.length = gap.length + 1 + more.length + after.length := by
        rw [hrest]
        simp only [List.length_append, List.length_cons]
        omega
      rw [scan_of_next? hnext] at hmem
      rcases List.mem_cons.mp hmem with rfl | hmem
      · refine ⟨gap.length, byte, hfirst, ?_, hhead, hblank, by omega, by omega⟩
        rw [hrest]
        simp
      · obtain ⟨index, other, hplace, hbyte, hothers⟩ := mem_scan hmem
        refine ⟨gap.length + 1 + more.length + index, other, by omega, ?_, hothers.1,
          hothers.2.1, hothers.2.2.1, by omega⟩
        rw [hrest, List.getElem?_append_right (by omega)]
        have hindex : gap.length + 1 + more.length + index - gap.length =
            (more.length + index) + 1 := by omega
        rw [hindex, List.getElem?_cons_succ, List.getElem?_append_right (by omega),
          Nat.add_sub_cancel_left]
        exact hbyte
termination_by rest.length

/-- Tokens follow each other: each begins behind the end of those in front of it. -/
theorem pairwise_scan (start : Nat) (rest : Bytes) :
    (scan start rest).Pairwise (·.last < ·.first) := by
  cases hnext : next? start rest with
  | none => simp [scan_of_blank (next?_eq_none_iff.mp hnext)]
  | some found =>
      have hshorter := length_lt_of_next? hnext
      rw [scan_of_next? hnext, List.pairwise_cons]
      refine ⟨fun later hlater => ?_, pairwise_scan _ _⟩
      obtain ⟨index, _, hfirst, _⟩ := mem_scan hlater
      omega
termination_by rest.length

theorem ascending_scan (start : Nat) (rest : Bytes) :
    (scan start rest).Pairwise (·.first < ·.first) := by
  refine (pairwise_scan start rest).imp_of_mem fun {token later} htoken _ hlt => ?_
  obtain ⟨_, _, _, _, _, _, hle, _⟩ := mem_scan htoken
  omega

end Token

end CDelta

import CDelta.Proofs.Spelling
import CDelta.Span

/-! # Tokenizing loses and repeats nothing

The tokens from an index on are those that taking the next token gives, again and again, each
time behind the last one, until there is none. They stand in the text one behind the other, each
shows the bytes of its span but the blanks in it, and all of them together show every byte from
the index on that is not blank, once.
-/

namespace CDelta

namespace Token

/-- The offsets from the first byte of a token to its last one. -/
def span (token : Token) : Span :=
  ⟨token.first, token.last⟩

/-- The bytes that are not blank. -/
def ink (data : Bytes) : Bytes :=
  data.filter (!isBlank ·)

theorem ink_append (front back : Bytes) : ink (front ++ back) = ink front ++ ink back :=
  List.filter_append front back

theorem ink_of_blank {gap : Bytes} (hgap : Blank gap) : ink gap = [] := by
  apply List.filter_eq_nil_iff.mpr
  intro byte hbyte
  simp [hgap byte hbyte]

theorem not_blank_of_isWord {word : Bytes} (hword : isWord word = true) {byte : UInt8}
    (hmem : byte ∈ word) : isBlank byte = false := by
  apply Bool.eq_false_iff.mpr
  intro hblank
  exact absurd (isDelimiter_of_isBlank hblank) (by simp [(isWord_iff.mp hword).2 byte hmem])

namespace Spells

variable {body text : Bytes}

/-- A token neither begins nor ends with a blank. -/
theorem ends_not_blank (hspells : Spells body text) :
    (∀ byte ∈ body.head?, isBlank byte = false) ∧ ∀ byte ∈ body.getLast?, isBlank byte = false := by
  cases hspells with
  | single _ hblank => simp [hblank]
  | word hword =>
      exact ⟨fun byte hbyte => not_blank_of_isWord hword (List.mem_of_mem_head? hbyte),
        fun byte hbyte => not_blank_of_isWord hword (List.mem_of_mem_getLast? hbyte)⟩
  | operator hfuses =>
      have hbytes := bytes_of_fuses hfuses
      simp only [List.mem_cons, List.not_mem_nil, or_false, forall_eq_or_imp, forall_eq] at hbytes
      simp [hbytes]
  | @hash gap word hgap hword =>
      refine ⟨by simp [show isBlank Byte.hash = false by decide], fun byte hbyte => ?_⟩
      have hlast : (Byte.hash :: (gap ++ word)).getLast? = word.getLast? := by
        have hsome := List.getLast?_eq_some_getLast (isWord_iff.mp hword).1
        rw [← List.cons_append, List.getLast?_append, hsome, Option.some_or]
      rw [hlast] at hbyte
      exact not_blank_of_isWord hword (List.mem_of_mem_getLast? hbyte)

end Spells

/-- The texts of all tokens, one behind the other, are the bytes that are not blank. -/
theorem flatten_texts_scan (start : Nat) (rest : Bytes) :
    ((scan start rest).map (·.text)).flatten = ink rest := by
  cases hnext : next? start rest with
  | none =>
      have hblank := next?_eq_none_iff.mp hnext
      rw [scan_of_blank hblank, ink_of_blank hblank]
      rfl
  | some found =>
      obtain ⟨token, after⟩ := found
      have hshorter := length_lt_of_next? hnext
      obtain ⟨gap, body, hgap, hrest, hspells, _⟩ := next?_spells hnext
      calc
        ((scan start rest).map (·.text)).flatten
          = token.text ++ ((scan (token.last + 1) after).map (·.text)).flatten := by
            rw [scan_of_next? hnext, List.map_cons, List.flatten_cons]
        _ = ink body ++ ink after := by
            rw [flatten_texts_scan (token.last + 1) after, hspells.text_eq]
            rfl
        _ = ink rest := by
            rw [hrest, ink_append, ink_of_blank hgap, ink_append, List.nil_append]
termination_by rest.length

/-- A token of a text from an index on: it lies there, does not begin or end with a blank, and
shows the bytes of its span but the blanks among them. -/
structure LiesIn (data : Bytes) (index : Nat) (token : Token) : Prop where
  behind : index ≤ token.first
  ordered : token.first ≤ token.last
  bounded : token.last < data.length
  begins : ∃ byte, data[token.first]? = some byte ∧ isBlank byte = false
  ends : ∃ byte, data[token.last]? = some byte ∧ isBlank byte = false
  text_eq : token.text = ink (token.span.slice data)

/-- A token that is read off a stretch of a text lies in the text. -/
theorem Spells.liesIn {front body after : Bytes} {token : Token}
    (hspells : Spells body token.text) (hfirst : token.first = front.length)
    (hlast : token.last + 1 = token.first + body.length) {index : Nat}
    (hindex : index ≤ front.length) : token.LiesIn (front ++ (body ++ after)) index := by
  have hlength : 0 < body.length := List.length_pos_iff.mpr hspells.ne_nil
  have hbyte : ∀ place, place < body.length →
      (front ++ (body ++ after))[front.length + place]? = body[place]? := by
    intro place hplace
    rw [List.getElem?_append_right (Nat.le_add_right _ _), Nat.add_sub_cancel_left,
      List.getElem?_append_left hplace]
  have hshown : ∀ place, place < body.length →
      (∀ byte ∈ body[place]?, isBlank byte = false) →
      ∃ byte, (front ++ (body ++ after))[front.length + place]? = some byte ∧
        isBlank byte = false := by
    intro place hplace hnone
    rw [hbyte place hplace]
    exact ⟨_, List.getElem?_eq_getElem hplace, hnone _ (List.getElem?_eq_getElem hplace)⟩
  obtain ⟨hhead, hfinal⟩ := hspells.ends_not_blank
  rw [List.head?_eq_getElem?] at hhead
  rw [List.getLast?_eq_getElem?] at hfinal
  have hend : token.last = front.length + (body.length - 1) := by omega
  constructor
  case behind => omega
  case ordered => omega
  case bounded =>
    simp only [List.length_append]
    omega
  case begins => simpa [hfirst] using hshown 0 hlength hhead
  case ends => simpa [hend] using hshown (body.length - 1) (by omega) hfinal
  case text_eq =>
    have hslice : token.span.slice (front ++ (body ++ after)) = body := by
      have htake : ((token.last : Int) + 1).toNat - (token.first : Int).toNat = body.length := by
        omega
      rw [span, Span.slice, htake, Int.toNat_natCast, hfirst, List.drop_left, List.take_left]
    rw [hslice]
    exact hspells.text_eq

theorem liesIn_of_mem_scan {data : Bytes} {index : Nat} {token : Token}
    (hmem : token ∈ scan index (data.drop index)) : token.LiesIn data index := by
  obtain ⟨between, body, after, hrest, hspells, hfirst, hlast⟩ := mem_scan_spells hmem
  have hdata : data = (data.take index ++ between) ++ (body ++ after) := by
    rw [List.append_assoc, ← hrest, List.take_append_drop]
  have hindex : (data.take index).length = index := by
    apply List.length_take_of_le
    have hsome : 0 < (data.drop index).length := by
      rw [hrest]
      have := List.length_pos_iff.mpr hspells.ne_nil
      simp only [List.length_append]
      omega
    rw [List.length_drop] at hsome
    omega
  rw [hdata]
  apply hspells.liesIn
  · rw [List.length_append, hindex, hfirst]
  · exact hlast
  · rw [List.length_append, hindex]
    exact Nat.le_add_right _ _

end Token

namespace Bytes

/-- Taking the next token from an index on, and each further one behind the last, comes to an end
and gives some tokens. -/
inductive Yields (data : Bytes) : Int → List Token → Prop
  | done {index : Int} (hnone : data.nextToken? index = none) : Yields data index []
  | more {index : Int} {token : Token} {tokens : List Token}
      (hnext : data.nextToken? index = some token)
      (hmore : Yields data (token.last + 1) tokens) : Yields data index (token :: tokens)

/-- Only one list of tokens comes of it. -/
theorem Yields.unique {data : Bytes} {index : Int} {tokens others : List Token}
    (htokens : data.Yields index tokens) (hothers : data.Yields index others) :
    tokens = others := by
  induction htokens generalizing others with
  | done hnone =>
      cases hothers with
      | done => rfl
      | more hnext => simp [hnone] at hnext
  | more hnext _ ih =>
      cases hothers with
      | done hnone => simp [hnone] at hnext
      | more hother hmore =>
          obtain rfl := Option.some.inj (hnext.symm.trans hother)
          rw [ih hmore]

/-- What is left behind a token is the text from behind its last byte on. -/
theorem drop_of_next? {data : Bytes} {index : Nat} {token : Token} {after : Bytes}
    (hnext : Token.next? index (data.drop index) = some (token, after)) :
    data.drop (token.last + 1) = after := by
  obtain ⟨gap, body, _, hrest, _, hfirst, hlast⟩ := Token.next?_spells hnext
  have hplace : token.last + 1 = index + (gap ++ body).length := by
    rw [List.length_append]
    omega
  rw [hplace, ← List.drop_drop, hrest, ← List.append_assoc, List.drop_left]

/-- A scan from an index on takes one token behind the other. -/
theorem yields_scan (data : Bytes) (index : Nat) :
    data.Yields index (Token.scan index (data.drop index)) := by
  cases hnext : Token.next? index (data.drop index) with
  | none =>
      rw [Token.scan_of_blank (Token.next?_eq_none_iff.mp hnext)]
      apply Yields.done
      simp [nextToken?, hnext]
  | some found =>
      obtain ⟨token, after⟩ := found
      have hafter := drop_of_next? hnext
      have hshorter : data.length - (token.last + 1) < data.length - index := by
        rw [← List.length_drop, ← List.length_drop, hafter]
        exact Token.length_lt_of_next? hnext
      rw [Token.scan_of_next? hnext, ← hafter]
      apply Yields.more
      · simp [nextToken?, hnext]
      · exact yields_scan data (token.last + 1)
termination_by data.length - index

theorem tokensFrom_natCast (data : Bytes) (index : Nat) :
    data.tokensFrom index = Token.scan index (data.drop index) := by
  have hindex : ¬ (index : Int) < 0 := by omega
  rw [tokensFrom, if_neg hindex, Int.toNat_natCast]

end Bytes

/-- Taking one token behind the other from an index on ends, and what it gives is the list of
tokens from there on. These follow each other in the text without sharing an offset, each lies at
or behind the index and shows its bytes but the blanks, and one behind the other they show every
byte that is not blank, once. -/
theorem tokens_lose_and_repeat_nothing (data : Bytes) (index : Nat) :
    (∀ tokens, data.Yields index tokens ↔ tokens = data.tokensFrom index) ∧
      (data.tokensFrom index).Pairwise (·.last < ·.first) ∧
      (∀ token ∈ data.tokensFrom index, token.LiesIn data index) ∧
      ((data.tokensFrom index).map (·.text)).flatten = Token.ink (data.drop index) := by
  rw [Bytes.tokensFrom_natCast]
  refine ⟨fun tokens => ⟨fun hyields => ?_, ?_⟩, Token.pairwise_scan index (data.drop index),
    fun token => Token.liesIn_of_mem_scan, Token.flatten_texts_scan index (data.drop index)⟩
  · exact hyields.unique (data.yields_scan index)
  · rintro rfl
    exact data.yields_scan index

end CDelta

import CDelta.Proofs.Lexing

/-! # The pass as an automaton

When comments do not nest, the pass over a text is that of an automaton which reads one byte
after the other and never looks ahead. It remembers where the comment, literal or escape under
way began, whether the byte before escapes the next one, and whether it may open or close a
comment together with it.
-/

namespace CDelta

/-- Where the automaton stands between two bytes. -/
inductive LexState where
  /-- Outside of literals, comments and escapes. -/
  | code
  /-- Outside of them as well, right behind a slash. -/
  | slash (first : Nat)
  /-- In a literal; the next byte may be escaped. -/
  | literal (kind : MarkKind) (quote : UInt8) (first : Nat) (escaped : Bool)
  /-- In a comment, behind its opening bracket; the byte before may be a star. -/
  | comment (first : Nat) (star : Bool)
  /-- Right behind a backslash outside of literals. -/
  | escape (first : Nat)
deriving DecidableEq, Repr

namespace LexState

/-- The state behind a byte of code. -/
def enter (offset : Nat) (byte : UInt8) : LexState :=
  if byte = Byte.doubleQuote then .literal .string byte offset false
  else if byte = Byte.singleQuote then .literal .character byte offset false
  else if byte = Byte.slash then .slash offset
  else if byte = Byte.backslash then .escape offset
  else .code

/-- The state behind one more byte. -/
def next (offset : Nat) (byte : UInt8) : LexState → LexState
  | code => enter offset byte
  | slash first => if byte = Byte.star then .comment first false else enter offset byte
  | literal kind quote first escaped =>
    if byte = quote && !escaped then .code
    else .literal kind quote first (byte = Byte.backslash && !escaped)
  | comment first star =>
    if star && byte = Byte.slash then .code else .comment first (byte = Byte.star)
  | escape _ => .code

/-- The mark that ends with a byte. -/
def mark? (offset : Nat) (byte : UInt8) : LexState → Option Mark
  | code | slash _ => none
  | literal kind quote first escaped =>
    if byte = quote && !escaped then some ⟨⟨first, offset⟩, kind⟩ else none
  | comment first star =>
    if star && byte = Byte.slash then some ⟨⟨first, offset⟩, .comment⟩ else none
  | escape first => some ⟨⟨first, offset⟩, .escape⟩

/-- The mark that the end of a text of some size cuts off. -/
def last? (size : Nat) : LexState → Option Mark
  | code | slash _ | comment _ _ => none
  | literal kind _ first _ => some ⟨⟨first, size - 1⟩, kind⟩
  | escape first => some ⟨⟨first, size - 1⟩, .escape⟩

/-- The comment that is under way. -/
def comment? : LexState → Option Nat
  | comment first _ => some first
  | _ => none

/-- The state behind all bytes of a text that begins at an offset. -/
def after (state : LexState) (offset : Nat) : Bytes → LexState
  | [] => state
  | byte :: rest => (state.next offset byte).after (offset + 1) rest

/-- The marks that end in a text that begins at an offset, or with it. -/
def marks (state : LexState) (offset : Nat) : Bytes → List Mark
  | [] => (state.last? offset).toList
  | byte :: rest =>
    (state.mark? offset byte).toList ++ (state.next offset byte).marks (offset + 1) rest

/-- All that the automaton finds from a state on. -/
def run (state : LexState) (offset : Nat) (data : Bytes) : Marking :=
  ⟨state.marks offset data, (state.after offset data).comment?⟩

theorem comment?_eq_some_iff {state : LexState} {first : Nat} :
    state.comment? = some first ↔ ∃ star, state = .comment first star := by
  cases state <;> simp [comment?]

theorem run_cons_of_none {state : LexState} {offset : Nat} {byte : UInt8}
    (hnone : state.mark? offset byte = none) (rest : Bytes) :
    state.run offset (byte :: rest) = (state.next offset byte).run (offset + 1) rest := by
  simp [run, marks, after, hnone]

theorem run_cons_of_some {state : LexState} {offset : Nat} {byte : UInt8} {mark : Mark}
    (hmark : state.mark? offset byte = some mark) (rest : Bytes) :
    state.run offset (byte :: rest) =
      Marking.cons mark ((state.next offset byte).run (offset + 1) rest) := by
  simp [run, marks, after, hmark, Marking.cons]

/-- A slash is code unless a star follows. -/
theorem run_slash {rest : Bytes} (hstar : rest.head? ≠ some Byte.star) (first offset : Nat) :
    (slash first).run offset rest = code.run offset rest := by
  cases rest with
  | nil => rfl
  | cons byte rest =>
      have hbyte : byte ≠ Byte.star := by simpa using hstar
      have hnext : (slash first).next offset byte = code.next offset byte := if_neg hbyte
      rw [run_cons_of_none rfl, run_cons_of_none rfl, hnext]

/-- A literal is read to its closing quote, or to the end of the text. -/
theorem run_literal (kind : MarkKind) (quote : UInt8) (first : Nat) (escaped : Bool)
    (offset : Nat) (rest : Bytes) :
    (literal kind quote first escaped).run offset rest =
      Marking.cons ⟨⟨first, offset + Bytes.literalRest quote escaped rest - 1⟩, kind⟩
        (code.run (offset + Bytes.literalRest quote escaped rest)
          (rest.drop (Bytes.literalRest quote escaped rest))) := by
  induction rest generalizing offset escaped with
  | nil => simp [run, marks, after, last?, comment?, Bytes.literalRest, Marking.cons]
  | cons byte rest ih =>
      by_cases hquote : (byte = quote && !escaped) = true
      · have hmark : (literal kind quote first escaped).mark? offset byte =
            some ⟨⟨first, offset⟩, kind⟩ := by
          rw [mark?, if_pos hquote]
        rw [run_cons_of_some hmark, next, if_pos hquote, Bytes.literalRest, if_pos hquote]
        simp
      · have hmark : (literal kind quote first escaped).mark? offset byte = none := by
          rw [mark?, if_neg hquote]
        have hplace : ∀ more : Nat, offset + (1 + more) = offset + 1 + more := by
          intro more
          omega
        rw [run_cons_of_none hmark, next, if_neg hquote, ih, Bytes.literalRest, if_neg hquote,
          hplace, Nat.add_comm 1, List.drop_succ_cons]
        congr 3
        push_cast
        omega

/-- A comment is read to the first closing bracket inside of it. -/
theorem run_comment (first offset : Nat) (byte : UInt8) (rest : Bytes) :
    (comment first (byte = Byte.star)).run (offset + 1) rest =
      match CommentRule.flatRest (byte :: rest) with
      | none => Marking.stopped first
      | some size => Marking.cons ⟨⟨first, offset + size - 1⟩, .comment⟩
          (code.run (offset + size) ((byte :: rest).drop size)) := by
  induction rest generalizing offset byte with
  | nil => rfl
  | cons next rest ih =>
      by_cases hcloses : (decide (byte = Byte.star) && decide (next = Byte.slash)) = true
      · have hmark : (comment first (byte = Byte.star)).mark? (offset + 1) next =
            some ⟨⟨first, (offset + 1 : Nat)⟩, .comment⟩ := if_pos hcloses
        have hcode : (comment first (byte = Byte.star)).next (offset + 1) next = code :=
          if_pos hcloses
        have hlast : (offset : Int) + (2 : Nat) - 1 = (offset + 1 : Nat) := by omega
        rw [run_cons_of_some hmark, hcode, CommentRule.flatRest, if_pos hcloses]
        simp only [hlast, List.drop_succ_cons, List.drop_zero]
      · have hmark : (comment first (byte = Byte.star)).mark? (offset + 1) next = none :=
          if_neg hcloses
        have hstate : (comment first (byte = Byte.star)).next (offset + 1) next =
            comment first (next = Byte.star) := if_neg hcloses
        rw [run_cons_of_none hmark, hstate, ih, CommentRule.flatRest, if_neg hcloses]
        cases CommentRule.flatRest (next :: rest) with
        | none => rfl
        | some size =>
            have hplace : offset + 1 + size = offset + (size + 1) := by omega
            have hlast : ((offset + 1 : Nat) : Int) + size - 1 = offset + (size + 1 : Nat) - 1 := by
              omega
            simp only [Option.map_some, hplace, hlast, List.drop_succ_cons]

/-- Behind an opening bracket the comment is read to its end. -/
theorem run_opened (first : Nat) (rest : Bytes) :
    (comment first false).run (first + 2) rest =
      match CommentRule.flat.length? first (Byte.slash :: Byte.star :: rest) with
      | none => Marking.stopped first
      | some size => Marking.cons ⟨⟨first, first + size - 1⟩, .comment⟩
          (code.run (first + size) ((Byte.star :: rest).drop (size - 1))) := by
  rw [CommentRule.flat_length?]
  cases rest with
  | nil => rfl
  | cons byte rest =>
      have hmark : (comment first false).mark? (first + 2) byte = none := rfl
      have hstate : (comment first false).next (first + 2) byte =
          comment first (byte = Byte.star) := rfl
      rw [run_cons_of_none hmark, hstate, run_comment first (first + 2)]
      cases CommentRule.flatRest (byte :: rest) with
      | none => rfl
      | some size =>
          have hplace : first + 2 + size = first + (size + 2) := by omega
          have hlast : ((first + 2 : Nat) : Int) + size - 1 = first + (size + 2 : Nat) - 1 := by
            omega
          simp only [Option.map_some, hplace, hlast, Nat.add_succ_sub_one, List.drop_succ_cons]

theorem enter_of_literalKind? {byte : UInt8} {kind : MarkKind}
    (hkind : Marking.literalKind? byte = some kind) (offset : Nat) :
    enter offset byte = literal kind byte offset false := by
  unfold Marking.literalKind? at hkind
  unfold enter
  split at hkind
  next hdouble =>
    obtain rfl := Option.some.inj hkind
    exact if_pos hdouble
  next hdouble =>
    split at hkind
    next hsingle =>
      obtain rfl := Option.some.inj hkind
      rw [if_neg hdouble, if_pos hsingle]
    next => cases hkind

theorem enter_of_plain {byte : UInt8} (hkind : Marking.literalKind? byte = none)
    (hslash : byte ≠ Byte.slash) (hescape : byte ≠ Byte.backslash) (offset : Nat) :
    enter offset byte = code := by
  unfold Marking.literalKind? at hkind
  split at hkind
  next => cases hkind
  next hdouble =>
    split at hkind
    next => cases hkind
    next hsingle => rw [enter, if_neg hdouble, if_neg hsingle, if_neg hslash, if_neg hescape]

/-- The automaton finds in code what the pass does. -/
theorem run_code (start : Nat) (data : Bytes) :
    code.run start data = Marking.scan .flat start data := by
  -- the pass jumps over whole literals, comments and escapes, and so do the lemmas above
  fun_induction Marking.scan CommentRule.flat start data with
  | case1 => rfl
  | case2 start byte tail kind hkind more ih =>
      have hstate : code.next start byte = literal kind byte start false :=
        enter_of_literalKind? hkind start
      have hlast : ((start + 1 : Nat) : Int) + more - 1 = start + more := by omega
      rw [run_cons_of_none rfl, hstate, run_literal, hlast, ih]
  | case3 start tail hstar _ hlength =>
      obtain ⟨rest, rfl⟩ := List.head?_eq_some_iff.mp hstar
      have hopened := run_opened start rest
      rw [hlength] at hopened
      rw [run_cons_of_none rfl, run_cons_of_none rfl]
      exact hopened
  | case4 start tail hstar size _ hlength ih =>
      obtain ⟨rest, rfl⟩ := List.head?_eq_some_iff.mp hstar
      have hopened := run_opened start rest
      rw [hlength] at hopened
      rw [run_cons_of_none rfl, run_cons_of_none rfl, ← ih]
      exact hopened
  | case5 start tail hstar _ ih =>
      rw [run_cons_of_none rfl]
      exact (run_slash hstar start (start + 1)).trans ih
  | case6 start tail more _ _ ih =>
      rw [run_cons_of_none rfl, ← ih]
      cases tail with
      | nil =>
          have hcut : (escape start).run (start + 1) [] =
              ⟨[⟨⟨start, (start + 1 : Nat) - 1⟩, .escape⟩], none⟩ := rfl
          have hlast : ((start + 1 : Nat) : Int) - 1 = start + more := by simp [more]
          exact hcut.trans (hlast ▸ rfl)
      | cons byte rest =>
          have hlast : ((start + 1 : Nat) : Int) = start + more := by simp [more]
          have htaken : (escape start).mark? (start + 1) byte =
              some ⟨⟨start, start + more⟩, .escape⟩ := hlast ▸ rfl
          exact run_cons_of_some htaken rest
  | case7 start byte tail hkind hslash hescape ih =>
      have hstate : code.next start byte = code := enter_of_plain hkind hslash hescape start
      rw [run_cons_of_none rfl, hstate, ih]

end LexState

namespace Bytes

theorem marks_flat_of_stopped {data : Bytes} {first : Nat}
    (hstopped : (LexState.code.after 0 data).comment? = some first) :
    data.marks .flat .everything = .error (.openComment (data.lineAt first)) := by
  have hopen : (data.marking .flat).openComment = some first := by
    rw [marking, ← LexState.run_code]
    exact hstopped
  simp only [marks, hopen]

theorem marks_flat_of_done {data : Bytes}
    (hdone : (LexState.code.after 0 data).comment? = none) :
    data.marks .flat .everything = .ok (LexState.code.marks 0 data) := by
  have hrun := LexState.run_code 0 data
  have hopen : (data.marking .flat).openComment = none :=
    (congrArg Marking.openComment hrun).symm.trans hdone
  obtain ⟨pieces, hfit, rfl⟩ := Piece.exists_fit hopen
  rw [Piece.scan_bytes hfit] at hrun
  have hmarks : LexState.code.marks 0 (Piece.bytes pieces) = Piece.marksFrom 0 pieces :=
    congrArg Marking.marks hrun
  rw [hmarks, Piece.marks_eq_ok_iff]
  exact ⟨pieces, hfit, rfl, (Piece.filter_everything hfit 0).symm⟩

end Bytes

/-- When comments do not nest, the marks of a text are those of the automaton. The text is
refused exactly when the automaton ends in a comment, with the line that the comment opens
on. -/
theorem flat_marks_by_automaton (data : Bytes) :
    (∀ fault, data.marks .flat .everything = .error fault ↔
      ∃ first star, LexState.code.after 0 data = .comment first star ∧
        fault = .openComment ((data.take first).count Byte.newline + 1)) ∧
    ∀ marks, data.marks .flat .everything = .ok marks ↔
      (¬ ∃ first star, LexState.code.after 0 data = .comment first star) ∧
        marks = LexState.code.marks 0 data := by
  simp only [exists_and_right, ← LexState.comment?_eq_some_iff, ← Bytes.lineAt_eq_count]
  cases hend : (LexState.code.after 0 data).comment? with
  | none =>
      rw [Bytes.marks_flat_of_done hend]
      simp [eq_comm]
  | some first =>
      rw [Bytes.marks_flat_of_stopped hend]
      simp [eq_comm]

end CDelta

import CDelta.Proofs.Directive
import CDelta.Proofs.Insertion.Tokens

/-! # Blanks inside of lines

Blanks inserted into a line where no token reaches across change neither what the line is nor
whether it is joined to the next. So a block stays one, wherever it begins.
-/

namespace CDelta

namespace Bytes

/-- Which lines are joined does not depend on what follows them. -/
theorem joinsNext_congr_after {front : Bytes} {stop : Nat} (hstop : stop ≤ front.length)
    (back other : Bytes) : (front ++ back).joinsNext stop = (front ++ other).joinsNext stop := by
  have hlength : (front.take stop).length = stop := List.length_take_of_le hstop
  have hsplit : ∀ rest, (front ++ rest).joinsNext stop =
      joinsNext (front.take stop ++ (front.drop stop ++ rest)) (front.take stop).length := by
    intro rest
    rw [← List.append_assoc, List.take_append_drop, hlength]
  rw [hsplit, hsplit, Bool.eq_iff_iff, joinsNext_append_iff, joinsNext_append_iff]

/-- A line end with blanks behind its first byte does not reach across a byte that is not
blank. -/
theorem suffix_append_iff {first byte : UInt8} {blanks front back : Bytes}
    (hblanks : Token.Blank blanks) (hhead : back.head? = some byte)
    (hbyte : Token.isBlank byte = false) :
    first :: blanks <:+ front ++ back ↔ first :: blanks <:+ back := by
  refine ⟨fun hsuffix => ?_, fun hsuffix => hsuffix.trans (List.suffix_append front back)⟩
  by_cases hlength : (first :: blanks).length ≤ back.length
  · exact List.suffix_of_suffix_length_le hsuffix (List.suffix_append front back) hlength
  · -- otherwise the text behind is one of the blanks and all that follows it
    have hshort : back <:+ first :: blanks :=
      List.suffix_of_suffix_length_le (List.suffix_append front back) hsuffix (by omega)
    rcases List.suffix_cons_iff.mp hshort with rfl | hinside
    · exact List.suffix_rfl
    · have hblank := hblanks byte (hinside.subset (List.mem_of_mem_head? hhead))
      rw [hbyte] at hblank
      cases hblank

/-- Text inserted in front of a byte that is not blank moves the lines behind it that are
joined. -/
theorem joinsNext_insert {front back : Bytes} {byte : UInt8} (hhead : back.head? = some byte)
    (hbyte : Token.isBlank byte = false) (gap : Bytes) {stop : Nat}
    (hlow : front.length < stop) (hhigh : stop ≤ (front ++ back).length) :
    (front ++ (gap ++ back)).joinsNext (stop + gap.length) = (front ++ back).joinsNext stop := by
  rw [List.length_append] at hhigh
  let head := back.take (stop - front.length)
  let tail := back.drop (stop - front.length)
  have hsplit : back = head ++ tail := (List.take_append_drop _ _).symm
  have hstop : stop = (front ++ head).length := by
    rw [List.length_append, List.length_take]
    omega
  have hstart : head.head? = some byte := by
    rw [← hhead, List.head?_take, if_neg (by omega)]
  have hends : ∀ before : Bytes,
      ([Byte.backslash, Byte.newline] <:+ before ++ head ∨
        [Byte.backslash, Byte.carriageReturn, Byte.newline] <:+ before ++ head) ↔
      ([Byte.backslash, Byte.newline] <:+ head ∨
        [Byte.backslash, Byte.carriageReturn, Byte.newline] <:+ head) := by
    intro before
    have hnewline : Token.Blank [Byte.newline] := by simp [Token.Blank, Token.isBlank_newline]
    have hreturn : Token.Blank [Byte.carriageReturn, Byte.newline] := by
      simp [Token.Blank, Token.isBlank, Token.blanks]
    rw [suffix_append_iff hnewline hstart hbyte, suffix_append_iff hreturn hstart hbyte]
  have htarget : front ++ (gap ++ back) = front ++ gap ++ head ++ tail := by
    rw [hsplit]
    simp
  have hsource : front ++ back = front ++ head ++ tail := by
    rw [hsplit, List.append_assoc]
  have hplace : stop + gap.length = (front ++ gap ++ head).length := by
    rw [hstop]
    simp only [List.length_append]
    omega
  rw [htarget, hsource, hplace, hstop, Bool.eq_iff_iff, joinsNext_append_iff,
    joinsNext_append_iff, hends, hends]

namespace IsLine

/-- A line stays one when text without a newline is inserted in front of its end. -/
theorem insert {front back after gap : Bytes} (hline : IsLine (front ++ back) after)
    (hback : back ≠ []) (hgap : Byte.newline ∉ gap) : IsLine (front ++ (gap ++ back)) after := by
  obtain ⟨body, hbody, hends | ⟨rfl, hne, hnil⟩⟩ := hline
  · obtain ⟨kept, last, rfl⟩ := (List.eq_nil_or_concat back).resolve_left hback
    rw [List.concat_eq_append, ← List.append_assoc] at hends
    obtain ⟨rfl, hlast⟩ := List.append_inj' hends rfl
    obtain rfl : last = Byte.newline := List.singleton_inj.mp hlast
    obtain ⟨hfront, hkept⟩ := not_or.mp (mt List.mem_append.mpr hbody)
    refine ⟨front ++ (gap ++ kept), ?_, .inl ?_⟩
    · simp [hfront, hgap, hkept]
    · simp
  · obtain ⟨hfront, hkept⟩ := not_or.mp (mt List.mem_append.mpr hbody)
    exact ⟨front ++ (gap ++ back), by simp [hfront, hgap, hkept],
      .inr ⟨rfl, by simp [hback], hnil⟩⟩

end IsLine

end Bytes

namespace Directive

open Bytes (IsLine)

/-- What a line is depends on its first token alone. -/
theorem lineKind?_eq_scan (start : Nat) (line : Bytes) :
    lineKind? line = (Token.scan start line).head?.bind fun token => kind? token.text := by
  have hshift := Token.next?_shift 0 start line
  rw [Nat.zero_add] at hshift
  unfold lineKind?
  cases hnext : Token.next? 0 line with
  | none => rw [Token.scan_of_blank (Token.next?_eq_none_iff.mp hnext)]; rfl
  | some found =>
      rw [hnext] at hshift
      rw [Token.scan_of_next? hshift]
      rfl

/-- Blanks inserted where no token reaches across do not change what a line is. -/
theorem lineKind?_insert {gap : Bytes} (hgap : Token.Blank gap) {start : Nat}
    {front back : Bytes}
    (hclear : ∀ token ∈ Token.scan start (front ++ back),
      token.last < start + front.length ∨ start + front.length ≤ token.first) :
    lineKind? (front ++ (gap ++ back)) = lineKind? (front ++ back) := by
  rw [lineKind?_eq_scan start, lineKind?_eq_scan start,
    Token.scan_insert hgap start front back hclear, List.head?_map, Option.bind_map]
  rfl

namespace Joined

variable {source target : Bytes} {stop place : Nat} {line more front back after other : Bytes}

/-- A line and those joined to it, with text inserted into one of them. The lines behind the
first are left to `hlater`. -/
theorem insert_line (hline : IsLine line (more ++ after))
    (hmore : Joined source (stop + line.length) more after)
    (hsplit : line ++ more = front ++ back) (hback : back ≠ []) {gap : Bytes}
    (hgap : Byte.newline ∉ gap)
    (hbehind : ∀ index, front.length < index → index ≤ (front ++ back).length →
      target.joinsNext (place + gap.length + index) = source.joinsNext (stop + index))
    (hend : after = [] ↔ other = [])
    (hlater : ∀ kept, front = line ++ kept → more = kept ++ back →
      Joined target (place + line.length) (kept ++ (gap ++ back)) other) :
    ∃ first rest, front ++ (gap ++ back) = first ++ rest ∧ IsLine first (rest ++ other) ∧
      Joined target (place + first.length) rest other ∧
      (first = line ∨ ∃ kept, line = front ++ kept ∧ first = front ++ (gap ++ kept)) := by
  have hbeyond : ∀ kept, front = line ++ kept → more = kept ++ back →
      ∃ first rest, front ++ (gap ++ back) = first ++ rest ∧ IsLine first (rest ++ other) ∧
        Joined target (place + first.length) rest other ∧
        (first = line ∨ ∃ kept, line = front ++ kept ∧ first = front ++ (gap ++ kept)) := by
    intro kept hfront hkept
    refine ⟨line, kept ++ (gap ++ back), by rw [hfront, List.append_assoc],
      hline.congr_after fun hnil => ?_, hlater kept hfront hkept, .inl rfl⟩
    rw [hkept] at hnil
    simp [hback] at hnil
  rcases List.append_eq_append_iff.mp hsplit with ⟨kept, hfront, hkept⟩ | ⟨kept, hfront, hkept⟩
  · exact hbeyond kept hfront hkept
  · by_cases hnone : kept = []
    · subst hnone
      exact hbeyond [] (by simpa using hfront.symm) (by simpa using hkept.symm)
    · -- the text is inserted into the first line, so all joined lines only move
      subst hfront hkept
      have hmoved : ∀ index ≤ more.length,
          target.joinsNext (place + (front ++ (gap ++ kept)).length + index) =
            source.joinsNext (stop + (front ++ kept).length + index) := by
        intro index hindex
        have hpos := List.length_pos_iff.mpr hnone
        have hplace := hbehind ((front ++ kept).length + index)
          (by rw [List.length_append]; omega) (by simp only [List.length_append]; omega)
        rw [← Nat.add_assoc stop] at hplace
        rw [← hplace]
        congr 1
        simp only [List.length_append]
        omega
      refine ⟨front ++ (gap ++ kept), more, by simp,
        (hline.congr_after fun hnil => ?_).insert hnone hgap,
        hmore.congr (fun _ => hmoved 0 (Nat.zero_le _)) (fun index hnewline => ?_) hend,
        .inr ⟨kept, rfl, rfl⟩⟩
      · obtain ⟨rfl, hafter⟩ := List.append_eq_nil_iff.mp hnil
        simpa using hend.mp hafter
      · exact hmoved (index + 1) (List.getElem?_eq_some_iff.mp hnewline).1

/-- Joined lines stay joined when text without a newline is inserted into one of them. -/
theorem insert (hjoined : Joined source stop more after) (hsplit : more = front ++ back)
    (hback : back ≠ []) {gap : Bytes} (hgap : Byte.newline ∉ gap)
    (hbefore : ∀ index ≤ front.length,
      target.joinsNext (place + index) = source.joinsNext (stop + index))
    (hbehind : ∀ index, front.length < index → index ≤ (front ++ back).length →
      target.joinsNext (place + gap.length + index) = source.joinsNext (stop + index))
    (hend : after = [] ↔ other = []) :
    Joined target place (front ++ (gap ++ back)) other := by
  induction hjoined generalizing place front with
  | stop => exact absurd (List.append_eq_nil_iff.mp hsplit.symm).2 hback
  | @line stop line more after hjoins hline hmore ih =>
      have hfirst : target.joinsNext place = true := (hbefore 0 (Nat.zero_le _)).trans hjoins
      obtain ⟨first, rest, htext, hnew, hrest, _⟩ :=
        insert_line hline hmore hsplit hback hgap hbehind hend (by
          rintro kept rfl hkept
          refine ih hkept (fun index hindex => ?_) (fun index hlow hhigh => ?_) hend
          · rw [Nat.add_assoc, Nat.add_assoc]
            exact hbefore _ (by rw [List.length_append]; omega)
          · have hplace := hbehind (line.length + index) (by rw [List.length_append]; omega)
              (by rw [List.append_assoc, List.length_append]; omega)
            rwa [← Nat.add_assoc, ← Nat.add_assoc, Nat.add_right_comm place] at hplace)
      rw [htext]
      exact .line hfirst hnew hrest

end Joined

namespace Block

variable {source target : Bytes} {start place : Nat} {piece : Piece} {after other : Bytes}

/-- The first line of a block has the tokens in front of its end. -/
theorem scan_first {line more : Bytes} (hline : IsLine line (more ++ after)) {token : Token}
    (hmem : token ∈ Token.scan start line) : token ∈ Token.scan start (line ++ more) := by
  rw [Token.scan_append fun _ hmore => hline.ends (by simp [hmore])]
  exact List.mem_append_left _ hmem

/-- A block stays one when blanks are inserted into it where no token reaches across. -/
theorem insert {front back gap : Bytes} (hblock : Block source start piece after)
    (htext : piece.text = front ++ back) (hback : back ≠ []) (hgap : Token.Blank gap)
    (hline : Byte.newline ∉ gap)
    (hclear : ∀ token ∈ Token.scan start piece.text,
      token.last < start + front.length ∨ start + front.length ≤ token.first)
    (hbefore : ∀ index, 0 < index → index ≤ front.length →
      target.joinsNext (place + index) = source.joinsNext (start + index))
    (hbehind : ∀ index, front.length < index → index ≤ piece.text.length →
      target.joinsNext (place + gap.length + index) = source.joinsNext (start + index))
    (hend : after = [] ↔ other = []) :
    Block target place ⟨piece.kind, front ++ (gap ++ back)⟩ other := by
  cases hblock with
  | plain hwhole hkind =>
      obtain rfl := htext
      refine .plain ((hwhole.congr_after hend.mp).insert hback hline) ?_
      rw [lineKind?_insert hgap hclear, hkind]
  | @directive kind line more _ hfirst hkind hmore =>
      have hsplit : line ++ more = front ++ back := htext
      have hpos := List.length_pos_iff.mpr hfirst.ne_nil
      rw [htext] at hbehind
      obtain ⟨first, rest, hbytes, hnew, hrest, hsame⟩ :=
        Joined.insert_line hfirst hmore hsplit hback hline hbehind hend (by
          rintro kept rfl hkept
          refine hmore.insert hkept hback hline (fun index hindex => ?_)
            (fun index hlow hhigh => ?_) hend
          · rw [Nat.add_assoc, Nat.add_assoc]
            exact hbefore _ (by omega) (by rw [List.length_append]; omega)
          · have hplace := hbehind (line.length + index) (by rw [List.length_append]; omega)
              (by rw [List.append_assoc, List.length_append]; omega)
            rwa [← Nat.add_assoc, ← Nat.add_assoc, Nat.add_right_comm place] at hplace)
      rw [hbytes]
      refine .directive hnew ?_ hrest
      rcases hsame with rfl | ⟨kept, rfl, rfl⟩
      · exact hkind
      · rw [← hkind]
        exact lineKind?_insert hgap fun token htoken => hclear token (scan_first hfirst htoken)

end Block

namespace Blocks

variable {source target : Bytes} {start place : Nat}

/-- Blocks stay what they are when blanks are inserted into one of them. -/
theorem insert {before later : List Piece} {piece : Piece} {front back gap : Bytes}
    (hblocks : Blocks source start (before ++ piece :: later))
    (htext : piece.text = front ++ back) (hback : back ≠ []) (hgap : Token.Blank gap)
    (hline : Byte.newline ∉ gap)
    (hclear : ∀ token ∈ Token.scan (start + (Piece.bytes before).length) piece.text,
      token.last < start + (Piece.bytes before).length + front.length ∨
        start + (Piece.bytes before).length + front.length ≤ token.first)
    (hbefore : ∀ index, 0 < index → index ≤ (Piece.bytes before).length + front.length →
      target.joinsNext (start + index) = source.joinsNext (start + index))
    (hbehind : ∀ index, (Piece.bytes before).length + front.length < index →
      index ≤ (Piece.bytes (before ++ piece :: later)).length →
      target.joinsNext (start + gap.length + index) = source.joinsNext (start + index)) :
    Blocks target start (before ++ ⟨piece.kind, front ++ (gap ++ back)⟩ :: later) := by
  induction before generalizing start with
  | nil =>
      obtain ⟨hblock, hrest⟩ := hblocks
      simp only [Piece.bytes_nil, List.length_nil, Nat.add_zero, Nat.zero_add, List.nil_append,
        Piece.bytes_cons, List.length_append] at hclear hbefore hbehind
      have hlength : piece.text.length = front.length + back.length := by
        rw [htext, List.length_append]
      refine ⟨hblock.insert htext hback hgap hline hclear hbefore (fun index hlow hhigh => ?_)
        Iff.rfl, hrest.congr fun index hnewline => ?_⟩
      · exact hbehind index hlow (by omega)
      · have hhigh := (List.getElem?_eq_some_iff.mp hnewline).1
        rw [Nat.add_assoc start piece.text.length, ← hbehind _ (by omega) (by omega)]
        congr 1
        simp only [List.length_append]
        omega
  | cons first rest ih =>
      obtain ⟨hblock, hrest⟩ := hblocks
      simp only [List.cons_append, Piece.bytes_cons, List.length_append, ← Nat.add_assoc]
        at hclear hbefore hbehind
      refine ⟨hblock.congr (fun index hnewline => ?_) ?_,
        ih hrest hclear (fun index hlow hhigh => ?_) (fun index hlow hhigh => ?_)⟩
      · have hhigh := (List.getElem?_eq_some_iff.mp hnewline).1
        exact hbefore _ (by omega) (by omega)
      · -- neither text behind the first block is empty
        simp [htext, hback]
      · rw [Nat.add_assoc]
        exact hbefore _ (by omega) (by omega)
      · rw [Nat.add_right_comm start, Nat.add_assoc, Nat.add_assoc start first.text.length]
        exact hbehind _ (by omega) (by omega)

end Blocks

end Directive

end CDelta

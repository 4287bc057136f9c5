import CDelta.Directive
import CDelta.Proofs.Piece
import CDelta.Proofs.Token

/-! # Lines and directives as a cut into blocks

The search for directives cuts a working copy into blocks: a line that is no directive, or a
directive line with all that is joined to it. The blocks determine the directives, and blocks
that fit each other are what the search finds in the text they make. Blocks meet only behind
newlines, so they are blocks of any text in which the same newlines join lines.
-/

namespace CDelta

namespace Bytes

theorem lines_newline {front : Bytes} (hfront : Byte.newline ∉ front) (back : Bytes) :
    lines (front ++ Byte.newline :: back) = (front ++ [Byte.newline]) :: lines back := by
  induction front with
  | nil => simp [lines]
  | cons byte front ih =>
      obtain ⟨hbyte, hfront⟩ := List.ne_and_not_mem_of_not_mem_cons hfront
      rw [List.cons_append, lines, if_neg hbyte.symm, ih hfront]
      rfl

theorem lines_of_no_newline {line : Bytes} (hline : Byte.newline ∉ line) (hne : line ≠ []) :
    lines line = [line] := by
  induction line with
  | nil => exact absurd rfl hne
  | cons byte line ih =>
      obtain ⟨hbyte, hline⟩ := List.ne_and_not_mem_of_not_mem_cons hline
      rw [lines, if_neg hbyte.symm]
      cases line with
      | nil => rfl
      | cons next line => rw [ih hline (by simp)]

/-- The text is one line in front of `after`: it has a newline at its end and nowhere else, or
is the last line and has none. -/
def IsLine (line after : Bytes) : Prop :=
  ∃ front, Byte.newline ∉ front ∧
    (line = front ++ [Byte.newline] ∨ line = front ∧ front ≠ [] ∧ after = [])

namespace IsLine

variable {line after : Bytes}

theorem ne_nil (hline : IsLine line after) : line ≠ [] := by
  obtain ⟨front, _, rfl | ⟨rfl, hne, _⟩⟩ := hline
  · simp
  · exact hne

theorem lines_append (hline : IsLine line after) :
    lines (line ++ after) = line :: lines after := by
  obtain ⟨front, hfront, rfl | ⟨rfl, hne, rfl⟩⟩ := hline
  · rw [List.append_assoc, List.singleton_append, lines_newline hfront]
  · rw [List.append_nil, lines_of_no_newline hfront hne, lines]

theorem ends (hline : IsLine line after) (hafter : after ≠ []) :
    line.getLast? = some Byte.newline := by
  obtain ⟨front, _, rfl | ⟨_, _, hnil⟩⟩ := hline
  · simp
  · exact absurd hnil hafter

/-- A line in front of another has its newline at its last offset. -/
theorem exists_newline {text after : Bytes} (hline : IsLine text after) (hafter : after ≠ []) :
    ∃ index, text.length = index + 1 ∧ text[index]? = some Byte.newline := by
  obtain ⟨index, hindex⟩ := Nat.exists_eq_add_one.mpr (List.length_pos_iff.mpr hline.ne_nil)
  have hends := hline.ends hafter
  rw [List.getLast?_eq_getElem?, hindex, Nat.add_sub_cancel] at hends
  exact ⟨index, hindex, hends⟩

theorem congr_after {other : Bytes} (hline : IsLine line after)
    (hend : after = [] → other = []) : IsLine line other := by
  obtain ⟨front, hfront, hends | ⟨rfl, hne, hnil⟩⟩ := hline
  · exact ⟨front, hfront, .inl hends⟩
  · exact ⟨line, hfront, .inr ⟨rfl, hne, hend hnil⟩⟩

end IsLine

theorem exists_isLine {data : Bytes} (hne : data ≠ []) :
    ∃ line after, data = line ++ after ∧ IsLine line after := by
  by_cases hmem : Byte.newline ∈ data
  · obtain ⟨front, after, rfl, hfront⟩ := List.eq_append_cons_of_mem hmem
    exact ⟨front ++ [Byte.newline], after, by simp, front, hfront, .inl rfl⟩
  · exact ⟨data, [], by simp, data, hmem, .inr ⟨rfl, hne, rfl⟩⟩

/-- A line is joined to the next by the bytes at its end. -/
theorem joinsNext_append_iff (front back : Bytes) :
    (front ++ back).joinsNext front.length = true ↔
      [Byte.backslash, Byte.newline] <:+ front ∨
        [Byte.backslash, Byte.carriageReturn, Byte.newline] <:+ front := by
  have hwindow : (((front ++ back).drop (front.length - min 3 front.length)).take
      (min 3 front.length)).reverse = front.reverse.take 3 := by
    rw [List.drop_append_of_le_length (by omega), List.take_append_of_le_length (by simp; omega),
      List.take_of_length_le (by simp; omega), List.take_reverse]
    congr 2
    omega
  simp only [joinsNext, hwindow, ← List.reverse_prefix, List.reverse_cons, List.reverse_nil,
    List.nil_append, List.cons_append]
  generalize front.reverse = bytes
  match bytes with
  | [] => simp
  | [last] => simp [List.cons_prefix_cons]
  | [last, second] =>
      by_cases hreturn : second = Byte.carriageReturn
      · subst hreturn
        simp [List.cons_prefix_cons, Byte.carriageReturn, Byte.backslash]
      · simp [List.cons_prefix_cons, hreturn, @eq_comm _ last, @eq_comm _ second]
  | last :: second :: third :: rest =>
      have hslash : Byte.backslash ≠ Byte.carriageReturn := by decide
      by_cases hreturn : second = Byte.carriageReturn
      · subst hreturn
        simp [List.cons_prefix_cons, hslash, @eq_comm _ last, @eq_comm _ third]
      · simp [List.cons_prefix_cons, hreturn, Ne.symm hreturn, @eq_comm _ last,
          @eq_comm _ second]

theorem joinsNext_iff {source : Bytes} {stop : Nat} (hstop : stop ≤ source.length) :
    source.joinsNext stop = true ↔
      ∃ index, stop = index + 2 ∧ source[index + 1]? = some Byte.newline ∧
        (source[index]? = some Byte.backslash ∨
          source[index]? = some Byte.carriageReturn ∧
            ∃ before, index = before + 1 ∧ source[before]? = some Byte.backslash) := by
  have hsplit := joinsNext_append_iff (source.take stop) (source.drop stop)
  have hlength : (source.take stop).length = stop := by
    rw [List.length_take]
    omega
  rw [List.take_append_drop, hlength] at hsplit
  have htake : ∀ index < stop, (source.take stop)[index]? = source[index]? := by
    intro index hindex
    rw [List.getElem?_take, if_pos hindex]
  rw [hsplit]
  constructor
  · rintro (⟨front, heq⟩ | ⟨front, heq⟩)
    · have hsize := congrArg List.length heq
      simp only [List.length_append, List.length_cons, List.length_nil, hlength] at hsize
      refine ⟨front.length, by omega, ?_, .inl ?_⟩
      · rw [← htake _ (by omega), ← heq]
        simp
      · rw [← htake _ (by omega), ← heq]
        simp
    · have hsize := congrArg List.length heq
      simp only [List.length_append, List.length_cons, List.length_nil, hlength] at hsize
      refine ⟨front.length + 1, by omega, ?_, .inr ⟨?_, front.length, rfl, ?_⟩⟩
      · rw [← htake _ (by omega), ← heq, List.getElem?_append_right (by omega)]
        simp [Nat.add_assoc]
      · rw [← htake _ (by omega), ← heq]
        simp
      · rw [← htake _ (by omega), ← heq]
        simp
  · rintro ⟨index, rfl, hnewline, hbefore⟩
    have hlast : source.take (index + 2) = source.take (index + 1) ++ [Byte.newline] := by
      rw [List.take_add_one, hnewline]
      rfl
    have hsecond : source.take (index + 1) = source.take index ++ source[index]?.toList :=
      List.take_add_one
    rw [hlast, hsecond]
    rcases hbefore with hslash | ⟨hreturn, before, rfl, hslash⟩
    · exact .inl ⟨source.take index, by rw [hslash]; simp⟩
    · refine .inr ⟨source.take before, ?_⟩
      rw [hreturn, List.take_add_one, hslash]
      simp

/-- The newlines of a text that stands in two others, at the offsets `start` and `place`, join
the same lines in both. -/
def JoinsAlike (source : Bytes) (start : Nat) (target : Bytes) (place : Nat) (text : Bytes) :
    Prop :=
  ∀ index, text[index]? = some Byte.newline →
    target.joinsNext (place + (index + 1)) = source.joinsNext (start + (index + 1))

namespace JoinsAlike

variable {source target : Bytes} {start place : Nat} {front back : Bytes}

theorem left (halike : JoinsAlike source start target place (front ++ back)) :
    JoinsAlike source start target place front := by
  intro index hnewline
  apply halike
  rw [List.getElem?_append_left (List.getElem?_eq_some_iff.mp hnewline).1, hnewline]

theorem right (halike : JoinsAlike source start target place (front ++ back)) :
    JoinsAlike source (start + front.length) target (place + front.length) back := by
  intro index hnewline
  rw [Nat.add_assoc, Nat.add_assoc, ← Nat.add_assoc front.length]
  apply halike
  rw [List.getElem?_append_right (by omega), Nat.add_sub_cancel_left, hnewline]

theorem behind_line (halike : JoinsAlike source start target place front) {after : Bytes}
    (hline : IsLine front after) (hafter : after ≠ []) :
    target.joinsNext (place + front.length) = source.joinsNext (start + front.length) := by
  obtain ⟨index, hindex, hnewline⟩ := hline.exists_newline hafter
  rw [hindex]
  exact halike index hnewline

end JoinsAlike

end Bytes

namespace Directive

open Bytes (IsLine JoinsAlike)

/-- The lines `more` are joined to the line that ends at the offset `stop`, and `after` to none
of them. -/
inductive Joined (source : Bytes) : Nat → Bytes → Bytes → Prop
  | stop {stop : Nat} {after : Bytes} (hstop : after ≠ [] → source.joinsNext stop = false) :
      Joined source stop [] after
  | line {stop : Nat} {line more after : Bytes} (hjoins : source.joinsNext stop = true)
      (hline : IsLine line (more ++ after))
      (hmore : Joined source (stop + line.length) more after) :
      Joined source stop (line ++ more) after

/-- The search takes the piece at the offset `start` as one block in front of `after`. -/
inductive Block (source : Bytes) (start : Nat) : Piece → Bytes → Prop
  | plain {line after : Bytes} (hline : IsLine line after) (hkind : lineKind? line = none) :
      Block source start ⟨.plain, line⟩ after
  | directive {kind : MarkKind} {line more after : Bytes} (hline : IsLine line (more ++ after))
      (hkind : lineKind? line = some kind)
      (hmore : Joined source (start + line.length) more after) :
      Block source start ⟨kind, line ++ more⟩ after

/-- Each piece is what the search takes as a block of the text of the pieces from it on. -/
def Blocks (source : Bytes) : Nat → List Piece → Prop
  | _, [] => True
  | start, piece :: rest =>
    Block source start piece (Piece.bytes rest) ∧ Blocks source (start + piece.text.length) rest

theorem kind?_ne_plain {word : Bytes} {kind : MarkKind} (hkind : kind? word = some kind) :
    kind ≠ .plain := by
  unfold kind? at hkind
  split at hkind
  · cases hkind
    nofun
  · split at hkind
    · cases hkind
      nofun
    · cases hkind

theorem lineKind?_ne_plain {line : Bytes} {kind : MarkKind}
    (hkind : lineKind? line = some kind) : kind ≠ .plain := by
  obtain ⟨_, _, hword⟩ := Option.bind_eq_some_iff.mp hkind
  exact kind?_ne_plain hword

/-- A word is that of a directive exactly when it begins with a hash. -/
theorem kind?_eq_none_iff {word : Bytes} : kind? word = none ↔ word.head? ≠ some Byte.hash := by
  have hwords : ∀ pair ∈ controlWords, pair.1.head? = some Byte.hash := by decide
  unfold kind?
  cases hlookup : controlWords.lookup word with
  | some kind =>
      obtain ⟨front, back, hsplit, _⟩ := List.lookup_eq_some_iff.mp hlookup
      have hhead := hwords (word, kind) (by simp [hsplit])
      simp [hhead]
  | none => simp

theorem lineKind?_eq_none_iff {line : Bytes} :
    lineKind? line = none ↔
      ∀ found ∈ Token.next? 0 line, found.1.text.head? ≠ some Byte.hash := by
  unfold lineKind?
  cases Token.next? 0 line with
  | none => simp
  | some found => simp [kind?_eq_none_iff]

namespace Joined

variable {source target : Bytes} {stop place : Nat} {more after other : Bytes}

theorem split_lines (hjoined : Joined source stop more after) :
    ((more ++ after).lines.take (joined source stop (more ++ after).lines)).flatten = more ∧
      (more ++ after).lines.drop (joined source stop (more ++ after).lines) = after.lines := by
  induction hjoined with
  | @stop stop after hstop =>
      have hcount : joined source stop after.lines = 0 := by
        cases hlines : after.lines with
        | nil => rfl
        | cons line rest =>
            have hafter : after ≠ [] := by
              rintro rfl
              simp [Bytes.lines] at hlines
            simp [joined, hstop hafter]
      simp [hcount]
  | @line stop line more after hjoins hline _ ih =>
      have hcount : joined source stop (line :: (more ++ after).lines) =
          joined source (stop + line.length) (more ++ after).lines + 1 := by
        rw [joined, if_pos hjoins, Nat.add_comm]
      rw [List.append_assoc, hline.lines_append, hcount, List.take_succ_cons,
        List.flatten_cons, List.drop_succ_cons, ih.1, ih.2]
      exact ⟨rfl, rfl⟩

theorem ends (hjoined : Joined source stop more after) (hafter : after ≠ []) {line : Bytes}
    (hline : IsLine line (more ++ after)) :
    (line ++ more).getLast? = some Byte.newline := by
  induction hjoined generalizing line with
  | stop => rw [List.append_nil, hline.ends (by simpa using hafter)]
  | line _ hnext _ ih =>
      have hlast := ih hafter hnext
      rw [List.getLast?_append, hlast]
      rfl

/-- Joined lines stay joined when the text around them changes and newlines join the same
lines. -/
theorem congr (hjoined : Joined source stop more after)
    (hstop : more ++ after ≠ [] → target.joinsNext place = source.joinsNext stop)
    (halike : JoinsAlike source stop target place more) (hend : after = [] ↔ other = []) :
    Joined target place more other := by
  induction hjoined generalizing place with
  | @stop stop after hends =>
      refine .stop fun hother => ?_
      have hafter : after ≠ [] := fun hnil => hother (hend.mp hnil)
      exact (hstop hafter).trans (hends hafter)
  | @line stop line more after hjoins hline _ ih =>
      have hnext := ih (fun hmore => halike.left.behind_line hline hmore) halike.right hend
      refine .line ((hstop (by simp [hline.ne_nil])).trans hjoins) ?_ hnext
      apply hline.congr_after
      simp [hend]

end Joined

theorem exists_joined (source : Bytes) (stop : Nat) (data : Bytes) :
    ∃ more after, data = more ++ after ∧ Joined source stop more after := by
  induction hlength : data.length using Nat.strongRecOn generalizing stop data with
  | ind length ih =>
      by_cases hjoins : data ≠ [] ∧ source.joinsNext stop = true
      · obtain ⟨line, rest, rfl, hline⟩ := Bytes.exists_isLine hjoins.1
        have hpos := List.length_pos_iff.mpr hline.ne_nil
        have hshort : rest.length < length := by
          rw [← hlength, List.length_append]
          omega
        obtain ⟨more, after, rfl, hmore⟩ := ih _ hshort (stop + line.length) rest rfl
        exact ⟨line ++ more, after, by simp, .line hjoins.2 hline hmore⟩
      · refine ⟨[], data, rfl, .stop fun hne => ?_⟩
        rw [Bool.eq_false_iff]
        exact fun h => hjoins ⟨hne, h⟩

namespace Block

variable {source target : Bytes} {start place : Nat} {piece : Piece} {after other : Bytes}

theorem text_ne_nil (hblock : Block source start piece after) : piece.text ≠ [] := by
  cases hblock with
  | plain hline => exact hline.ne_nil
  | directive hline => simp [hline.ne_nil]

theorem ends (hblock : Block source start piece after) (hafter : after ≠ []) :
    piece.text.getLast? = some Byte.newline := by
  cases hblock with
  | plain hline => exact hline.ends hafter
  | directive hline _ hmore => exact hmore.ends hafter hline

/-- The search takes a block in one step. -/
theorem scan (hblock : Block source start piece after) :
    scan source start (piece.text ++ after).lines =
      if piece.kind = .plain then scan source (start + piece.text.length) after.lines
      else piece.mark start :: scan source (start + piece.text.length) after.lines := by
  cases hblock with
  | plain hline hkind =>
      rw [if_pos rfl, hline.lines_append, Directive.scan]
      simp only [hkind]
  | @directive kind line more _ hline hkind hmore =>
      obtain ⟨htake, hdrop⟩ := hmore.split_lines
      have hplace : start + line.length + more.length = start + (line ++ more).length := by
        rw [List.length_append, Nat.add_assoc]
      rw [if_neg (lineKind?_ne_plain hkind), List.append_assoc, hline.lines_append,
        Directive.scan]
      simp only [hkind, htake, hdrop, hplace, Piece.mark, Int.natCast_add]

/-- A block stays one when the text around it changes and newlines join the same lines. -/
theorem congr (hblock : Block source start piece after)
    (halike : JoinsAlike source start target place piece.text) (hend : after = [] ↔ other = []) :
    Block target place piece other := by
  cases hblock with
  | plain hline hkind => exact .plain (hline.congr_after hend.mp) hkind
  | @directive kind line more _ hline hkind hmore =>
      have hjoined := hmore.congr (fun hnext => halike.left.behind_line hline hnext) halike.right
        hend
      refine .directive ?_ hkind hjoined
      apply hline.congr_after
      simp [hend]

end Block

theorem exists_block (source : Bytes) (start : Nat) {data : Bytes} (hne : data ≠ []) :
    ∃ piece after, data = piece.text ++ after ∧ Block source start piece after := by
  obtain ⟨line, rest, rfl, hline⟩ := Bytes.exists_isLine hne
  cases hkind : lineKind? line with
  | none => exact ⟨⟨.plain, line⟩, rest, rfl, .plain hline hkind⟩
  | some kind =>
      obtain ⟨more, after, rfl, hmore⟩ := exists_joined source (start + line.length) rest
      exact ⟨⟨kind, line ++ more⟩, after, by simp, .directive hline hkind hmore⟩

/-- The marks of blocks that fit are the directives of their text. -/
theorem scan_bytes {source : Bytes} {start : Nat} {pieces : List Piece}
    (hblocks : Blocks source start pieces) :
    scan source start (Piece.bytes pieces).lines = Piece.marksFrom start pieces := by
  induction pieces generalizing start with
  | nil => simp [Bytes.lines, scan, Piece.marksFrom]
  | cons piece rest ih =>
      obtain ⟨hblock, hrest⟩ := hblocks
      rw [Piece.bytes_cons, hblock.scan, ih hrest]
      by_cases hkind : piece.kind = .plain
      · rw [if_pos hkind, Piece.marksFrom_plain hkind]
      · rw [if_neg hkind, Piece.marksFrom_marked hkind]

/-- Every text is cut into blocks that fit. -/
theorem exists_blocks (source : Bytes) (start : Nat) (data : Bytes) :
    ∃ pieces, Blocks source start pieces ∧ Piece.bytes pieces = data := by
  induction hlength : data.length using Nat.strongRecOn generalizing start data with
  | ind length ih =>
      by_cases hne : data = []
      · exact ⟨[], trivial, hne.symm⟩
      · obtain ⟨piece, after, rfl, hblock⟩ := exists_block source start hne
        have hpos := List.length_pos_iff.mpr hblock.text_ne_nil
        have hshort : after.length < length := by
          rw [← hlength, List.length_append]
          omega
        obtain ⟨pieces, hpieces, rfl⟩ := ih _ hshort (start + piece.text.length) after rfl
        exact ⟨piece :: pieces, ⟨hblock, hpieces⟩, rfl⟩

namespace Blocks

variable {source target : Bytes} {start place : Nat}

theorem text_ne_nil {pieces : List Piece} (hblocks : Blocks source start pieces) :
    ∀ piece ∈ pieces, piece.text ≠ [] := by
  induction pieces generalizing start with
  | nil => simp
  | cons piece rest ih =>
      intro other hother
      rcases List.mem_cons.mp hother with rfl | hother
      · exact hblocks.1.text_ne_nil
      · exact ih hblocks.2 other hother

theorem of_append {front back : List Piece} (hblocks : Blocks source start (front ++ back)) :
    Blocks source (start + (Piece.bytes front).length) back := by
  induction front generalizing start with
  | nil => exact hblocks
  | cons piece rest ih =>
      have hrest := ih hblocks.2
      rwa [Nat.add_assoc, ← List.length_append, ← Piece.bytes_cons] at hrest

/-- Blocks meet behind newlines. -/
theorem getLast?_front {front back : List Piece} (hblocks : Blocks source start (front ++ back))
    (hfront : front ≠ []) (hback : back ≠ []) :
    (Piece.bytes front).getLast? = some Byte.newline := by
  induction front generalizing start with
  | nil => exact absurd rfl hfront
  | cons piece rest ih =>
      obtain ⟨hblock, hrest⟩ := hblocks
      cases rest with
      | nil =>
          have hafter : Piece.bytes ([] ++ back) ≠ [] := by
            obtain ⟨first, more, rfl⟩ := List.exists_cons_of_ne_nil hback
            simp [hrest.1.text_ne_nil]
          simpa using hblock.ends hafter
      | cons next rest =>
          have hlast := ih hrest (by simp)
          rw [Piece.bytes_cons, List.getLast?_append, hlast]
          rfl

/-- Blocks stay what they are when the text around them changes and newlines join the same
lines. -/
theorem congr {pieces : List Piece} (hblocks : Blocks source start pieces)
    (halike : JoinsAlike source start target place (Piece.bytes pieces)) :
    Blocks target place pieces := by
  induction pieces generalizing start place with
  | nil => trivial
  | cons piece rest ih =>
      rw [Piece.bytes_cons] at halike
      exact ⟨hblocks.1.congr halike.left Iff.rfl, ih hblocks.2 halike.right⟩

end Blocks

end Directive

end CDelta

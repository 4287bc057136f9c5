import CDelta.Proofs.Collapse.Blocks
import CDelta.Proofs.Footprint
import CDelta.Proofs.Layout

/-! # Which lines are directives

The search for directives cuts a working copy into blocks, each a line that is no directive or a
directive with the lines joined to it. What it finds is said here in offsets of the working copy:
where the directives begin and end, that each begins with a hash, that every line which begins
with one is part of a directive, and that only a backslash of the text itself adds a line to one.
Once the directives are blanked none is left: the blanks that take the place of a directive become
part of the next line, and blanks in front of a line do not change what it is.
-/

namespace CDelta

namespace Token

/-- The first byte of a text that is not blank is the first of its first token. -/
theorem head?_next? (start : Nat) (rest : Bytes) :
    ((next? start rest).bind fun found => found.1.text.head?) = rest.find? (!isBlank ·) := by
  cases hnext : next? start rest with
  | none =>
      have hblank := next?_eq_none_iff.mp hnext
      rw [eq_comm, Option.bind_none, List.find?_eq_none]
      intro byte hbyte
      simp [hblank byte hbyte]
  | some found =>
      obtain ⟨token, after⟩ := found
      obtain ⟨gap, byte, more, hgap, hhead, hbyte, rfl, _⟩ := next?_place hnext
      have hnone : gap.find? (!isBlank ·) = none := by
        rw [List.find?_eq_none]
        intro other hother
        simp [hgap other hother]
      rw [Option.bind_some, hhead, List.find?_append, hnone, List.find?_cons, hbyte]
      rfl

end Token

namespace Span

/-- The first byte at an offset of the span that is not blank. -/
def lead? (span : Span) (data : Bytes) : Option UInt8 :=
  (span.slice data).find? (!Token.isBlank ·)

end Span

namespace Bytes

/-- A line begins at the offset: the text does, or a newline stands in front. -/
def BeginsLine (data : Bytes) (offset : Nat) : Prop :=
  offset = 0 ∨ ∃ before, offset = before + 1 ∧ data[before]? = some Byte.newline

/-- A line ends with the offset: a newline stands there, or it is the last of the text. -/
def EndsLine (data : Bytes) (offset : Nat) : Prop :=
  data[offset]? = some Byte.newline ∨ offset + 1 = data.length

/-- The offsets from `first` to `last` are those of one line. -/
structure LineSpan (data : Bytes) (first last : Nat) : Prop where
  ordered : first ≤ last
  begins : data.BeginsLine first
  ends : data.EndsLine last
  unbroken : ∀ offset, first ≤ offset → offset < last → data[offset]? ≠ some Byte.newline

/-- The line that begins at the offset is joined to the one in front: a backslash stands before
the newline between them, or before a carriage return and that newline. -/
def JoinedAt (data : Bytes) (offset : Nat) : Prop :=
  [Byte.backslash, Byte.newline] <:+ data.take offset ∨
    [Byte.backslash, Byte.carriageReturn, Byte.newline] <:+ data.take offset

theorem EndsLine.lt_length {data : Bytes} {offset : Nat} (hends : data.EndsLine offset) :
    offset < data.length := by
  rcases hends with hnewline | hlast
  · exact (List.getElem?_eq_some_iff.mp hnewline).1
  · omega

theorem joinedAt_iff_joinsNext {data : Bytes} {offset : Nat} (hle : offset ≤ data.length) :
    data.JoinedAt offset ↔ data.joinsNext offset = true := by
  have hjoins := joinsNext_append_iff (data.take offset) (data.drop offset)
  rw [List.take_append_drop, List.length_take, Nat.min_eq_left hle] at hjoins
  exact hjoins.symm

/-- A line has its newline at its end and nowhere else. -/
theorem IsLine.length_of_newline {text after : Bytes} (hline : IsLine text after) {index : Nat}
    (hnewline : text[index]? = some Byte.newline) : index + 1 = text.length := by
  obtain ⟨front, hfront, hends⟩ := hline
  have hindex : ¬ index < front.length := by
    intro hlt
    have hmem : front[index]? = some Byte.newline := by
      rcases hends with rfl | ⟨rfl, _⟩
      · rwa [List.getElem?_append_left hlt] at hnewline
      · exact hnewline
    exact hfront (List.mem_of_getElem? hmem)
  have hlt := (List.getElem?_eq_some_iff.mp hnewline).1
  rcases hends with rfl | ⟨rfl, _⟩
  · rw [List.length_append, List.length_singleton] at hlt ⊢
    omega
  · exact absurd hlt hindex

end Bytes

namespace Piece

variable {before later : List Piece} {piece : Piece}

theorem getElem?_bytes {index : Nat} (hindex : index < piece.text.length) :
    (bytes (before ++ piece :: later))[(bytes before).length + index]? = piece.text[index]? := by
  rw [bytes_append, bytes_cons, List.getElem?_append_right (Nat.le_add_right _ _),
    Nat.add_sub_cancel_left, List.getElem?_append_left hindex]

/-- The part of a text from the beginning of a piece to an offset in it. -/
theorem slice_bytes {high : Nat} (hhigh : high < piece.text.length) :
    (⟨(bytes before).length, ((bytes before).length + high : Nat)⟩ : Span).slice
      (bytes (before ++ piece :: later)) = piece.text.take (high + 1) := by
  have hcount : (((bytes before).length + high : Nat) + 1 : Int).toNat -
      ((bytes before).length : Int).toNat = high + 1 := by omega
  rw [Span.slice, hcount, Int.toNat_natCast, bytes_append, bytes_cons, List.drop_left,
    List.take_append_of_le_length hhigh]

end Piece

namespace Directive

open Bytes (IsLine)

/-- A line is a directive exactly when its first byte that is not blank is a hash. -/
theorem lineKind?_eq_none_iff_find? {line : Bytes} :
    lineKind? line = none ↔ line.find? (!Token.isBlank ·) ≠ some Byte.hash := by
  rw [lineKind?_eq_none_iff, ← Token.head?_next? 0 line]
  cases Token.next? 0 line with
  | none => simp
  | some found => simp

/-- Behind each newline inside of a directive, the text joins the next line. -/
theorem Joined.joinsNext_of_newline {source line more after : Bytes} {start index : Nat}
    (hline : IsLine line (more ++ after)) (hjoined : Joined source (start + line.length) more after)
    (hnewline : (line ++ more)[index]? = some Byte.newline)
    (hinside : index + 1 < (line ++ more).length) :
    source.joinsNext (start + (index + 1)) = true := by
  generalize hstop : start + line.length = stop at hjoined
  induction hjoined generalizing start line index with
  | stop =>
      rw [List.append_nil] at hnewline hinside
      exact absurd (hline.length_of_newline hnewline) (Nat.ne_of_lt hinside)
  | @line stop next more after hjoins hnext _ ih =>
      by_cases hlt : index < line.length
      · rw [List.getElem?_append_left hlt] at hnewline
        rwa [hline.length_of_newline hnewline, hstop]
      · have hle : line.length ≤ index := Nat.le_of_not_lt hlt
        rw [List.getElem?_append_right hle] at hnewline
        rw [List.length_append] at hinside
        have hlater := ih hnext hnewline (by omega) (congrArg (· + next.length) hstop)
        rwa [show start + line.length + (index - line.length + 1) = start + (index + 1) by omega]
          at hlater

namespace Block

variable {source : Bytes} {start : Nat} {piece : Piece} {after : Bytes}

/-- A block that is no directive is one line. -/
theorem isLine_of_plain (hblock : Block source start piece after) (hplain : piece.kind = .plain) :
    IsLine piece.text after ∧ lineKind? piece.text = none := by
  cases hblock with
  | plain hline hkind => exact ⟨hline, hkind⟩
  | directive _ hkind => exact absurd hplain (lineKind?_ne_plain hkind)

/-- A directive begins with a hash, blanks aside. -/
theorem find?_eq_hash (hblock : Block source start piece after) (hmarked : piece.kind ≠ .plain) :
    piece.text.find? (!Token.isBlank ·) = some Byte.hash := by
  cases hblock with
  | plain => exact absurd rfl hmarked
  | @directive kind line more _ _ hkind =>
      have hhash : line.find? (!Token.isBlank ·) = some Byte.hash := by
        by_contra hother
        rw [lineKind?_eq_none_iff_find?.mpr hother] at hkind
        cases hkind
      rw [List.find?_append, hhash]
      rfl

end Block

namespace Blocks

variable {source : Bytes} {before later : List Piece} {piece : Piece}

theorem block (hblocks : Blocks source 0 (before ++ piece :: later)) :
    Block source (Piece.bytes before).length piece (Piece.bytes later) := by
  have hblock := hblocks.of_append.1
  rwa [Nat.zero_add] at hblock

theorem beginsLine (hblocks : Blocks source 0 (before ++ piece :: later)) :
    (Piece.bytes (before ++ piece :: later)).BeginsLine (Piece.bytes before).length := by
  by_cases hbefore : before = []
  · subst hbefore
    exact .inl rfl
  · have hlast := hblocks.getLast?_front hbefore (List.cons_ne_nil _ _)
    rw [List.getLast?_eq_getElem?] at hlast
    have hlt := (List.getElem?_eq_some_iff.mp hlast).1
    refine .inr ⟨(Piece.bytes before).length - 1, by omega, ?_⟩
    rw [Piece.bytes_append, List.getElem?_append_left hlt, hlast]

theorem endsLine (hblocks : Blocks source 0 (before ++ piece :: later)) {high : Nat}
    (hhigh : high + 1 = piece.text.length) :
    (Piece.bytes (before ++ piece :: later)).EndsLine ((Piece.bytes before).length + high) := by
  by_cases hlater : Piece.bytes later = []
  · right
    rw [Piece.bytes_append, Piece.bytes_cons, hlater, List.append_nil, List.length_append]
    omega
  · left
    have hlast := hblocks.block.ends hlater
    rw [List.getLast?_eq_getElem?, ← hhigh, Nat.add_sub_cancel] at hlast
    rw [Piece.getElem?_bytes (by omega), hlast]

/-- Every line lies in one block. -/
theorem exists_block_of_lineSpan {blocks : List Piece} (hblocks : Blocks source 0 blocks)
    {first last : Nat} (hline : (Piece.bytes blocks).LineSpan first last) :
    ∃ before piece later low high, blocks = before ++ piece :: later ∧
      first = (Piece.bytes before).length + low ∧ last = (Piece.bytes before).length + high ∧
      low ≤ high ∧ high < piece.text.length := by
  have hordered := hline.ordered
  have hlength := hline.ends.lt_length
  obtain ⟨before, piece, later, front, back, rfl, htext, hback, hfirst⟩ :=
    Piece.exists_split_at (Nat.lt_of_le_of_lt hordered hlength)
  have hpos := List.length_pos_iff.mpr hback
  have hsize : piece.text.length = front.length + back.length := by
    rw [htext, List.length_append]
  refine ⟨before, piece, later, front.length, last - (Piece.bytes before).length, rfl,
    hfirst.symm, by omega, by omega, ?_⟩
  -- the end of the block would break the line if the line went on behind it
  have hends := hblocks.endsLine (show piece.text.length - 1 + 1 = piece.text.length by omega)
  by_contra hbeyond
  rcases hends with hnewline | hend
  · exact hline.unbroken _ (by omega) (by omega) hnewline
  · omega

/-- In front of a line that does not begin its block stands a newline of the block. -/
theorem newline_of_beginsLine {low : Nat} (hpos : 0 < low) (hlow : low < piece.text.length)
    (hbegins : (Piece.bytes (before ++ piece :: later)).BeginsLine
      ((Piece.bytes before).length + low)) :
    piece.text[low - 1]? = some Byte.newline := by
  rcases hbegins with hzero | ⟨place, hplace, hnewline⟩
  · omega
  · obtain rfl : place = (Piece.bytes before).length + (low - 1) := by omega
    rwa [Piece.getElem?_bytes (by omega)] at hnewline

variable {blocks : List Piece} {first last : Nat} {mark : Mark}

/-- A line that begins with a hash, blanks aside, is part of a directive. -/
theorem exists_mark_of_lineSpan (hblocks : Blocks source 0 blocks)
    (hline : (Piece.bytes blocks).LineSpan first last)
    (hlead : (⟨first, last⟩ : Span).lead? (Piece.bytes blocks) = some Byte.hash) :
    ∃ mark ∈ Piece.marksFrom 0 blocks, mark.contains ⟨first, last⟩ = true := by
  obtain ⟨before, piece, later, low, high, rfl, rfl, rfl, hordered, hhigh⟩ :=
    hblocks.exists_block_of_lineSpan hline
  by_cases hkind : piece.kind = .plain
  · -- the block is a single line, so this line is where the block begins
    obtain ⟨hwhole, hnone⟩ := hblocks.block.isLine_of_plain hkind
    have hlow : low = 0 := by
      by_contra hpos
      have hnewline := newline_of_beginsLine (Nat.pos_of_ne_zero hpos)
        (Nat.lt_of_le_of_lt hordered hhigh) hline.begins
      have hend := hwhole.length_of_newline hnewline
      omega
    subst hlow
    rw [Nat.add_zero, Span.lead?, Piece.slice_bytes hhigh] at hlead
    have hhash := (List.take_prefix (high + 1) piece.text).find?_eq_some hlead
    exact absurd hhash (lineKind?_eq_none_iff_find?.mp hnone)
  · refine ⟨piece.mark (Piece.bytes before).length, ?_, ?_⟩
    · rw [Piece.marksFrom_append, Piece.marksFrom_marked hkind, Nat.zero_add]
      exact List.mem_append_right _ List.mem_cons_self
    · rw [Span.contains_iff]
      simp only [Piece.mark]
      omega

/-- A line of a directive that does not begin it is joined to the line in front. -/
theorem joinsNext_of_lineSpan (hblocks : Blocks source 0 blocks)
    (hmem : mark ∈ Piece.marksFrom 0 blocks) (hline : (Piece.bytes blocks).LineSpan first last)
    (hinside : mark.contains ⟨first, last⟩ = true) (hbehind : mark.first < first) :
    source.joinsNext first = true := by
  obtain ⟨before, piece, later, rfl, hmarked, rfl⟩ := Piece.mem_marksFrom hmem
  have hordered := hline.ordered
  rw [Span.contains_iff] at hinside
  simp only [Piece.mark, Nat.zero_add] at hinside hbehind
  obtain ⟨low, rfl⟩ : ∃ low, first = (Piece.bytes before).length + (low + 1) :=
    ⟨first - (Piece.bytes before).length - 1, by omega⟩
  have hlow : low + 1 < piece.text.length := by omega
  have hnewline := newline_of_beginsLine (Nat.succ_pos low) hlow hline.begins
  have hblock := hblocks.block
  cases hblock with
  | plain => exact absurd rfl hmarked
  | directive hfirst _ hmore => exact hmore.joinsNext_of_newline hfirst hnewline hlow

/-- With every directive blanked, none is left. -/
theorem directives_blankMarks (hblocks : Blocks source 0 blocks) :
    source.directives ((Piece.bytes blocks).blankMarks (Piece.marksFrom 0 blocks)) = [] := by
  let every : MarkKind → Bool := fun _ => true
  let hidden := Piece.covers every 0 blocks
  have haligned : Piece.Aligned hidden 0 blocks := Piece.aligned_covers every 0 blocks
  have hcarried : Blocks source 0 (carry hidden 0 0 blocks) :=
    blocks_carry hblocks haligned fun _ _ _ => rfl
  have hbytes : Piece.bytes (carry hidden 0 0 blocks) =
      (Piece.bytes blocks).blankMarks (Piece.marksFrom 0 blocks) := by
    rw [bytes_carry haligned, Bytes.blankMarks_eq_mask, Piece.cover_marksFrom]
    rfl
  have hnone : ∀ mark ∈ Piece.marksFrom 0 (carry hidden 0 0 blocks), every mark.kind = false :=
    no_wanted_carry fun mark hmark _ => Piece.covers_first_of_mem hblocks.text_ne_nil hmark
  rw [← hbytes, Bytes.directives, scan_bytes hcarried, List.eq_nil_iff_forall_not_mem]
  intro mark hmark
  cases hnone mark hmark

/-- A directive is a stretch of whole lines that begins with a hash, blanks aside. -/
theorem lines_of_mem_marksFrom (hblocks : Blocks source 0 blocks)
    (hmem : mark ∈ Piece.marksFrom 0 blocks) :
    (Piece.bytes blocks).BeginsLine mark.first.toNat ∧
      (Piece.bytes blocks).EndsLine mark.last.toNat ∧
      mark.toSpan.lead? (Piece.bytes blocks) = some Byte.hash := by
  obtain ⟨before, piece, later, rfl, hmarked, rfl⟩ := Piece.mem_marksFrom hmem
  obtain ⟨high, hhigh⟩ := Nat.exists_eq_add_of_lt (List.length_pos_iff.mpr hblocks.block.text_ne_nil)
  rw [Nat.zero_add] at hhigh
  have hspan : (piece.mark (0 + (Piece.bytes before).length)).toSpan =
      ⟨(Piece.bytes before).length, ((Piece.bytes before).length + high : Nat)⟩ := by
    simp only [Piece.mark, Span.mk.injEq]
    omega
  simp only [hspan, Int.toNat_natCast]
  refine ⟨hblocks.beginsLine, hblocks.endsLine hhigh.symm, ?_⟩
  rw [Span.lead?, Piece.slice_bytes (by omega), List.take_of_length_le (by omega)]
  exact hblocks.block.find?_eq_hash hmarked

end Blocks

/-- What the search for directives finds in a working copy of a text. -/
structure Discovers (source working : Bytes) (found : List Mark) : Prop where
  /-- The directives are not empty and lie in the working copy one behind the other. -/
  separates : working.Separates found
  /-- Each begins where a line does. -/
  begins : ∀ mark ∈ found, working.BeginsLine mark.first.toNat
  /-- Each ends where a line does. -/
  ends : ∀ mark ∈ found, working.EndsLine mark.last.toNat
  /-- Its first byte that is not blank is a hash. -/
  leads : ∀ mark ∈ found, mark.toSpan.lead? working = some Byte.hash
  /-- Every line with a hash as its first byte that is not blank is part of a directive. -/
  complete : ∀ first last : Nat, working.LineSpan first last →
    (⟨first, last⟩ : Span).lead? working = some Byte.hash →
      ∃ mark ∈ found, mark.contains ⟨first, last⟩ = true
  /-- Every other line of a directive is joined to the one in front by a backslash in the text
  itself. -/
  joined : ∀ mark ∈ found, ∀ first last : Nat, working.LineSpan first last →
    mark.contains ⟨first, last⟩ = true → mark.first < first → source.JoinedAt first
  /-- Once the directives are blanked there are none. -/
  exhausted : source.directives (working.blankMarks found) = []

end Directive

/-- The search for directives in a copy of a text with whatever spans blanked finds, one behind
the other, whole lines that begin with a hash, each with the lines that a backslash of the text
joins to it. No line that begins with a hash is left out, and once what was found is blanked,
there is nothing more to find. -/
theorem directive_discovery_is_exact (source : Bytes) (spans : List Span) :
    Directive.Discovers source (source.blank spans) (source.directives (source.blank spans)) := by
  obtain ⟨blocks, hblocks, hbytes, hfound⟩ :=
    source.exists_blocks_directives (source.blank spans)
  have hlength : (Piece.bytes blocks).length = source.length := by
    rw [hbytes, Bytes.length_blank]
  rw [hfound, ← hbytes]
  exact
    { separates := Piece.separates_marksFrom hblocks.text_ne_nil
      begins := fun _ hmark => (hblocks.lines_of_mem_marksFrom hmark).1
      ends := fun _ hmark => (hblocks.lines_of_mem_marksFrom hmark).2.1
      leads := fun _ hmark => (hblocks.lines_of_mem_marksFrom hmark).2.2
      complete := fun _ _ => hblocks.exists_mark_of_lineSpan
      joined := by
        intro mark hmark first last hline hinside hbehind
        have hfirst := Nat.lt_of_le_of_lt hline.ordered hline.ends.lt_length
        rw [hlength] at hfirst
        rw [Bytes.joinedAt_iff_joinsNext (Nat.le_of_lt hfirst)]
        exact hblocks.joinsNext_of_lineSpan hmark hline hinside hbehind
      exhausted := hblocks.directives_blankMarks }

-- A newline in a blanked comment ends no line, and a backslash in front of one joins the next.
example :
    let source := Bytes.ofChars "/*\n*/#if A \\\n B\n#x".toList
    source.directives (source.blank [⟨0, 4⟩]) =
      [⟨⟨0, 15⟩, .control .opens⟩, ⟨⟨16, 17⟩, .directive⟩] := by
  intro source
  rw [Bytes.blank_eq_mask]
  decide +kernel

end CDelta

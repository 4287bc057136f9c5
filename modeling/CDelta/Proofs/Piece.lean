import CDelta.Proofs.Mask

/-! # Pieces

A text cut into pieces from left to right. A piece has a kind, and the pieces that are not
plain make the marks of the text. Hiding some pieces as a whole gives a text that is cut in
the same places, and the marks that are left are those of the other pieces.
-/

namespace CDelta

/-- Marks that lie in a text one behind the other. -/
structure Bytes.Separates (data : Bytes) (marks : List Mark) : Prop where
  inside : ∀ mark ∈ marks, 0 ≤ mark.first ∧ mark.first ≤ mark.last ∧ mark.last < data.length
  apart : marks.Pairwise fun earlier later =>
    earlier.first < later.first ∧ earlier.last < later.first

theorem Bytes.Separates.filter {data : Bytes} {marks : List Mark} (hseparates : data.Separates marks)
    (kept : Mark → Bool) : data.Separates (marks.filter kept) :=
  ⟨fun mark hmark => hseparates.inside mark (List.mem_filter.mp hmark).1,
    hseparates.apart.filter kept⟩

/-- A stretch of text that is of one kind. -/
structure Piece where
  kind : MarkKind
  text : Bytes
deriving DecidableEq, Repr

namespace Piece

/-- The text that pieces make together. -/
def bytes (pieces : List Piece) : Bytes :=
  pieces.flatMap (·.text)

/-- The mark of a piece that begins at an offset. -/
def mark (piece : Piece) (start : Nat) : Mark :=
  ⟨⟨start, start + piece.text.length - 1⟩, piece.kind⟩

/-- The marks of the pieces that are not plain. The first piece begins at `start`. -/
def marksFrom : Nat → List Piece → List Mark
  | _, [] => []
  | start, piece :: rest =>
    let behind := marksFrom (start + piece.text.length) rest
    if piece.kind = .plain then behind else piece.mark start :: behind

/-- A plain piece of one space. -/
def blank : Piece := ⟨.plain, [Byte.space]⟩

@[simp]
theorem bytes_nil : bytes [] = [] := rfl

@[simp]
theorem bytes_cons (piece : Piece) (rest : List Piece) :
    bytes (piece :: rest) = piece.text ++ bytes rest := rfl

@[simp]
theorem bytes_append (first second : List Piece) :
    bytes (first ++ second) = bytes first ++ bytes second :=
  List.flatMap_append

@[simp]
theorem bytes_replicate_blank (count : Nat) :
    bytes (List.replicate count blank) = List.replicate count Byte.space := by
  induction count with
  | zero => rfl
  | succ count ih =>
      rw [List.replicate_succ, bytes_cons, ih]
      rfl

theorem marksFrom_plain {start : Nat} {piece : Piece} {rest : List Piece}
    (hkind : piece.kind = .plain) :
    marksFrom start (piece :: rest) = marksFrom (start + piece.text.length) rest := by
  simp [marksFrom, hkind]

theorem marksFrom_marked {start : Nat} {piece : Piece} {rest : List Piece}
    (hkind : piece.kind ≠ .plain) :
    marksFrom start (piece :: rest) =
      piece.mark start :: marksFrom (start + piece.text.length) rest := by
  simp [marksFrom, hkind]

theorem marksFrom_append (start : Nat) (first second : List Piece) :
    marksFrom start (first ++ second) =
      marksFrom start first ++ marksFrom (start + (bytes first).length) second := by
  induction first generalizing start with
  | nil => simp [marksFrom]
  | cons piece rest ih =>
      have hoffset : start + piece.text.length + (bytes rest).length =
          start + (bytes (piece :: rest)).length := by
        rw [bytes_cons, List.length_append]
        omega
      by_cases hkind : piece.kind = .plain
      · rw [List.cons_append, marksFrom_plain hkind, marksFrom_plain hkind, ih, hoffset]
      · rw [List.cons_append, marksFrom_marked hkind, marksFrom_marked hkind, ih, hoffset,
          List.cons_append]

@[simp]
theorem marksFrom_replicate_blank (start count : Nat) :
    marksFrom start (List.replicate count blank) = [] := by
  induction count generalizing start with
  | zero => rfl
  | succ count ih =>
      rw [List.replicate_succ, marksFrom_plain rfl, ih]

/-- A mark is that of a piece, at the offset behind the pieces in front of it. -/
theorem mem_marksFrom {start : Nat} {pieces : List Piece} {mark : Mark}
    (hmem : mark ∈ marksFrom start pieces) :
    ∃ front piece back, pieces = front ++ piece :: back ∧ piece.kind ≠ .plain ∧
      mark = piece.mark (start + (bytes front).length) := by
  induction pieces generalizing start with
  | nil => simp [marksFrom] at hmem
  | cons piece rest ih =>
      have hbehind : mark ∈ marksFrom (start + piece.text.length) rest →
          ∃ front other back, piece :: rest = front ++ other :: back ∧ other.kind ≠ .plain ∧
            mark = other.mark (start + (bytes front).length) := by
        intro hmem
        obtain ⟨front, other, back, rfl, hkind, rfl⟩ := ih hmem
        refine ⟨piece :: front, other, back, rfl, hkind, ?_⟩
        rw [bytes_cons, List.length_append, Nat.add_assoc]
      by_cases hkind : piece.kind = .plain
      · rw [marksFrom_plain hkind] at hmem
        exact hbehind hmem
      · rw [marksFrom_marked hkind] at hmem
        rcases List.mem_cons.mp hmem with rfl | hmem
        · exact ⟨[], piece, rest, rfl, hkind, by simp⟩
        · exact hbehind hmem

theorem le_first_of_mem_marksFrom {start : Nat} {pieces : List Piece} {mark : Mark}
    (hmem : mark ∈ marksFrom start pieces) : (start : Int) ≤ mark.first := by
  obtain ⟨front, piece, back, _, _, rfl⟩ := mem_marksFrom hmem
  simp only [Piece.mark]
  omega

/-- The marks of pieces that are not empty are not, and lie in the text. -/
theorem bounds_of_mem_marksFrom {start : Nat} {pieces : List Piece}
    (hfull : ∀ piece ∈ pieces, piece.text ≠ []) {mark : Mark}
    (hmem : mark ∈ marksFrom start pieces) :
    (start : Int) ≤ mark.first ∧ mark.first ≤ mark.last ∧
      mark.last < (start + (bytes pieces).length : Nat) := by
  obtain ⟨front, piece, back, rfl, _, rfl⟩ := mem_marksFrom hmem
  have hpos := List.length_pos_iff.mpr (hfull piece (by simp))
  simp only [Piece.mark, bytes_append, bytes_cons, List.length_append]
  omega

/-- The marks of pieces that are not empty ascend and do not overlap. -/
theorem pairwise_marksFrom {pieces : List Piece} (hfull : ∀ piece ∈ pieces, piece.text ≠ [])
    (start : Nat) :
    (marksFrom start pieces).Pairwise fun earlier later =>
      earlier.first < later.first ∧ earlier.last < later.first := by
  induction pieces generalizing start with
  | nil => exact List.Pairwise.nil
  | cons piece rest ih =>
      have hrest := ih (fun piece hpiece => hfull piece (List.mem_cons_of_mem _ hpiece))
        (start + piece.text.length)
      by_cases hkind : piece.kind = .plain
      · rwa [marksFrom_plain hkind]
      · rw [marksFrom_marked hkind, List.pairwise_cons]
        refine ⟨fun later hlater => ?_, hrest⟩
        have hlength := List.length_pos_iff.mpr (hfull piece List.mem_cons_self)
        have hle := le_first_of_mem_marksFrom hlater
        simp only [mark]
        omega

theorem separates_marksFrom {pieces : List Piece} (hfull : ∀ piece ∈ pieces, piece.text ≠ []) :
    (bytes pieces).Separates (marksFrom 0 pieces) where
  inside mark hmark := by simpa using bounds_of_mem_marksFrom hfull hmark
  apart := pairwise_marksFrom hfull 0

/-- Two marks of pieces that share an offset are the same. -/
theorem mark_unique {start : Nat} {pieces : List Piece} {mark other : Mark} {offset : Int}
    (hmark : mark ∈ marksFrom start pieces) (hother : other ∈ marksFrom start pieces)
    (hhas : mark.has offset = true) (hotherHas : other.has offset = true) : mark = other := by
  induction pieces generalizing start with
  | nil => simp [marksFrom] at hmark
  | cons piece rest ih =>
      by_cases hkind : piece.kind = .plain
      · rw [marksFrom_plain hkind] at hmark hother
        exact ih hmark hother
      · -- the mark of the first piece ends before all others begin
        have hapart : ∀ later ∈ marksFrom (start + piece.text.length) rest,
            later.has offset = true → ¬ (piece.mark start).has offset = true := by
          intro later hlater hlaterHas hfirst
          have hle := le_first_of_mem_marksFrom hlater
          rw [Span.has_iff] at hlaterHas hfirst
          simp only [Piece.mark] at hfirst
          omega
        rw [marksFrom_marked hkind] at hmark hother
        rcases List.mem_cons.mp hmark with rfl | hmark
        · rcases List.mem_cons.mp hother with rfl | hother
          · rfl
          · exact absurd hhas (hapart other hother hotherHas)
        · rcases List.mem_cons.mp hother with rfl | hother
          · exact absurd hotherHas (hapart mark hmark hhas)
          · exact ih hmark hother

/-- Every offset of a text lies in one of its pieces. -/
theorem exists_split_at {pieces : List Piece} {offset : Nat}
    (hlt : offset < (bytes pieces).length) :
    ∃ before piece later front back, pieces = before ++ piece :: later ∧
      piece.text = front ++ back ∧ back ≠ [] ∧
      (bytes before).length + front.length = offset := by
  induction pieces generalizing offset with
  | nil => simp at hlt
  | cons piece rest ih =>
      rw [bytes_cons, List.length_append] at hlt
      by_cases hinside : offset < piece.text.length
      · refine ⟨[], piece, rest, piece.text.take offset, piece.text.drop offset, rfl, ?_, ?_, ?_⟩
        · rw [List.take_append_drop]
        · rw [ne_eq, List.drop_eq_nil_iff]
          omega
        · rw [bytes_nil, List.length_nil, List.length_take]
          omega
      · obtain ⟨before, other, later, front, back, rfl, htext, hback, hoffset⟩ :=
          ih (show offset - piece.text.length < (bytes rest).length by omega)
        refine ⟨piece :: before, other, later, front, back, rfl, htext, hback, ?_⟩
        rw [bytes_cons, List.length_append]
        omega

/-- The offset lies in a piece of a wanted kind. -/
def covers (wanted : MarkKind → Bool) (start : Nat) (pieces : List Piece) : Nat → Bool :=
  Span.cover (((marksFrom start pieces).filter (wanted ·.kind)).map (·.toSpan))

theorem covers_iff {wanted : MarkKind → Bool} {start : Nat} {pieces : List Piece}
    {offset : Nat} :
    covers wanted start pieces offset = true ↔
      ∃ mark ∈ marksFrom start pieces, wanted mark.kind = true ∧ mark.has offset = true := by
  simp [covers, Span.cover, List.any_filter]

theorem cover_marksFrom (start : Nat) (pieces : List Piece) :
    Span.cover ((marksFrom start pieces).map (·.toSpan)) = covers (fun _ => true) start pieces := by
  funext offset
  rw [covers, List.filter_eq_self.mpr fun _ _ => rfl]

theorem covers_of_lt {wanted : MarkKind → Bool} {start : Nat} {pieces : List Piece}
    {offset : Nat} (hlt : offset < start) : covers wanted start pieces offset = false := by
  rw [Bool.eq_false_iff, ne_eq, covers_iff]
  rintro ⟨mark, hmark, _, hhas⟩
  have hle := le_first_of_mem_marksFrom hmark
  rw [Span.has_iff] at hhas
  omega

theorem covers_cons (wanted : MarkKind → Bool) (start : Nat) (piece : Piece)
    (rest : List Piece) (offset : Nat) :
    covers wanted start (piece :: rest) offset =
      (piece.kind ≠ .plain && wanted piece.kind && (piece.mark start).has offset ||
        covers wanted (start + piece.text.length) rest offset) := by
  by_cases hkind : piece.kind = .plain
  · simp [covers, marksFrom_plain hkind, hkind]
  · by_cases hwanted : wanted piece.kind = true
    · have hmark : wanted (piece.mark start).kind = true := hwanted
      simp [covers, marksFrom_marked hkind, hkind, hwanted, hmark, Span.cover]
    · have hmark : ¬ wanted (piece.mark start).kind = true := hwanted
      simp [covers, marksFrom_marked hkind, hkind, hwanted, hmark]

/-- The mark of a piece covers the piece, and no later mark does. -/
theorem covers_first {wanted : MarkKind → Bool} {start : Nat} {piece : Piece}
    {rest : List Piece} {index : Nat} (hindex : index < piece.text.length) :
    covers wanted start (piece :: rest) (start + index) =
      (piece.kind ≠ .plain && wanted piece.kind) := by
  have hhas : (piece.mark start).has ((start + index : Nat) : Int) = true := by
    simp only [Span.has_iff, mark]
    omega
  rw [covers_cons, covers_of_lt (by omega), hhas, Bool.and_true, Bool.or_false]

theorem covers_behind {wanted : MarkKind → Bool} {start : Nat} {piece : Piece}
    {rest : List Piece} {offset : Nat} (hle : start + piece.text.length ≤ offset) :
    covers wanted start (piece :: rest) offset =
      covers wanted (start + piece.text.length) rest offset := by
  have hnot : (piece.mark start).has (offset : Int) = false := by
    rw [Bool.eq_false_iff, ne_eq, Span.has_iff]
    simp only [mark]
    omega
  rw [covers_cons, hnot, Bool.and_false, Bool.false_or]

/-- The first offset of a mark is covered exactly when marks of its kind are wanted. -/
theorem covers_first_of_mem {wanted : MarkKind → Bool} {start : Nat} {pieces : List Piece}
    (hfull : ∀ piece ∈ pieces, piece.text ≠ []) {mark : Mark}
    (hmem : mark ∈ marksFrom start pieces) :
    covers wanted start pieces mark.first.toNat = wanted mark.kind := by
  obtain ⟨hfirst, hordered, _⟩ := bounds_of_mem_marksFrom hfull hmem
  have hhas : mark.has (mark.first.toNat : Int) = true := by
    rw [Span.has_iff]
    omega
  rw [Bool.eq_iff_iff, covers_iff]
  constructor
  · rintro ⟨other, hother, hwanted, hotherHas⟩
    rwa [mark_unique hmem hother hhas hotherHas]
  · exact fun hwanted => ⟨mark, hmem, hwanted, hhas⟩

/-- The only wanted mark at an offset of a piece is that of the piece. -/
theorem find?_first {wanted : MarkKind → Bool} {start : Nat} {piece : Piece}
    {rest : List Piece} {index : Nat} (hindex : index < piece.text.length) :
    ((marksFrom start (piece :: rest)).filter (wanted ·.kind)).find?
        (·.has (start + index : Nat)) =
      if piece.kind ≠ .plain && wanted piece.kind then some (piece.mark start) else none := by
  have hrest : ((marksFrom (start + piece.text.length) rest).filter (wanted ·.kind)).find?
      (·.has (start + index : Nat)) = none := by
    rw [List.find?_eq_none]
    intro mark hmark hhas
    have hle := le_first_of_mem_marksFrom (List.mem_filter.mp hmark).1
    rw [Span.has_iff] at hhas
    omega
  have hhas : (piece.mark start).has ((start + index : Nat) : Int) = true := by
    simp only [Span.has_iff, mark]
    omega
  by_cases hkind : piece.kind = .plain
  · rw [marksFrom_plain hkind, hrest]
    simp [hkind]
  · by_cases hwanted : wanted piece.kind = true
    · have hmark : wanted (piece.mark start).kind = true := hwanted
      rw [marksFrom_marked hkind, List.filter_cons, if_pos hmark, List.find?_cons, hhas]
      simp [hkind, hwanted]
    · have hmark : ¬ wanted (piece.mark start).kind = true := hwanted
      rw [marksFrom_marked hkind, List.filter_cons, if_neg hmark, hrest]
      simp [hwanted]

theorem find?_behind {wanted : MarkKind → Bool} {start : Nat} {piece : Piece}
    {rest : List Piece} {offset : Nat} (hle : start + piece.text.length ≤ offset) :
    ((marksFrom start (piece :: rest)).filter (wanted ·.kind)).find? (·.has offset) =
      ((marksFrom (start + piece.text.length) rest).filter (wanted ·.kind)).find?
        (·.has offset) := by
  have hnot : (piece.mark start).has (offset : Int) = false := by
    rw [Bool.eq_false_iff, ne_eq, Span.has_iff]
    simp only [mark]
    omega
  by_cases hkind : piece.kind = .plain
  · rw [marksFrom_plain hkind]
  · rw [marksFrom_marked hkind, List.filter_cons]
    split
    · rw [List.find?_cons, hnot]
    · rfl

/-- The piece, overwritten by spaces when its kind is wanted. -/
def hide (wanted : MarkKind → Bool) (piece : Piece) : Piece :=
  if piece.kind ≠ .plain && wanted piece.kind then
    { piece with text := List.replicate piece.text.length Byte.space }
  else piece

@[simp]
theorem length_text_hide (wanted : MarkKind → Bool) (piece : Piece) :
    (piece.hide wanted).text.length = piece.text.length := by
  unfold hide
  split <;> simp

@[simp]
theorem length_bytes_map_hide (wanted : MarkKind → Bool) (pieces : List Piece) :
    (bytes (pieces.map (hide wanted))).length = (bytes pieces).length := by
  induction pieces with
  | nil => rfl
  | cons piece rest ih =>
      rw [List.map_cons, bytes_cons, bytes_cons, List.length_append, List.length_append, ih,
        length_text_hide]

/-- Blanking the wanted marks of a text overwrites its pieces of wanted kinds. -/
theorem mask_covers (wanted : MarkKind → Bool) (start : Nat) (pieces : List Piece) :
    Bytes.mask (covers wanted start pieces) start (bytes pieces) =
      bytes (pieces.map (hide wanted)) := by
  induction pieces generalizing start with
  | nil => rfl
  | cons piece rest ih =>
      rw [bytes_cons, Bytes.mask_append, List.map_cons, bytes_cons, ← ih]
      congr 1
      · unfold hide
        split
        next hkind =>
          exact Bytes.mask_of_hidden fun index hindex => by rw [covers_first hindex, hkind]
        next hkind =>
          exact Bytes.mask_of_shown fun index hindex => by
            rw [covers_first hindex, Bool.eq_false_iff]
            exact hkind
      · exact Bytes.mask_congr fun index _ => covers_behind (by omega)

/-- Blanking all marks of a text leaves its plain pieces. -/
theorem blankMarks_marksFrom (pieces : List Piece) :
    (bytes pieces).blankMarks (marksFrom 0 pieces) =
      bytes (pieces.map (hide fun _ => true)) := by
  rw [Bytes.blankMarks_eq_mask, cover_marksFrom, mask_covers]

/-- What is left when all marks are blanked stands in a plain piece. -/
theorem exists_plain_at_shown {pieces : List Piece} {offset : Nat} {byte : UInt8}
    (hspace : byte ≠ Byte.space)
    (hbyte : (bytes (pieces.map (hide fun _ => true)))[offset]? = some byte) :
    ∃ front text back index, pieces = front ++ ⟨.plain, text⟩ :: back ∧
      offset = (bytes front).length + index ∧ text[index]? = some byte := by
  induction pieces generalizing offset with
  | nil => simp at hbyte
  | cons piece rest ih =>
      rw [List.map_cons, bytes_cons] at hbyte
      by_cases hinside : offset < piece.text.length
      · rw [List.getElem?_append_left (by simpa using hinside)] at hbyte
        obtain ⟨kind, text⟩ := piece
        by_cases hkind : kind = .plain
        · subst hkind
          exact ⟨[], text, rest, offset, rfl, by simp, hbyte⟩
        · rw [hide, if_pos (by simp [hkind]), List.getElem?_replicate, if_pos hinside] at hbyte
          exact absurd (Option.some.inj hbyte).symm hspace
      · rw [List.getElem?_append_right (by simpa using hinside), length_text_hide] at hbyte
        obtain ⟨front, text, back, index, rfl, hoffset, hindex⟩ := ih hbyte
        refine ⟨piece :: front, text, back, index, rfl, ?_, hindex⟩
        rw [bytes_cons, List.length_append]
        omega

/-- The offset lies strictly inside of no piece. -/
def Clears (offset : Int) : Nat → List Piece → Prop
  | _, [] => True
  | start, piece :: rest =>
    (offset ≤ start ∨ start + piece.text.length ≤ offset) ∧
      Clears offset (start + piece.text.length) rest

theorem clears_of_le {offset : Int} {start : Nat} {pieces : List Piece}
    (hle : offset ≤ start) : Clears offset start pieces := by
  induction pieces generalizing start with
  | nil => trivial
  | cons piece rest ih => exact ⟨.inl hle, ih (by omega)⟩

/-- The offset behind some of the pieces lies inside of none. -/
theorem clears_boundary (start : Nat) (front back : List Piece) :
    Clears (start + (bytes front).length : Nat) start (front ++ back) := by
  induction front generalizing start with
  | nil => exact clears_of_le (by simp)
  | cons piece rest ih =>
      have hoffset : start + (bytes (piece :: rest)).length =
          start + piece.text.length + (bytes rest).length := by
        rw [bytes_cons, List.length_append, Nat.add_assoc]
      rw [hoffset]
      exact ⟨.inr (by omega), ih (start + piece.text.length)⟩

/-- A mark begins and ends at the borders of pieces. -/
theorem clears_of_mem_marksFrom {start : Nat} {pieces : List Piece} {mark : Mark}
    (hmem : mark ∈ marksFrom start pieces) :
    Clears mark.first start pieces ∧ Clears (mark.last + 1) start pieces := by
  obtain ⟨front, piece, back, rfl, _, rfl⟩ := mem_marksFrom hmem
  refine ⟨clears_boundary start front (piece :: back), ?_⟩
  have hbehind := clears_boundary start (front ++ [piece]) back
  have hoffset : ((start + (bytes (front ++ [piece])).length : Nat) : Int) =
      (piece.mark (start + (bytes front).length)).last + 1 := by
    simp only [bytes_append, bytes_cons, bytes_nil, List.append_nil, List.length_append, mark]
    omega
  rw [hoffset, List.append_assoc] at hbehind
  exact hbehind

/-- Each piece is hidden as a whole or not at all. -/
def Aligned (hidden : Nat → Bool) : Nat → List Piece → Prop
  | _, [] => True
  | start, piece :: rest =>
    (∀ index < piece.text.length, hidden (start + index) = hidden start) ∧
      Aligned hidden (start + piece.text.length) rest

/-- Spans whose ends lie inside of no piece hide each piece as a whole or not at all. -/
theorem aligned_of_clears {spans : List Span} {start : Nat} {pieces : List Piece}
    (hclears : ∀ span ∈ spans,
      Clears span.first start pieces ∧ Clears (span.last + 1) start pieces) :
    Aligned (Span.cover spans) start pieces := by
  induction pieces generalizing start with
  | nil => trivial
  | cons piece rest ih =>
      refine ⟨fun index hindex => ?_, ih fun span hspan => ?_⟩
      · rw [Bool.eq_iff_iff, Span.cover_iff, Span.cover_iff]
        refine exists_congr fun span => and_congr_right fun hspan => ?_
        obtain ⟨⟨hfirst, _⟩, hlast, _⟩ := hclears span hspan
        rw [Span.has_iff, Span.has_iff]
        omega
      · obtain ⟨⟨_, hfirst⟩, _, hlast⟩ := hclears span hspan
        exact ⟨hfirst, hlast⟩

/-- Wanted marks hide each piece as a whole or not at all. -/
theorem aligned_covers (wanted : MarkKind → Bool) (start : Nat) (pieces : List Piece) :
    Aligned (covers wanted start pieces) start pieces := by
  apply aligned_of_clears
  intro span hspan
  obtain ⟨mark, hmark, rfl⟩ := List.mem_map.mp hspan
  exact clears_of_mem_marksFrom (List.mem_filter.mp hmark).1

/-- An offset of a mark is hidden exactly when the first one is. -/
theorem Aligned.hidden_eq {hidden : Nat → Bool} {start : Nat} {pieces : List Piece}
    (haligned : Aligned hidden start pieces) {mark : Mark} (hmem : mark ∈ marksFrom start pieces)
    {offset : Nat} (hhas : mark.has offset = true) :
    hidden offset = hidden mark.first.toNat := by
  induction pieces generalizing start with
  | nil => simp [marksFrom] at hmem
  | cons piece rest ih =>
      obtain ⟨hpiece, hrest⟩ := haligned
      by_cases hkind : piece.kind = .plain
      · rw [marksFrom_plain hkind] at hmem
        exact ih hrest hmem
      · rw [marksFrom_marked hkind] at hmem
        rcases List.mem_cons.mp hmem with rfl | hmem
        · simp only [Span.has_iff, Piece.mark] at hhas
          have hsame := hpiece (offset - start) (by omega)
          rw [Nat.add_sub_cancel' (by omega)] at hsame
          rw [hsame]
          congr 1
        · exact ih hrest hmem

/-- The pieces with each hidden one replaced by plain spaces. -/
def collapse (hidden : Nat → Bool) : Nat → List Piece → List Piece
  | _, [] => []
  | start, piece :: rest =>
    (if hidden start then List.replicate piece.text.length blank else [piece]) ++
      collapse hidden (start + piece.text.length) rest

theorem bytes_collapse {hidden : Nat → Bool} {start : Nat} {pieces : List Piece}
    (haligned : Aligned hidden start pieces) :
    bytes (collapse hidden start pieces) = Bytes.mask hidden start (bytes pieces) := by
  induction pieces generalizing start with
  | nil => rfl
  | cons piece rest ih =>
      obtain ⟨hpiece, hrest⟩ := haligned
      rw [collapse, bytes_append, ih hrest, bytes_cons, Bytes.mask_append]
      congr 1
      split
      next hhidden =>
        rw [bytes_replicate_blank, Bytes.mask_of_hidden]
        exact fun index hindex => (hpiece index hindex).trans hhidden
      next hhidden =>
        rw [Bytes.mask_of_shown fun index hindex => ?_]
        · simp
        · rw [hpiece index hindex]
          simpa using hhidden

theorem marksFrom_collapse (hidden : Nat → Bool) (start : Nat) (pieces : List Piece) :
    marksFrom start (collapse hidden start pieces) =
      (marksFrom start pieces).filter fun mark => !hidden mark.first.toNat := by
  induction pieces generalizing start with
  | nil => rfl
  | cons piece rest ih =>
      have hfirst : (piece.mark start).first.toNat = start := by simp [mark]
      rw [collapse, marksFrom_append]
      split
      next hhidden =>
        rw [marksFrom_replicate_blank, bytes_replicate_blank, List.length_replicate, ih,
          List.nil_append]
        by_cases hkind : piece.kind = .plain
        · rw [marksFrom_plain hkind]
        · rw [marksFrom_marked hkind, List.filter_cons_of_neg (by simp [hfirst, hhidden])]
      next hhidden =>
        rw [bytes_cons, bytes_nil, List.append_nil, ih]
        by_cases hkind : piece.kind = .plain
        · rw [marksFrom_plain hkind, marksFrom_plain hkind]
          rfl
        · rw [marksFrom_marked hkind, marksFrom_marked hkind,
            List.filter_cons_of_pos (by simpa [hfirst] using hhidden)]
          rfl

/-- Outside of what is hidden the marks that are left cover what all of them do. -/
theorem covers_collapse {hidden : Nat → Bool} {start : Nat} {pieces : List Piece}
    (haligned : Aligned hidden start pieces) (wanted : MarkKind → Bool) {offset : Nat}
    (hshown : hidden offset = false) :
    covers wanted start (collapse hidden start pieces) offset =
      covers wanted start pieces offset := by
  rw [Bool.eq_iff_iff, covers_iff, covers_iff, marksFrom_collapse]
  constructor
  · rintro ⟨mark, hmem, hwanted, hhas⟩
    exact ⟨mark, (List.mem_filter.mp hmem).1, hwanted, hhas⟩
  · rintro ⟨mark, hmem, hwanted, hhas⟩
    refine ⟨mark, List.mem_filter.mpr ⟨hmem, ?_⟩, hwanted, hhas⟩
    rw [← haligned.hidden_eq hmem hhas, hshown]
    rfl

end Piece

end CDelta

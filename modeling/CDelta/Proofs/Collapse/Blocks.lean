import CDelta.Proofs.Insertion.Blocks

/-! # Blocks overwritten as a whole

When some blocks of a text are overwritten by spaces, newlines included, the spaces come to
stand in front of the next block that is kept. That block stays what it was, since blanks in
front of a line do not matter and whether it is joined to the next depends on bytes of its
own. So outside of what is overwritten the same text is taken by directives as before.
-/

namespace CDelta

namespace Bytes

/-- Overwriting text up to newlines changes nothing about which lines are joined, as long as
the newline of the line is not overwritten. -/
theorem joinsNext_mask {source : Bytes} {hidden : Nat → Bool} {stop : Nat}
    (hstop : stop < source.length) (hshown : hidden stop = false)
    (hedge : ∀ offset, hidden offset = true → hidden (offset + 1) = false →
      offset + 1 < source.length → source[offset]? = some Byte.newline) :
    (mask hidden 0 source).joinsNext (stop + 1) = source.joinsNext (stop + 1) := by
  have hslash : Byte.backslash ≠ Byte.space := by decide
  have hreturn : Byte.carriageReturn ≠ Byte.space := by decide
  have hnewline : Byte.newline ≠ Byte.space := by decide
  -- in front of a byte that is kept stands another one, unless it is a newline
  have hkept : ∀ {offset : Nat} {byte : UInt8}, hidden (offset + 1) = false →
      offset + 1 < source.length → source[offset]? = some byte → byte ≠ Byte.newline →
      hidden offset = false := by
    intro offset byte hnext hlt hbyte hne
    rw [Bool.eq_false_iff]
    intro hhidden
    exact hne (Option.some.inj (hbyte.symm.trans (hedge offset hhidden hnext hlt)))
  rw [Bool.eq_iff_iff, joinsNext_iff (by rw [length_mask]; omega), joinsNext_iff (by omega)]
  simp only [getElem?_mask_eq_some_iff hslash, getElem?_mask_eq_some_iff hreturn,
    getElem?_mask_eq_some_iff hnewline, Nat.zero_add]
  constructor
  · rintro ⟨index, hindex, ⟨hlast, _⟩, ⟨hbefore, _⟩ | ⟨⟨hbefore, _⟩, before, hplace, hfirst, _⟩⟩
    · exact ⟨index, hindex, hlast, .inl hbefore⟩
    · exact ⟨index, hindex, hlast, .inr ⟨hbefore, before, hplace, hfirst⟩⟩
  · rintro ⟨index, hindex, hlast, hbefore⟩
    obtain rfl : stop = index + 1 := by omega
    refine ⟨index, rfl, ⟨hlast, hshown⟩, ?_⟩
    rcases hbefore with hbefore | ⟨hbefore, before, rfl, hfirst⟩
    · exact .inl ⟨hbefore, hkept hshown hstop hbefore (by decide)⟩
    · have hsecond := hkept hshown hstop hbefore (by decide)
      exact .inr ⟨⟨hbefore, hsecond⟩, before, rfl, hfirst,
        hkept hsecond (by omega) hfirst (by decide)⟩

end Bytes

namespace Piece

/-- The piece with spaces in front. -/
def indent (count : Nat) (piece : Piece) : Piece :=
  { piece with text := List.replicate count Byte.space ++ piece.text }

@[simp]
theorem kind_indent (count : Nat) (piece : Piece) : (piece.indent count).kind = piece.kind := rfl

@[simp]
theorem length_text_indent (count : Nat) (piece : Piece) :
    (piece.indent count).text.length = count + piece.text.length := by
  simp [indent]

end Piece

namespace Directive

theorem newline_not_mem_replicate (count : Nat) :
    Byte.newline ∉ List.replicate count Byte.space := by
  intro hmem
  exact absurd (List.eq_of_mem_replicate hmem) (by decide)

/-- A block that is kept stays one, with the spaces in front that overwrite other blocks. -/
theorem Block.carry {source target : Bytes} {place pending : Nat} {piece : Piece}
    {after other : Bytes} (hblock : Block source (place + pending) piece after)
    (hagree : ∀ index < piece.text.length,
      target.joinsNext (place + pending + index + 1) =
        source.joinsNext (place + pending + index + 1))
    (hend : after = [] ↔ other = []) :
    Block target place (piece.indent pending) other := by
  have htext : piece.text = [] ++ piece.text := rfl
  refine hblock.insert htext hblock.text_ne_nil (Token.blank_replicate pending)
    (newline_not_mem_replicate pending) (fun token htoken => .inr ?_) (fun index hlow hhigh => ?_)
    (fun index hlow hhigh => ?_) hend
  · obtain ⟨index, _, hfirst, _⟩ := Token.mem_scan htoken
    exact hfirst ▸ Nat.le_add_right _ _
  · exact absurd hhigh (Nat.not_le.mpr hlow)
  · rw [List.length_replicate]
    have hpos : 1 ≤ index := hlow
    have hplace := hagree (index - 1) (by omega)
    rwa [Nat.add_assoc _ _ 1, Nat.sub_add_cancel hpos] at hplace

/-- The blocks of a text in which the hidden blocks are overwritten: each is counted as spaces
in front of the next block that is kept. -/
def carry (hidden : Nat → Bool) : Nat → Nat → List Piece → List Piece
  | pending, _, [] =>
    if pending = 0 then [] else [⟨.plain, List.replicate pending Byte.space⟩]
  | pending, start, piece :: rest =>
    let behind := start + piece.text.length
    if hidden start then carry hidden (pending + piece.text.length) behind rest
    else piece.indent pending :: carry hidden 0 behind rest

theorem bytes_carry {hidden : Nat → Bool} {start : Nat} {pieces : List Piece}
    (haligned : Piece.Aligned hidden start pieces) (pending : Nat) :
    Piece.bytes (carry hidden pending start pieces) =
      List.replicate pending Byte.space ++ Bytes.mask hidden start (Piece.bytes pieces) := by
  induction pieces generalizing start pending with
  | nil => cases pending <;> simp [carry]
  | cons piece rest ih =>
      obtain ⟨hpiece, hrest⟩ := haligned
      rw [carry, Piece.bytes_cons, Bytes.mask_append]
      split
      next hhidden =>
        rw [ih hrest, Bytes.mask_of_hidden fun index hindex => (hpiece index hindex).trans hhidden,
          ← List.replicate_append_replicate, List.append_assoc]
      next hhidden =>
        have htext : Bytes.mask hidden start piece.text = piece.text :=
          Bytes.mask_of_shown fun index hindex => by
            rw [hpiece index hindex]
            simpa using hhidden
        rw [Piece.bytes_cons, ih hrest, htext]
        simp [Piece.indent]

/-- The blocks that are kept fit again. -/
theorem blocks_carry {source target : Bytes} {hidden : Nat → Bool} {place pending : Nat}
    {pieces : List Piece} (hblocks : Blocks source (place + pending) pieces)
    (haligned : Piece.Aligned hidden (place + pending) pieces)
    (hagree : ∀ stop, hidden stop = false → stop < place + pending + (Piece.bytes pieces).length →
      target.joinsNext (stop + 1) = source.joinsNext (stop + 1)) :
    Blocks target place (carry hidden pending (place + pending) pieces) := by
  induction pieces generalizing place pending with
  | nil =>
      rw [carry]
      split
      · trivial
      · have hline := newline_not_mem_replicate pending
        refine ⟨.plain ⟨_, hline, .inr ⟨rfl, by simpa, rfl⟩⟩ ?_, trivial⟩
        rw [lineKind?_eq_scan 0, Token.scan_of_blank (Token.blank_replicate pending)]
        rfl
  | cons piece rest ih =>
      obtain ⟨hblock, hrest⟩ := hblocks
      obtain ⟨hpiece, halignedRest⟩ := haligned
      rw [Piece.bytes_cons, List.length_append] at hagree
      rw [carry]
      split
      next hhidden =>
        rw [Nat.add_assoc] at hrest halignedRest ⊢
        exact ih hrest halignedRest fun stop hshown hlt => hagree stop hshown (by omega)
      next hhidden =>
        have hbehind : place + (piece.indent pending).text.length =
            place + pending + piece.text.length := by
          rw [Piece.length_text_indent, Nat.add_assoc]
        refine ⟨hblock.carry (fun index hindex => ?_) ?_, ?_⟩
        · refine hagree _ ?_ (by omega)
          rw [hpiece index hindex]
          simpa using hhidden
        · rw [bytes_carry halignedRest, ← List.length_eq_zero_iff, ← List.length_eq_zero_iff]
          simp
        · have hnext : Blocks target (place + pending + piece.text.length)
              (carry hidden 0 (place + pending + piece.text.length + 0) rest) :=
            ih hrest halignedRest fun stop hshown hlt => hagree stop hshown (by omega)
          rwa [← hbehind] at hnext ⊢

/-- When every directive of the wanted kinds is hidden, none of them is left. -/
theorem no_wanted_carry {hidden : Nat → Bool} {wanted : MarkKind → Bool}
    {start pending place : Nat} {pieces : List Piece}
    (hwanted : ∀ mark ∈ Piece.marksFrom start pieces,
      wanted mark.kind = true → hidden mark.first.toNat = true) :
    ∀ mark ∈ Piece.marksFrom place (carry hidden pending start pieces),
      wanted mark.kind = false := by
  induction pieces generalizing start pending place with
  | nil =>
      rw [carry]
      split
      · simp [Piece.marksFrom]
      · simp [Piece.marksFrom]
  | cons piece rest ih =>
      have hrest : ∀ mark ∈ Piece.marksFrom (start + piece.text.length) rest,
          wanted mark.kind = true → hidden mark.first.toNat = true := by
        intro mark hmark
        refine hwanted mark ?_
        by_cases hkind : piece.kind = .plain
        · rwa [Piece.marksFrom_plain hkind]
        · rw [Piece.marksFrom_marked hkind]
          exact List.mem_cons_of_mem _ hmark
      rw [carry]
      split
      next => exact ih hrest
      next hhidden =>
        by_cases hkind : (piece.indent pending).kind = .plain
        · rw [Piece.marksFrom_plain hkind]
          exact ih hrest
        · rw [Piece.marksFrom_marked hkind, List.forall_mem_cons]
          refine ⟨?_, ih hrest⟩
          rw [Bool.eq_false_iff]
          intro hkept
          have hmarked : piece.kind ≠ .plain := hkind
          have hmem : piece.mark start ∈ Piece.marksFrom start (piece :: rest) := by
            rw [Piece.marksFrom_marked hmarked]
            exact List.mem_cons_self
          have hfirst := hwanted _ hmem hkept
          rw [show (piece.mark start).first.toNat = start from Int.toNat_natCast start] at hfirst
          exact hhidden hfirst

/-- Outside of what is hidden directives take the same text as before. -/
theorem covers_carry {hidden : Nat → Bool} {wanted : MarkKind → Bool} {place pending : Nat}
    {pieces : List Piece} (haligned : Piece.Aligned hidden (place + pending) pieces)
    {offset : Nat} (hshown : hidden offset = false) (hle : place + pending ≤ offset) :
    Piece.covers wanted place (carry hidden pending (place + pending) pieces) offset =
      Piece.covers wanted (place + pending) pieces offset := by
  induction pieces generalizing place pending with
  | nil =>
      rw [carry]
      split
      · rfl
      · simp [Piece.covers, Piece.marksFrom]
  | cons piece rest ih =>
      obtain ⟨hpiece, hrest⟩ := haligned
      rw [carry]
      split
      next hhidden =>
        have hbehind : place + pending + piece.text.length ≤ offset := by
          by_contra hinside
          have hsame := hpiece (offset - (place + pending)) (by omega)
          rw [Nat.add_sub_cancel' hle, hshown, hhidden] at hsame
          cases hsame
        rw [Piece.covers_behind hbehind]
        rw [Nat.add_assoc] at hrest hbehind ⊢
        exact ih hrest hbehind
      next hhidden =>
        have hlength : place + (piece.indent pending).text.length =
            place + pending + piece.text.length := by
          rw [Piece.length_text_indent, Nat.add_assoc]
        by_cases hinside : offset < place + pending + piece.text.length
        · have hindex : place + (offset - place) = offset := by omega
          have hnew : Piece.covers wanted place (piece.indent pending ::
              carry hidden 0 (place + pending + piece.text.length) rest)
                (place + (offset - place)) =
                ((piece.indent pending).kind ≠ .plain && wanted (piece.indent pending).kind) :=
            Piece.covers_first (by rw [Piece.length_text_indent]; omega)
          have hold : Piece.covers wanted (place + pending) (piece :: rest)
              (place + pending + (offset - (place + pending))) =
                (piece.kind ≠ .plain && wanted piece.kind) :=
            Piece.covers_first (by omega)
          rw [hindex] at hnew
          rw [Nat.add_sub_cancel' hle] at hold
          rw [hnew, hold, Piece.kind_indent]
        · have hnext : Piece.covers wanted (place + pending + piece.text.length)
              (carry hidden 0 (place + pending + piece.text.length + 0) rest) offset =
                Piece.covers wanted (place + pending + piece.text.length) rest offset :=
            ih hrest (by omega)
          rw [Piece.covers_behind (by omega), Piece.covers_behind (by omega), hlength, ← hnext]
          rfl

/-- Where hidden text ends in front of text that is kept, a newline is hidden. -/
theorem newline_at_edge {source : Bytes} {hidden : Nat → Bool} {start : Nat}
    {pieces : List Piece} (hblocks : Blocks source start pieces)
    (haligned : Piece.Aligned hidden start pieces) {index : Nat}
    (hhidden : hidden (start + index) = true) (hshown : hidden (start + index + 1) = false)
    (hlt : index + 1 < (Piece.bytes pieces).length) :
    (Piece.bytes pieces)[index]? = some Byte.newline := by
  induction pieces generalizing start index with
  | nil => simp at hlt
  | cons piece rest ih =>
      obtain ⟨hblock, hrest⟩ := hblocks
      obtain ⟨hpiece, halignedRest⟩ := haligned
      rw [Piece.bytes_cons] at hlt ⊢
      rw [List.length_append] at hlt
      by_cases hinside : index + 1 < piece.text.length
      · have hfirst := hpiece index (by omega)
        have hsecond := hpiece (index + 1) hinside
        rw [← Nat.add_assoc] at hsecond
        rw [hfirst, ← hsecond, hshown] at hhidden
        cases hhidden
      · by_cases hlast : index + 1 = piece.text.length
        · have hafter : Piece.bytes rest ≠ [] := by
            intro hnil
            simp only [hnil, List.length_nil] at hlt
            omega
          have hends := hblock.ends hafter
          rw [List.getLast?_eq_getElem?] at hends
          rw [List.getElem?_append_left (by omega), ← hends]
          congr 1
          omega
        · have hplace : start + piece.text.length + (index - piece.text.length) =
              start + index := by omega
          rw [List.getElem?_append_right (by omega)]
          refine ih hrest halignedRest ?_ ?_ (by omega)
          · rw [hplace, hhidden]
          · rw [hplace, hshown]

end Directive

end CDelta

import CDelta.Proofs.Conditional.Relocation
import CDelta.Proofs.Extent
import CDelta.Proofs.Formatting.Pieces
import CDelta.Proofs.Insertion.Blocks

/-! # The survey of a reformatted text

Formatting inserted in front of a token moves all that the survey of a text finds behind it.
The directives stay what they are, with the one around the token widened, each choice leaves
out the same branches, and under each choice the same tokens are left.
-/

namespace CDelta

theorem Control.ofMarks_map (move : Span → Span) (marks : List Mark) :
    ofMarks (marks.map (·.map move)) = (ofMarks marks).map (·.map move) := by
  have hfound : ∀ found? : Mark → Option (ControlKind × Span),
      (∀ mark, found? (mark.map move) = (found? mark).map fun found => (found.1, move found.2)) →
      (marks.map (·.map move)).filterMap found? =
        (marks.filterMap found?).map fun found => (found.1, move found.2) := by
    intro found? hfound
    rw [List.filterMap_map, List.map_filterMap]
    congr 1
    funext mark
    exact hfound mark
  rw [ofMarks, ofMarks, hfound, List.zipIdx_map, List.map_map, List.map_map]
  · rfl
  · intro mark
    obtain ⟨span, kind⟩ := mark
    cases kind <;> rfl

namespace Layout

/-- The layout with the spans of its directives moved. -/
def map (move : Span → Span) (layout : Layout) : Layout :=
  ⟨layout.directives.map (·.map move), layout.tree.map move⟩

theorem choices_map (move : Span → Span) (layout : Layout) :
    (layout.map move).choices = layout.choices :=
  congrArg Shape.choices (layout.tree.shape_map move)

theorem blanked_map {move : Span → Span} (hmove : Span.Between move) (layout : Layout)
    (choice : Int) : (layout.map move).blanked choice = (layout.blanked choice).map move := by
  rw [blanked, blanked, List.map_append, unselected, map, layout.tree.unselected_map hmove,
    List.map_map, List.map_map]
  rfl

end Layout

namespace Span

theorem between_widen (spot size : Nat) : Between (widen spot size) := by
  intro opener closer
  simp only [widen, moved, mk.injEq, true_and]
  split <;> split <;> omega

theorem cover_map_widen (spot size : Nat) (spans : List Span) (offset : Nat) :
    cover (spans.map (·.widen spot size)) (Bytes.moved spot size offset) = cover spans offset := by
  rw [cover, cover, List.any_map, natCast_moved]
  congr 1
  funext span
  exact has_widen spot size span offset

end Span

namespace Piece

/-- The marks of a text with bytes inserted into one of its pieces. -/
theorem marksFrom_widen {before later : List Piece} {piece : Piece} {front back : Bytes}
    (hfull : ∀ other ∈ before ++ piece :: later, other.text ≠ [])
    (htext : piece.text = front ++ back) (hback : back ≠ []) (gap : Bytes) :
    marksFrom 0 (before ++ ⟨piece.kind, front ++ (gap ++ back)⟩ :: later) =
      (marksFrom 0 (before ++ piece :: later)).map
        (·.map (·.widen ((bytes before).length + front.length) gap.length)) := by
  have hlength : piece.text.length = front.length + back.length := by
    rw [htext, List.length_append]
  have hpos := List.length_pos_iff.mpr hback
  have hlater : marksFrom ((bytes before).length + (front ++ (gap ++ back)).length) later =
      (marksFrom ((bytes before).length + piece.text.length) later).map
        (·.map (·.widen ((bytes before).length + front.length) gap.length)) := by
    have hplace : (bytes before).length + (front ++ (gap ++ back)).length =
        (bytes before).length + piece.text.length + gap.length := by
      simp only [List.length_append]
      omega
    rw [hplace, marksFrom_shift]
    refine List.map_congr_left fun mark hmark => ?_
    have hbounds :=
      bounds_of_mem_marksFrom (fun other hother => hfull other (by simp [hother])) hmark
    simp only [Mark.map, Span.relocate, Span.widen]
    rw [Span.moved_of_le (by omega), Span.moved_of_le (by omega)]
  rw [marksFrom_append, marksFrom_append, List.map_append, Nat.zero_add]
  congr 1
  · refine (List.map_id _).symm.trans (List.map_congr_left fun mark hmark => ?_)
    have hbounds :=
      bounds_of_mem_marksFrom (fun other hother => hfull other (by simp [hother])) hmark
    simp only [Mark.map, Span.widen]
    rw [Span.moved_of_lt (by omega), Span.moved_of_lt (by omega)]
    rfl
  · by_cases hkind : piece.kind = .plain
    · rw [marksFrom_plain (by exact hkind), marksFrom_plain hkind, hlater]
    · rw [marksFrom_marked (by exact hkind), marksFrom_marked hkind, List.map_cons, hlater]
      congr 1
      simp only [mark, Mark.map, Span.widen, List.length_append]
      rw [Span.moved_of_lt (by omega), Span.moved_of_le (by omega)]
      simp only [Mark.mk.injEq, Span.mk.injEq, and_true, true_and]
      omega

end Piece

namespace Directive

/-- When blocks are hidden as a whole, the tokens of the others are left. -/
theorem scan_mask {source : Bytes} {start : Nat} {pieces : List Piece} {hidden : Nat → Bool}
    (hblocks : Blocks source start pieces) (haligned : Piece.Aligned hidden start pieces) :
    Token.scan start (Bytes.mask hidden start (Piece.bytes pieces)) =
      (Token.scan start (Piece.bytes pieces)).filter fun token => !hidden token.first := by
  induction pieces generalizing start with
  | nil =>
      have hnone : Token.Blank [] := nofun
      rw [Piece.bytes_nil, Bytes.mask_nil, Token.scan_of_blank hnone, List.filter_nil]
  | cons piece rest ih =>
      obtain ⟨hblock, hrest⟩ := hblocks
      obtain ⟨hpiece, halignedRest⟩ := haligned
      have hfirst : ∀ token ∈ Token.scan start piece.text, hidden token.first = hidden start := by
        intro token htoken
        obtain ⟨index, byte, hplace, hbyte, _⟩ := Token.mem_scan htoken
        rw [hplace]
        exact hpiece index (List.getElem?_eq_some_iff.mp hbyte).1
      rw [Piece.bytes_cons, Bytes.mask_append, Token.scan_append fun _ => hblock.ends,
        List.filter_append, ← ih hrest halignedRest]
      cases hhidden : hidden start with
      | true =>
          have hblank : Bytes.mask hidden start piece.text =
              List.replicate piece.text.length Byte.space :=
            Bytes.mask_of_hidden fun index hindex => (hpiece index hindex).trans hhidden
          have hnone : (Token.scan start piece.text).filter (fun token => !hidden token.first) =
              [] := by
            rw [List.filter_eq_nil_iff]
            intro token htoken
            simp [hfirst token htoken, hhidden]
          rw [hblank, hnone, List.nil_append, Token.scan_blank_append (Token.blank_replicate _),
            List.length_replicate]
      | false =>
          have hkept : Bytes.mask hidden start piece.text = piece.text :=
            Bytes.mask_of_shown fun index hindex => (hpiece index hindex).trans hhidden
          have hall : (Token.scan start piece.text).filter (fun token => !hidden token.first) =
              Token.scan start piece.text := by
            rw [List.filter_eq_self]
            intro token htoken
            simp [hfirst token htoken, hhidden]
          have hends : Bytes.mask hidden (start + piece.text.length) (Piece.bytes rest) ≠ [] →
              piece.text.getLast? = some Byte.newline := by
            intro hmasked
            refine hblock.ends fun hnone => hmasked ?_
            rw [hnone, Bytes.mask_nil]
          rw [hkept, hall, Token.scan_append fun _ => hends]

/-- The tokens of a block are tokens of the text. -/
theorem Blocks.mem_scan {source : Bytes} {start : Nat} {before later : List Piece}
    {piece : Piece} (hblocks : Blocks source start (before ++ piece :: later)) {token : Token}
    (htoken : token ∈ Token.scan (start + (Piece.bytes before).length) piece.text) :
    token ∈ Token.scan start (Piece.bytes (before ++ piece :: later)) := by
  have hblock := hblocks.of_append.1
  have hbefore : Piece.bytes before ≠ [] →
      (Piece.bytes before).getLast? = some Byte.newline := by
    intro hsome
    refine hblocks.getLast?_front (fun hnone => hsome ?_) (List.cons_ne_nil _ _)
    rw [hnone, Piece.bytes_nil]
  rw [Piece.bytes_append, Token.scan_append fun hsome _ => hbefore hsome, Piece.bytes_cons,
    Token.scan_append fun _ => hblock.ends]
  exact List.mem_append_right _ (List.mem_append_left _ htoken)

end Directive

namespace Survey.Parts

variable {rule : CommentRule} {source : Bytes} {marks : List Mark} {layout : Layout}
  {front fillers back blocks : List Piece}

/-- The tokens of a text with formatting inserted where none of them reaches across. -/
theorem tokens_insert (hfillers : ∀ piece ∈ fillers, Piece.Filler rule piece)
    (hclear : ∀ token ∈ Token.scan 0 (Piece.bytes ((front ++ back).map (Piece.hide fun _ => true))),
      token.last < (Piece.bytes front).length ∨ (Piece.bytes front).length ≤ token.first) :
    Token.scan 0 (Piece.bytes ((front ++ (fillers ++ back)).map (Piece.hide fun _ => true))) =
      (Token.scan 0 (Piece.bytes ((front ++ back).map (Piece.hide fun _ => true)))).map
        (·.relocate (Bytes.moved (Piece.bytes front).length (Piece.bytes fillers).length)) := by
  have hinsert := Token.scan_insert (Piece.blank_hide_fillers hfillers).1 0
    (Piece.bytes (front.map (Piece.hide fun _ => true)))
    (Piece.bytes (back.map (Piece.hide fun _ => true)))
  simp only [List.map_append, Piece.bytes_append, Piece.length_bytes_map_hide, Nat.zero_add]
    at hinsert hclear ⊢
  exact hinsert hclear

/-- Formatting inserted into a text in front of a token widens its layout. -/
theorem insert (hparts : Parts rule source marks layout (front ++ back) blocks)
    (hfillers : ∀ piece ∈ fillers, Piece.Filler rule piece) {byte : UInt8}
    (hhead : (Piece.bytes back).head? = some byte) (hbyte : Token.isBlank byte = false)
    (hclear : ∀ token ∈ Token.scan 0 (Piece.bytes ((front ++ back).map (Piece.hide fun _ => true))),
      token.last < (Piece.bytes front).length ∨ (Piece.bytes front).length ≤ token.first) :
    ∃ others, Parts rule (Piece.bytes (front ++ (fillers ++ back)))
      (Piece.marksFrom 0 (front ++ (fillers ++ back)))
      (layout.map (·.widen (Piece.bytes front).length (Piece.bytes fillers).length))
      (front ++ (fillers ++ back)) others := by
  have hback : Piece.bytes back ≠ [] := by
    rintro hnil
    simp [hnil] at hhead
  have hworking := hparts.reads.bytes.trans hparts.blanked_eq
  have hlength : (Piece.bytes blocks).length = (Piece.bytes (front ++ back)).length := by
    rw [hworking, Piece.length_bytes_map_hide]
  obtain ⟨before, block, later, head, tail, rfl, htext, htail, hspot⟩ :=
    Piece.exists_split_at (show (Piece.bytes front).length < (Piece.bytes blocks).length by
      have hpos := List.length_pos_iff.mpr hback
      rw [hlength, Piece.bytes_append, List.length_append]
      omega)
  let gap := Piece.bytes (fillers.map (Piece.hide fun _ => true))
  have hgap : gap.length = (Piece.bytes fillers).length := Piece.length_bytes_map_hide _ _
  obtain ⟨hblank, hline⟩ := Piece.blank_hide_fillers hfillers
  refine ⟨before ++ ⟨block.kind, head ++ (gap ++ tail)⟩ :: later,
    Piece.fit_insert hparts.fit hback hfillers, rfl, rfl, ?_, ?_, ?_, ?_⟩
  · have hsource := hparts.bytes_eq
    have hplace : ∀ index : Nat, 0 + gap.length + index = index + (Piece.bytes fillers).length := by
      omega
    rw [Piece.bytes_append] at hsource
    rw [Piece.bytes_append, Piece.bytes_append]
    refine hparts.reads.fit.insert htext htail hblank hline (fun token htoken => ?_)
      (fun index hlow hhigh => ?_) (fun index hlow hhigh => ?_)
    · rw [Nat.zero_add, hspot]
      exact hclear token (hworking ▸ hparts.reads.fit.mem_scan htoken)
    · rw [Nat.zero_add, ← hsource]
      exact Bytes.joinsNext_congr_after (hspot ▸ hhigh) _ _
    · rw [hplace, Nat.zero_add, ← hsource]
      rw [hlength, Piece.bytes_append] at hhigh
      exact Bytes.joinsNext_insert hhead hbyte _ (hspot ▸ hlow) hhigh
  · -- the blanks stand at the same place of the working copy and of its blocks
    rw [List.map_append, Piece.bytes_append, Piece.bytes_append, Piece.bytes_cons, htext,
      List.append_assoc, ← List.append_assoc] at hworking
    obtain ⟨hfront, hrest⟩ := List.append_inj hworking
      (by rw [List.length_append, hspot, Piece.length_bytes_map_hide])
    rw [Piece.blankMarks_marksFrom, List.map_append, List.map_append, Piece.bytes_append,
      Piece.bytes_append, Piece.bytes_append, Piece.bytes_cons, ← hfront, ← hrest]
    simp [gap]
  · have hwiden := Piece.marksFrom_widen hparts.reads.fit.text_ne_nil htext htail gap
    rw [hspot, hgap, ← hparts.reads.directives] at hwiden
    exact hwiden.symm
  · rw [Layout.map, Control.ofMarks_map]
    exact Sequence.ofControls_map _ hparts.reads.tree

/-- Under a choice the tokens are left that lie in nothing blanked for it. -/
theorem scratch_tokens {pieces : List Piece}
    (hparts : Parts rule source marks layout pieces blocks) (choice : Int) :
    (((source.blankMarks marks).blankMarks layout.directives).blank
        (layout.unselected choice)).tokens =
      (source.blankMarks marks).tokens.filter fun token =>
        !Span.cover (layout.blanked choice) token.first := by
  have hscratch : ((source.blankMarks marks).blankMarks layout.directives).blank
      (layout.unselected choice) =
        Bytes.mask (Span.cover (layout.blanked choice)) 0 (source.blankMarks marks) :=
    (Bytes.blank_blank _ _ _).trans (Bytes.blank_eq_mask _ _)
  rw [hscratch, ← hparts.reads.bytes]
  exact Directive.scan_mask hparts.reads.fit (hparts.reads.aligned_blocks fun _ hspan => hspan)

end Survey.Parts

namespace Survey

/-- Two texts of which the second is the first with formatting inserted at an offset, as far as
a survey sees them. -/
structure Widened (spot size : Nat) (source : Bytes) (marks : List Mark) (layout : Layout)
    (target : Bytes) (found : List Mark) (widened : Layout) : Prop where
  layout_eq : widened = layout.map (·.widen spot size)
  tokens : ∀ choice : Int,
    (((target.blankMarks found).blankMarks widened.directives).blank
        (widened.unselected choice)).tokens =
      (((source.blankMarks marks).blankMarks layout.directives).blank
        (layout.unselected choice)).tokens.map (·.relocate (Bytes.moved spot size))

namespace Widened

variable {spot size : Nat} {source target : Bytes} {marks found : List Mark}
  {layout widened : Layout} {settings : Settings} {path other : String}

theorem outline_read (hwidened : Widened spot size source marks layout target found widened)
    (choice : Nat) :
    (Attempt.read target ((target.blankMarks found).blankMarks widened.directives) widened
        choice).outline =
      (Attempt.read source ((source.blankMarks marks).blankMarks layout.directives) layout
        choice).outline.relocate (Bytes.moved spot size) :=
  (congrArg Outline.ofTokens (hwidened.tokens choice)).trans (Outline.ofTokens_relocate _ _)

theorem survives_read (hwidened : Widened spot size source marks layout target found widened)
    (choice : Nat) :
    (Attempt.read target ((target.blankMarks found).blankMarks widened.directives) widened
        choice).survives =
      (Attempt.read source ((source.blankMarks marks).blankMarks layout.directives) layout
        choice).survives := by
  have hflaw := congrArg Outline.flaw (hwidened.outline_read choice)
  rw [Bool.eq_iff_iff, Attempt.survives_read_iff, Attempt.survives_read_iff]
  exact (iff_of_eq (congrArg (· = none) hflaw)).trans Option.map_eq_none_iff

theorem footprints_read (hwidened : Widened spot size source marks layout target found widened)
    (start : Start) (choice : Nat) :
    (Attempt.read target ((target.blankMarks found).blankMarks widened.directives) widened
        choice).footprints start =
      ((Attempt.read source ((source.blankMarks marks).blankMarks layout.directives) layout
        choice).footprints start).map (·.relocate (Span.moved spot size)) := by
  rw [Attempt.footprints, hwidened.outline_read, Outline.definitions_relocate, List.map_map,
    Attempt.footprints, List.map_map]
  refine List.map_congr_left fun definition _ => ?_
  exact definition.footprint_relocate (Span.natCast_moved spot size) start

/-- The same choices survive. -/
theorem surviving_eq (hwidened : Widened spot size source marks layout target found widened)
    (settings : Settings) :
    widened.surviving settings target
        ((target.blankMarks found).blankMarks widened.directives) =
      layout.surviving settings source
        ((source.blankMarks marks).blankMarks layout.directives) := by
  have hcount : widened.choices = layout.choices := by
    rw [hwidened.layout_eq, Layout.choices_map]
  rw [Layout.surviving, Layout.surviving, hcount]
  exact List.filter_congr fun choice _ => hwidened.survives_read choice

theorem choices_eq (hwidened : Widened spot size source marks layout target found widened) :
    (ofParts settings other target found widened).survivors.map (·.choice) =
      (ofParts settings path source marks layout).survivors.map (·.choice) := by
  rw [survivors_ofParts, survivors_ofParts, hwidened.surviving_eq, List.map_map, List.map_map]
  rfl

/-- All functions move along. -/
theorem functions_eq (hwidened : Widened spot size source marks layout target found widened) :
    (ofParts settings other target found widened).functions =
      (ofParts settings path source marks layout).functions.map
        (·.relocate (Span.moved spot size)) := by
  have hmonotone : ∀ a b, a ≤ b → Span.moved spot size a ≤ Span.moved spot size b :=
    fun a b => (Span.moved_le_moved_iff spot size).mpr
  rw [functions_ofParts, functions_ofParts, ← Footprint.uniteAll_relocate hmonotone,
    survivors_ofParts, survivors_ofParts, hwidened.surviving_eq, List.map_map, List.map_map,
    List.map_map]
  congr 1
  exact List.map_congr_left fun choice _ => hwidened.footprints_read settings.start choice

end Widened

/-- Formatting inserted in front of a token gives a text that can be prepared, with all that
is found in it moved. -/
theorem Parts.exists_widened {rule : CommentRule} {source : Bytes} {marks : List Mark}
    {layout : Layout} {front fillers back blocks : List Piece}
    (hparts : Parts rule source marks layout (front ++ back) blocks)
    (hfillers : ∀ piece ∈ fillers, Piece.Filler rule piece) {byte : UInt8}
    (hhead : (Piece.bytes back).head? = some byte) (hbyte : Token.isBlank byte = false)
    (hclear : ∀ token ∈ (source.blankMarks marks).tokens,
      token.last < (Piece.bytes front).length ∨ (Piece.bytes front).length ≤ token.first) :
    let spot := (Piece.bytes front).length
    let size := (Piece.bytes fillers).length
    let target := Piece.bytes (front ++ (fillers ++ back))
    let found := Piece.marksFrom 0 (front ++ (fillers ++ back))
    (target.blankMarks found).tokens =
        (source.blankMarks marks).tokens.map (·.relocate (Bytes.moved spot size)) ∧
      ∃ widened others, Parts rule target found widened (front ++ (fillers ++ back)) others ∧
        Widened spot size source marks layout target found widened := by
  intro spot size target found
  rw [hparts.blanked_eq] at hclear
  obtain ⟨others, hnew⟩ := hparts.insert hfillers hhead hbyte hclear
  have htokens : (target.blankMarks found).tokens =
      (source.blankMarks marks).tokens.map (·.relocate (Bytes.moved spot size)) := by
    rw [Piece.blankMarks_marksFrom, hparts.blanked_eq]
    exact tokens_insert hfillers hclear
  refine ⟨htokens, _, others, hnew, rfl, fun choice => ?_⟩
  rw [hnew.scratch_tokens, hparts.scratch_tokens, htokens, List.filter_map,
    Layout.blanked_map (Span.between_widen spot size)]
  congr 1
  refine List.filter_congr fun token _ => congrArg not ?_
  exact Span.cover_map_widen spot size _ token.first

end Survey

end CDelta

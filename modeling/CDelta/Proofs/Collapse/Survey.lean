import CDelta.Proofs.Collapse.Blocks
import CDelta.Proofs.Survey

/-! # The survey of a collapsed text

To collapse a text to a choice is to overwrite the directives that shape conditionals and all
that the choice leaves out. The collapsed text has no such directive, and read under its only
choice it shows the scratch copy of the choice it was collapsed to.
-/

namespace CDelta

namespace Layout

/-- The spans overwritten when a text is collapsed to a choice. -/
def overwritten (layout : Layout) (choice : Int) : List Span :=
  layout.controls.map (·.toSpan) ++ layout.unselected choice

theorem mem_blanked_of_overwritten {layout : Layout} {choice : Int} {span : Span}
    (hspan : span ∈ layout.overwritten choice) : span ∈ layout.blanked choice := by
  refine List.mem_append.mpr ((List.mem_append.mp hspan).imp_left fun hcontrol => ?_)
  obtain ⟨control, hmem, rfl⟩ := List.mem_map.mp hcontrol
  exact List.mem_map_of_mem (List.mem_filter.mp hmem).1

/-- A region that no directive reaches is overwritten as a whole or not at all. -/
theorem Reads.shown_of_no_control {source working : Bytes} {layout : Layout}
    {blocks : List Piece} (hreads : Reads source working layout blocks) {choice : Int}
    {region : Span} (hnone : ∀ control ∈ layout.controls, control.meets region = false)
    {inside offset : Nat} (hinside : region.has inside = true)
    (hshown : Span.cover (layout.overwritten choice) inside = false)
    (hoffset : region.has offset = true) :
    Span.cover (layout.overwritten choice) offset = false := by
  have hapart : ∀ control ∈ layout.controls,
      region.last < control.first ∨ control.last < region.first := by
    intro control hcontrol
    have hmeets := hnone control hcontrol
    simp only [Span.meets, Bool.and_eq_false_iff, decide_eq_false_iff_not] at hmeets
    omega
  rw [Span.has_iff] at hinside hoffset
  rw [Bool.eq_false_iff, ne_eq, Span.cover_iff] at hshown ⊢
  rintro ⟨span, hspan, hhas⟩
  rw [Span.has_iff] at hhas
  rcases List.mem_append.mp hspan with hdirective | hunselected
  · obtain ⟨control, hcontrol, rfl⟩ := List.mem_map.mp hdirective
    have hside := hapart control hcontrol
    omega
  · obtain ⟨opener, hopener, closer, hcloser, rfl⟩ := hreads.mem_unselected hunselected
    have hopens := hapart opener hopener
    have hcloses := hapart closer hcloser
    have hfirst := hreads.first_le_last (List.mem_filter.mp hopener).1
    have hlast := hreads.first_le_last (List.mem_filter.mp hcloser).1
    -- the span begins before the region and ends behind it, so it holds all of it
    refine hshown ⟨_, hspan, Span.has_iff.mpr ?_⟩
    simp only at hhas ⊢
    omega

end Layout

namespace Survey.Parts

variable {rule : CommentRule} {source : Bytes} {marks : List Mark} {layout : Layout}
  {pieces blocks : List Piece}

/-- No piece reaches across the border of two blocks. -/
theorem clears_border (hparts : Parts rule source marks layout pieces blocks)
    {front back : List Piece} (hsplit : blocks = front ++ back) :
    Piece.Clears ((Piece.bytes front).length : Nat) 0 pieces := by
  have hblanked := hparts.reads.bytes.trans hparts.blanked_eq
  by_cases hfront : front = []
  · subst hfront
    exact Piece.clears_of_le (by simp)
  · by_cases hback : back = []
    · have hlength : (Piece.bytes front).length = 0 + (Piece.bytes pieces).length := by
        have hsize := congrArg List.length hparts.reads.bytes
        rw [hsplit, hback, List.append_nil, Bytes.blankMarks, Bytes.length_blank,
          ← hparts.bytes_eq] at hsize
        omega
      have hend := Piece.clears_boundary 0 pieces []
      rwa [List.append_nil, ← hlength] at hend
    · have hfit := hparts.reads.fit
      rw [hsplit] at hfit
      have hlast := hfit.getLast?_front hfront hback
      have hpos : 0 < (Piece.bytes front).length := by
        rw [List.length_pos_iff]
        rintro hnil
        simp [hnil] at hlast
      rw [List.getLast?_eq_getElem?] at hlast
      have hnewline : (Piece.bytes (pieces.map (Piece.hide fun _ => true)))[
          (Piece.bytes front).length - 1]? = some Byte.newline := by
        rw [← hblanked, hsplit, Piece.bytes_append, List.getElem?_append_left (by omega), hlast]
      have hclears := Piece.clears_of_newline hparts.fit 0 hnewline
      rwa [show 0 + ((Piece.bytes front).length - 1) + 1 = (Piece.bytes front).length by omega]
        at hclears

theorem clears_directive (hparts : Parts rule source marks layout pieces blocks) {mark : Mark}
    (hmark : mark ∈ layout.directives) :
    Piece.Clears mark.first 0 pieces ∧ Piece.Clears (mark.last + 1) 0 pieces := by
  rw [hparts.reads.directives] at hmark
  obtain ⟨front, block, back, hsplit, _, rfl⟩ := Piece.mem_marksFrom hmark
  have hbehind : blocks = (front ++ [block]) ++ back := by simp [hsplit]
  have hfirst := hparts.clears_border hsplit
  have hlast := hparts.clears_border hbehind
  have hplace : (((Piece.bytes (front ++ [block])).length : Nat) : Int) =
      (block.mark (0 + (Piece.bytes front).length)).last + 1 := by
    simp only [Piece.bytes_append, Piece.bytes_cons, Piece.bytes_nil, List.append_nil,
      List.length_append, Piece.mark]
    omega
  rw [hplace] at hlast
  refine ⟨?_, hlast⟩
  rwa [Piece.mark, Nat.zero_add]

/-- Overwriting hides each block as a whole or not at all. -/
theorem aligned_blocks (hparts : Parts rule source marks layout pieces blocks) (choice : Int) :
    Piece.Aligned (Span.cover (layout.overwritten choice)) 0 blocks :=
  hparts.reads.aligned_blocks fun _ => Layout.mem_blanked_of_overwritten

/-- Overwriting hides each comment, literal and escape as a whole or not at all. -/
theorem aligned_pieces (hparts : Parts rule source marks layout pieces blocks) (choice : Int) :
    Piece.Aligned (Span.cover (layout.overwritten choice)) 0 pieces := by
  refine Piece.aligned_of_clears fun span hspan => ?_
  obtain ⟨first, hfirst, last, hlast, heq, hend⟩ :=
    hparts.reads.blanked_ends (Layout.mem_blanked_of_overwritten hspan)
  refine ⟨heq ▸ (hparts.clears_directive hfirst).1, ?_⟩
  rcases hend with hend | hend
  · exact hend ▸ (hparts.clears_directive hlast).2
  · exact hend ▸ (hparts.clears_directive hlast).1

/-- The marks of a collapsed text. -/
def collapsedMarks (layout : Layout) (pieces : List Piece) (choice : Int) : List Mark :=
  Piece.marksFrom 0 (Piece.collapse (Span.cover (layout.overwritten choice)) 0 pieces)

/-- The collapsed text with its marks blanked. -/
theorem blanked_collapse (hparts : Parts rule source marks layout pieces blocks) (choice : Int) :
    (source.blank (layout.overwritten choice)).blankMarks (collapsedMarks layout pieces choice) =
      Bytes.mask (Span.cover (layout.overwritten choice)) 0 (source.blankMarks marks) := by
  have haligned := hparts.aligned_pieces choice
  rw [collapsedMarks, Bytes.blankMarks_eq_mask, Bytes.blankMarks_eq_mask, Bytes.blank_eq_mask,
    Bytes.mask_mask, Bytes.mask_mask, hparts.marks_eq]
  refine Bytes.mask_congr fun index _ => ?_
  rw [Piece.cover_marksFrom, Piece.cover_marksFrom]
  cases hshown : Span.cover (layout.overwritten choice) (0 + index) with
  | true => simp
  | false =>
      rw [Piece.covers_collapse haligned _ hshown]
      simp

/-- Where text is overwritten up to text that is kept, a newline of the source is. -/
theorem newline_at_edge (hparts : Parts rule source marks layout pieces blocks) (choice : Int)
    {offset : Nat} (hhidden : Span.cover (layout.overwritten choice) offset = true)
    (hshown : Span.cover (layout.overwritten choice) (offset + 1) = false)
    (hlt : offset + 1 < source.length) : source[offset]? = some Byte.newline := by
  have hlength : (Piece.bytes blocks).length = source.length := by
    rw [hparts.reads.bytes, Bytes.blankMarks, Bytes.length_blank]
  have hnewline : (Piece.bytes blocks)[offset]? = some Byte.newline :=
    Directive.newline_at_edge hparts.reads.fit (hparts.aligned_blocks choice)
      (by rwa [Nat.zero_add]) (by rwa [Nat.zero_add]) (by rwa [hlength])
  rw [hparts.reads.bytes, Bytes.blankMarks_eq_mask,
    Bytes.getElem?_mask_eq_some_iff (by decide)] at hnewline
  exact hnewline.1

/-- The layout of a collapsed text. -/
def collapsedLayout (layout : Layout) (blocks : List Piece) (choice : Int) : Layout :=
  ⟨Piece.marksFrom 0 (Directive.carry (Span.cover (layout.overwritten choice)) 0 0 blocks), .nil⟩

theorem controls_collapsedLayout (hparts : Parts rule source marks layout pieces blocks)
    (choice : Int) : (collapsedLayout layout blocks choice).controls = [] := by
  rw [Layout.controls, List.filter_eq_nil_iff]
  intro mark hmark
  have hnone : mark.kind.isControl = false := by
    refine Directive.no_wanted_carry (fun control hmem hcontrol => ?_) mark hmark
    rw [← hparts.reads.directives] at hmem
    have hnonneg := hparts.reads.first_le_last hmem
    rw [Span.cover_iff]
    refine ⟨control.toSpan, List.mem_append_left _ ?_, ?_⟩
    · exact List.mem_map_of_mem (List.mem_filter.mpr ⟨hmem, hcontrol⟩)
    · rw [Span.has_iff]
      omega
  simp [hnone]

/-- The collapsed text has marks and a layout. -/
theorem collapse (hparts : Parts rule source marks layout pieces blocks) (choice : Int) :
    let hidden := Span.cover (layout.overwritten choice)
    Parts rule (source.blank (layout.overwritten choice)) (collapsedMarks layout pieces choice)
      (collapsedLayout layout blocks choice) (Piece.collapse hidden 0 pieces)
      (Directive.carry hidden 0 0 blocks) := by
  intro hidden
  have haligned := hparts.aligned_blocks choice
  refine ⟨Piece.fit_collapse hparts.fit (hparts.aligned_pieces choice), ?_, rfl, ?_, ?_, rfl, ?_⟩
  · rw [Piece.bytes_collapse (hparts.aligned_pieces choice), hparts.bytes_eq, Bytes.blank_eq_mask]
  · have hcarry : Directive.Blocks (source.blank (layout.overwritten choice)) 0
        (Directive.carry hidden 0 (0 + 0) blocks) := by
      refine Directive.blocks_carry hparts.reads.fit haligned fun stop hshown hlt => ?_
      rw [hparts.reads.bytes, Bytes.blankMarks, Bytes.length_blank] at hlt
      rw [Bytes.blank_eq_mask]
      exact Bytes.joinsNext_mask (by omega) hshown fun offset => hparts.newline_at_edge choice
    exact hcarry
  · rw [hparts.blanked_collapse choice, Directive.bytes_carry haligned, hparts.reads.bytes]
    rfl
  · have hnone : Control.ofMarks (collapsedLayout layout blocks choice).directives = [] := by
      have hspans := Control.map_span_ofMarks (collapsedLayout layout blocks choice).directives
      rw [← Layout.controls, hparts.controls_collapsedLayout choice] at hspans
      simpa using hspans
    rw [hnone]
    rfl

/-- Under its only choice a collapsed text shows the scratch copy of the choice it was
collapsed to. -/
theorem scratch_collapse (hparts : Parts rule source marks layout pieces blocks) (choice : Int) :
    ((source.blank (layout.overwritten choice)).blankMarks
        (collapsedMarks layout pieces choice)).blankMarks
        (collapsedLayout layout blocks choice).directives =
      ((source.blankMarks marks).blankMarks layout.directives).blank
        (layout.unselected choice) := by
  rw [hparts.blanked_collapse choice, Bytes.blankMarks_eq_mask, Bytes.blank_eq_mask,
    Bytes.blankMarks_eq_mask layout.directives, Bytes.mask_mask, Bytes.mask_mask]
  refine Bytes.mask_congr fun index _ => ?_
  cases hshown : Span.cover (layout.overwritten choice) (0 + index) with
  | true =>
      -- what is overwritten lies in a directive or is left out
      rw [Bool.true_or, eq_comm, Bool.or_eq_true]
      rw [Layout.overwritten, Span.cover_append, Bool.or_eq_true] at hshown
      refine hshown.imp_left fun hcontrol => ?_
      obtain ⟨span, hspan, hhas⟩ := Span.cover_iff.mp hcontrol
      obtain ⟨control, hmem, rfl⟩ := List.mem_map.mp hspan
      exact Span.cover_iff.mpr ⟨_, List.mem_map_of_mem (List.mem_filter.mp hmem).1, hhas⟩
  | false =>
      have hdirectives : Span.cover ((collapsedLayout layout blocks choice).directives.map
          (·.toSpan)) (0 + index) = Span.cover (layout.directives.map (·.toSpan)) (0 + index) := by
        rw [hparts.reads.directives, collapsedLayout, Piece.cover_marksFrom,
          Piece.cover_marksFrom]
        exact Directive.covers_carry (hparts.aligned_blocks choice) hshown (by omega)
      rw [Layout.overwritten, Span.cover_append, Bool.or_eq_false_iff] at hshown
      rw [Bool.false_or, hdirectives, hshown.2, Bool.or_false]

/-- A collapsed text has one choice, under which the same outline is read. -/
theorem attempts_collapse (hparts : Parts rule source marks layout pieces blocks)
    (settings : Settings) (path : String) (choice : Int) :
    let collapsed := ofParts settings path (source.blank (layout.overwritten choice))
      (collapsedMarks layout pieces choice) (collapsedLayout layout blocks choice)
    ∃ attempt, collapsed.attempts = [attempt] ∧ attempt.hidden = [] ∧
      attempt.outline = Outline.ofTokens (((source.blankMarks marks).blankMarks
        layout.directives).blank (layout.unselected choice)).tokens ∧
      (attempt.survives = true ↔ attempt.outline.flaw = none) := by
  intro collapsed
  have hcount : min (collapsedLayout layout blocks choice).choices settings.choiceLimit = 1 := by
    have hlimit := settings.choiceLimit_pos
    have hchoices : (collapsedLayout layout blocks choice).choices = 1 := rfl
    omega
  refine ⟨Attempt.read (source.blank (layout.overwritten choice)) collapsed.working
    (collapsedLayout layout blocks choice) 0, ?_, rfl, ?_, ?_⟩
  · simp only [collapsed, ofParts, hcount]
    rfl
  · have hscratch : collapsed.working.blank ((collapsedLayout layout blocks choice).unselected 0) =
        ((source.blankMarks marks).blankMarks layout.directives).blank
          (layout.unselected choice) := by
      rw [← hparts.scratch_collapse choice]
      exact Bytes.blank_nil _
    rw [← hscratch]
    rfl
  · simp [Attempt.survives, Attempt.read]

end Survey.Parts

end CDelta

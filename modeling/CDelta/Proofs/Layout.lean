import CDelta.Survey
import CDelta.Proofs.Conditional.Choice
import CDelta.Proofs.Directive
import CDelta.Proofs.Lexing

/-! # The layout of a text

A layout is read from blocks, so its directives ascend and do not overlap, and what a choice
leaves out begins at one of them and ends in front of another.
-/

namespace CDelta

namespace Control

theorem map_span_ofMarks (marks : List Mark) :
    (ofMarks marks).map (·.span) = (marks.filter (·.kind.isControl)).map (·.toSpan) := by
  have hfound : ∀ found? : Mark → Option (ControlKind × Span),
      (∀ mark, (found? mark).map (·.2) = if mark.kind.isControl then some mark.toSpan else none) →
      (marks.filterMap found?).map (·.2) = (marks.filter (·.kind.isControl)).map (·.toSpan) := by
    intro found? hfound
    rw [List.map_filterMap, ← List.filterMap_eq_map, List.filterMap_filter]
    congr 1
    funext mark
    exact hfound mark
  have hnumbered : ∀ found : List (ControlKind × Span),
      found.zipIdx.map (·.1.2) = found.map (·.2) := by
    intro found
    calc
      found.zipIdx.map (·.1.2) = (found.zipIdx.map Prod.fst).map (·.2) := List.map_map.symm
      _ = found.map (·.2) := by rw [List.zipIdx_map_fst]
  rw [ofMarks, List.map_map]
  refine (hnumbered _).trans (hfound _ fun mark => ?_)
  obtain ⟨span, kind⟩ := mark
  cases kind <;> rfl

/-- Directives keep their order when they are taken from marks. -/
theorem ascending_ofMarks {marks : List Mark}
    (hascending : marks.Pairwise fun earlier later =>
      earlier.first < later.first ∧ earlier.last < later.first) :
    Ascending (ofMarks marks) := by
  have hspans : ((ofMarks marks).map (·.span)).Pairwise fun earlier later =>
      earlier.first < later.first ∧ earlier.last < later.first := by
    rw [map_span_ofMarks]
    exact (hascending.filter _).map _ fun _ _ h => h
  exact List.pairwise_map.mp hspans

theorem span_mem_of_mem_ofMarks {marks : List Mark} {control : Control}
    (hmem : control ∈ ofMarks marks) :
    ∃ mark ∈ marks, mark.kind.isControl = true ∧ control.span = mark.toSpan := by
  have hspan : control.span ∈ (ofMarks marks).map (·.span) := List.mem_map_of_mem hmem
  rw [map_span_ofMarks] at hspan
  obtain ⟨mark, hmark, heq⟩ := List.mem_map.mp hspan
  obtain ⟨hmem, hkind⟩ := List.mem_filter.mp hmark
  exact ⟨mark, hmem, hkind, heq.symm⟩

end Control

namespace Bytes

theorem layout_eq_ok_iff {source working : Bytes} {layout : Layout} :
    source.layout working = .ok layout ↔
      layout.directives = source.directives working ∧
        Sequence.ofControls (Control.ofMarks layout.directives) = .ok layout.tree := by
  simp only [Bytes.layout]
  cases hread : Sequence.ofControls (Control.ofMarks (source.directives working)) with
  | ok tree =>
      constructor
      · intro h
        obtain rfl := Except.ok.inj h
        exact ⟨rfl, hread⟩
      · obtain ⟨directives, other⟩ := layout
        rintro ⟨rfl, htree⟩
        obtain rfl := Except.ok.inj (hread.symm.trans htree)
        rfl
  | error nesting =>
      constructor
      · exact fun h => nomatch h
      · rintro ⟨hdirectives, htree⟩
        rw [hdirectives, hread] at htree
        cases htree

/-- The directives of a text are the marks of blocks that make its working copy. -/
theorem exists_blocks_directives (source working : Bytes) :
    ∃ blocks, Directive.Blocks source 0 blocks ∧ Piece.bytes blocks = working ∧
      source.directives working = Piece.marksFrom 0 blocks := by
  obtain ⟨blocks, hblocks, rfl⟩ := Directive.exists_blocks source 0 working
  exact ⟨blocks, hblocks, rfl, Directive.scan_bytes hblocks⟩

end Bytes

namespace Survey

theorem prepare_eq_ok_iff {rule : CommentRule} {source : Bytes} {marks : List Mark}
    {layout : Layout} :
    prepare rule source = .ok (marks, layout) ↔
      source.marks rule .everything = .ok marks ∧
        source.layout (source.blankMarks marks) = .ok layout := by
  unfold prepare
  cases hmarks : source.marks rule .everything with
  | error fault =>
      exact ⟨fun h => (nomatch h), fun h => (nomatch h.1)⟩
  | ok found =>
      change (source.layout (source.blankMarks found) >>= fun layout =>
        Except.ok (found, layout)) = _ ↔ _
      cases hlayout : source.layout (source.blankMarks found) with
      | error fault =>
          refine ⟨fun h => (nomatch h), ?_⟩
          rintro ⟨h, hother⟩
          obtain rfl := Except.ok.inj h
          rw [hlayout] at hother
          cases hother
      | ok other =>
          constructor
          · intro h
            obtain ⟨rfl, rfl⟩ := Prod.mk.inj (Except.ok.inj h)
            exact ⟨rfl, hlayout⟩
          · rintro ⟨h, hother⟩
            obtain rfl := Except.ok.inj h
            obtain rfl := Except.ok.inj (hlayout.symm.trans hother)
            rfl

end Survey

namespace Layout

/-- The spans blanked for a choice: all directives, and what the choice leaves out. -/
def blanked (layout : Layout) (choice : Int) : List Span :=
  layout.directives.map (·.toSpan) ++ layout.unselected choice

/-- The layout of a text, read with all that fits together. -/
structure Reads (source working : Bytes) (layout : Layout) (blocks : List Piece) : Prop where
  fit : Directive.Blocks source 0 blocks
  bytes : Piece.bytes blocks = working
  directives : layout.directives = Piece.marksFrom 0 blocks
  tree : Sequence.ofControls (Control.ofMarks layout.directives) = .ok layout.tree

theorem exists_reads {source working : Bytes} {layout : Layout}
    (hlayout : source.layout working = .ok layout) :
    ∃ blocks, Reads source working layout blocks := by
  obtain ⟨hdirectives, htree⟩ := Bytes.layout_eq_ok_iff.mp hlayout
  obtain ⟨blocks, hfit, hbytes, hmarks⟩ := source.exists_blocks_directives working
  exact ⟨blocks, hfit, hbytes, hdirectives.trans hmarks, htree⟩

namespace Reads

variable {source working : Bytes} {layout : Layout} {blocks : List Piece}

theorem layout_eq (hreads : Reads source working layout blocks) :
    source.layout working = .ok layout := by
  refine Bytes.layout_eq_ok_iff.mpr ⟨?_, hreads.tree⟩
  rw [hreads.directives, ← hreads.bytes]
  exact (Directive.scan_bytes hreads.fit).symm

theorem linked (hreads : Reads source working layout blocks) : layout.tree.Linked :=
  Sequence.linked_ofControls hreads.tree

theorem controls_tree (hreads : Reads source working layout blocks) :
    layout.tree.controls = Control.ofMarks layout.directives :=
  Sequence.controls_ofControls hreads.tree

theorem ascending (hreads : Reads source working layout blocks) :
    Control.Ascending layout.tree.controls := by
  rw [hreads.controls_tree, hreads.directives]
  exact Control.ascending_ofMarks (Piece.pairwise_marksFrom hreads.fit.text_ne_nil 0)

theorem first_le_last (hreads : Reads source working layout blocks) {mark : Mark}
    (hmark : mark ∈ layout.directives) : 0 ≤ mark.first ∧ mark.first ≤ mark.last := by
  rw [hreads.directives] at hmark
  obtain ⟨hfirst, hlast, _⟩ := Piece.bounds_of_mem_marksFrom hreads.fit.text_ne_nil hmark
  exact ⟨hfirst, hlast⟩

theorem last_lt_length (hreads : Reads source working layout blocks) {mark : Mark}
    (hmark : mark ∈ layout.directives) : mark.last < working.length := by
  rw [hreads.directives] at hmark
  obtain ⟨_, _, hlast⟩ := Piece.bounds_of_mem_marksFrom hreads.fit.text_ne_nil hmark
  rwa [hreads.bytes, Nat.zero_add] at hlast

/-- What a choice leaves out begins at a directive and ends in front of one. -/
theorem mem_unselected (hreads : Reads source working layout blocks) {choice : Int}
    {span : Span} (hspan : span ∈ layout.unselected choice) :
    ∃ opener ∈ layout.controls, ∃ closer ∈ layout.controls,
      span = ⟨opener.first, closer.first - 1⟩ := by
  have hcontrol : ∀ control ∈ layout.tree.controls,
      ∃ mark ∈ layout.controls, control.span = mark.toSpan := by
    intro control hcontrol
    rw [hreads.controls_tree] at hcontrol
    obtain ⟨mark, hmem, hkind, heq⟩ := Control.span_mem_of_mem_ofMarks hcontrol
    exact ⟨mark, List.mem_filter.mpr ⟨hmem, hkind⟩, heq⟩
  unfold unselected Sequence.unselected at hspan
  cases hspans : layout.tree.unselected? (layout.tree.shape.digits choice) with
  | none => simp [hspans] at hspan
  | some spans =>
      rw [hspans] at hspan
      obtain ⟨low, hlow, high, hhigh, rfl⟩ :=
        layout.tree.mem_unselected hreads.linked _ hspans hspan
      obtain ⟨opener, hopener, hlow⟩ := hcontrol low hlow
      obtain ⟨closer, hcloser, hhigh⟩ := hcontrol high hhigh
      exact ⟨opener, hopener, closer, hcloser, by rw [hlow, hhigh]⟩

/-- What is blanked for a choice begins and ends at the borders of directives. -/
theorem blanked_ends (hreads : Reads source working layout blocks) {choice : Int} {span : Span}
    (hspan : span ∈ layout.blanked choice) :
    ∃ first ∈ layout.directives, ∃ last ∈ layout.directives,
      span.first = first.first ∧ (span.last = last.last ∨ span.last + 1 = last.first) := by
  rcases List.mem_append.mp hspan with hspan | hspan
  · obtain ⟨mark, hmark, rfl⟩ := List.mem_map.mp hspan
    exact ⟨mark, hmark, mark, hmark, rfl, .inl rfl⟩
  · obtain ⟨opener, hopener, closer, hcloser, rfl⟩ := hreads.mem_unselected hspan
    exact ⟨opener, (List.mem_filter.mp hopener).1, closer, (List.mem_filter.mp hcloser).1, rfl,
      .inr (by simp)⟩

/-- What is blanked for a choice hides each block as a whole or not at all. -/
theorem aligned_blocks (hreads : Reads source working layout blocks) {choice : Int}
    {spans : List Span} (hspans : ∀ span ∈ spans, span ∈ layout.blanked choice) :
    Piece.Aligned (Span.cover spans) 0 blocks := by
  refine Piece.aligned_of_clears fun span hspan => ?_
  obtain ⟨first, hfirst, last, hlast, heq, hend⟩ := hreads.blanked_ends (hspans span hspan)
  rw [hreads.directives] at hfirst hlast
  refine ⟨heq ▸ (Piece.clears_of_mem_marksFrom hfirst).1, ?_⟩
  rcases hend with hend | hend
  · exact hend ▸ (Piece.clears_of_mem_marksFrom hlast).2
  · exact hend ▸ (Piece.clears_of_mem_marksFrom hlast).1

end Reads

end Layout

end CDelta

import CDelta.Proofs.Layout

/-! # Every branch is realized

One digit for each level of nesting, shared by all conditionals of the level, is enough to
reach every branch: some choice leaves in sight the branch and all branches around it. So no
text outside of directives is left out by every choice.
-/

namespace CDelta

namespace Sequence

/-- Some choice picks every branch of a path. -/
theorem Path.exists_choice {tree : Sequence} {path : List Branch} (hpath : tree.Path path)
    (hlinked : tree.Linked) (hascending : Control.Ascending tree.controls) :
    ∃ choice : Nat, choice < tree.shape.choices ∧
      ∀ branch ∈ path, branch.text ∉ tree.unselected choice := by
  -- an offset inside of all branches of the path keeps each of them
  obtain ⟨control, _, hhas⟩ := hpath.exists_common_offset hlinked hascending
  obtain ⟨choice, hchoice, havoid⟩ := exists_choice_avoiding hlinked hascending control.span.first
  exact ⟨choice, hchoice, fun branch hbranch hmem => havoid _ hmem (hhas branch hbranch)⟩

end Sequence

namespace Bytes

theorem getElem?_blank_of_avoid {spans : List Span} {offset : Nat}
    (havoid : Span.Avoid spans offset) (data : Bytes) :
    (data.blank spans)[offset]? = data[offset]? := by
  have hnone : spans.any (·.has offset) = false := by
    rw [List.any_eq_false]
    exact havoid
  simp [getElem?_blank, hnone]

end Bytes

/-- Well nested directives, in order and apart, form conditionals in which each branch, with
the branches around it, is picked by some choice. When all choices of a file are tried, each
byte outside of directives stands in the scratch copy of one of them. -/
theorem every_branch_realized :
    (∀ controls : List Control, Control.Nested 0 controls → Control.Ascending controls →
      ∃ tree, Sequence.ofControls controls = .ok tree ∧
        ∀ path, tree.Path path →
          ∃ choice : Nat, choice < tree.shape.choices ∧
            ∀ branch ∈ path, branch.text ∉ tree.unselected choice) ∧
    ∀ (settings : Settings) (source : Bytes) (marks : List Mark) (layout : Layout),
      Survey.prepare settings.comments source = .ok (marks, layout) →
      layout.choices ≤ settings.choiceLimit →
      ∀ offset < source.length,
        Span.Avoid (layout.directives.map (·.toSpan)) offset →
        let working := (source.blankMarks marks).blankMarks layout.directives
        ∃ choice < min layout.choices settings.choiceLimit,
          let attempt := Attempt.read source working layout choice
          Span.Avoid attempt.hidden offset ∧
            (working.blank attempt.hidden)[offset]? = (source.blankMarks marks)[offset]? := by
  refine ⟨?_, ?_⟩
  · intro controls hnested hascending
    obtain ⟨tree, htree⟩ := Sequence.exists_ofControls hnested
    have hcontrols := Sequence.controls_ofControls htree
    exact ⟨tree, htree, fun path hpath =>
      hpath.exists_choice (Sequence.linked_ofControls htree) (hcontrols ▸ hascending)⟩
  · intro settings source marks layout hprepare hlimit offset _ hdirectives
    obtain ⟨blocks, hreads⟩ := Layout.exists_reads (Survey.prepare_eq_ok_iff.mp hprepare).2
    obtain ⟨choice, hchoice, havoid⟩ :=
      Sequence.exists_choice_avoiding hreads.linked hreads.ascending offset
    refine ⟨choice, ?_, havoid, ?_⟩
    · have hcount : choice < layout.choices := hchoice
      omega
    · exact (Bytes.getElem?_blank_of_avoid havoid _).trans
        (Bytes.getElem?_blank_of_avoid hdirectives _)

/-- A conditional of three branches, the second with a conditional inside: the inner branch
and the one around it are picked together, and the text of the inner branch stands in the
scratch copy of a choice. -/
theorem every_branch_realized_nested :
    let source := Bytes.ofChars
      "#if A\nx\n#elif B\n#if C\ny\n#endif\n#else\nz\n#endif\n".toList
    let directives : List Mark :=
      [⟨⟨0, 5⟩, .control .opens⟩, ⟨⟨8, 15⟩, .control .divides⟩, ⟨⟨16, 21⟩, .control .opens⟩,
        ⟨⟨24, 30⟩, .control .closes⟩, ⟨⟨31, 36⟩, .control .divides⟩,
        ⟨⟨39, 45⟩, .control .closes⟩]
    ∃ tree, Sequence.ofControls (Control.ofMarks directives) = .ok tree ∧
      (∃ choice : Nat, choice < tree.shape.choices ∧
        (⟨8, 30⟩ : Span) ∉ tree.unselected choice ∧ (⟨16, 23⟩ : Span) ∉ tree.unselected choice) ∧
      Survey.prepare .nested source = .ok ([], ⟨directives, tree⟩) ∧
      let working := (source.blankMarks []).blankMarks directives
      ∃ choice < 9, (working.blank (Attempt.read source working ⟨directives, tree⟩ choice).hidden)[
        22]? = source[22]? := by
  intro source directives
  have hnested : Control.Nested 0 (Control.ofMarks directives) := by
    simp [directives, Control.ofMarks, Control.Nested]
  have hascending : Control.Ascending (Control.ofMarks directives) := by
    simp [directives, Control.ofMarks, Control.Ascending]
  obtain ⟨tree, htree, hpaths⟩ := every_branch_realized.1 _ hnested hascending
  let inner : Branch := ⟨⟨2, .opens, ⟨16, 21⟩⟩, ⟨3, .closes, ⟨24, 30⟩⟩, .nil⟩
  let outer : Branch := ⟨⟨1, .divides, ⟨8, 15⟩⟩, ⟨4, .divides, ⟨31, 36⟩⟩,
    .cons (.last inner.opener inner.closer inner.body) .nil⟩
  let whole : Conditional := .more ⟨0, .opens, ⟨0, 5⟩⟩ outer.opener .nil
    (.more outer.opener outer.closer outer.body
      (.last outer.closer ⟨5, .closes, ⟨39, 45⟩⟩ .nil))
  obtain rfl : .cons whole .nil = tree := Except.ok.inj htree
  have houter : outer ∈ whole.branches := by simp [whole, outer, Conditional.branches]
  have hinner : outer.body.Path [inner] := .one List.mem_cons_self List.mem_cons_self
  have hpath : (Sequence.cons whole .nil).Path [outer, inner] :=
    .into List.mem_cons_self houter hinner
  obtain ⟨choice, hchoice, hpicked⟩ := hpaths _ hpath
  have hdirectives : directives = source.directives (source.blankMarks []) := by decide +kernel
  have hprepare : Survey.prepare .nested source = .ok ([], ⟨directives, .cons whole .nil⟩) :=
    Survey.prepare_eq_ok_iff.mpr
      ⟨by decide +kernel, Bytes.layout_eq_ok_iff.mpr ⟨hdirectives, htree⟩⟩
  obtain ⟨other, hother, _, hstands⟩ := every_branch_realized.2 Settings.default source [] _
    hprepare (by decide) 22 (by decide) (by simp [directives, Span.Avoid])
  refine ⟨_, htree, ⟨choice, hchoice, ?_, ?_⟩, hprepare, other, hother, ?_⟩
  · exact hpicked outer (by simp)
  · exact hpicked inner (by simp)
  · exact hstands.trans (by decide +kernel)

end CDelta

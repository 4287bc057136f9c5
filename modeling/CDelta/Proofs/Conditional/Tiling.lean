import CDelta.Proofs.Conditional.Grammar

/-! # How branches tile a text

The branches of a conditional stand edge to edge from its opening directive up to its closing
one. What is nested in a branch lies between the directives around the branch, and the
conditionals of one sequence lie apart, their closing directives included. So the spans of any
two nodes are nested or share no offset.
-/

namespace CDelta

namespace Span

/-- No offset lies in both spans. -/
def Apart (span other : Span) : Prop :=
  ∀ offset, span.has offset = true → ¬ other.has offset = true

/-- One of the spans holds the other, or they share no offset. -/
def Laminar (span other : Span) : Prop :=
  span.contains other = true ∨ other.contains span = true ∨ span.Apart other

theorem apart_of_lt {span other : Span} (hlt : span.last < other.first) : span.Apart other := by
  intro offset hspan hother
  rw [has_iff] at hspan hother
  omega

theorem Apart.symm {span other : Span} (hapart : span.Apart other) : other.Apart span :=
  fun offset hother hspan => hapart offset hspan hother

theorem Laminar.of_lt {span other : Span} (hlt : span.last < other.first) :
    span.Laminar other :=
  .inr (.inr (apart_of_lt hlt))

instance : Std.Symm Laminar where
  symm := by
    rintro span other (hholds | hheld | hapart)
    · exact .inr (.inl hholds)
    · exact .inl hheld
    · exact .inr (.inr hapart.symm)

theorem Laminar.refl (span : Span) : span.Laminar span :=
  .inl (by simp [contains])

end Span

namespace Control

/-- A span runs from one of the directives up to another. -/
def Bounds (controls : List Control) (span : Span) : Prop :=
  ∃ opener ∈ controls, ∃ closer ∈ controls, span = ⟨opener.span.first, closer.span.first - 1⟩

/-- A span begins behind none of the directives and goes on up to each of them. -/
def Within (controls : List Control) (span : Span) : Prop :=
  ∀ control ∈ controls, span.first ≤ control.span.first ∧ control.span.first ≤ span.last + 1

namespace Bounds

variable {controls others : List Control} {span other : Span}

theorem mono (hbounds : Bounds controls span) (hsubset : controls ⊆ others) :
    Bounds others span := by
  obtain ⟨opener, hopener, closer, hcloser, rfl⟩ := hbounds
  exact ⟨opener, hsubset hopener, closer, hsubset hcloser, rfl⟩

/-- A span of some directives ends in front of a span of later ones. -/
theorem lt (hbounds : Bounds controls span) (hother : Bounds others other)
    (hlater : ∀ control ∈ controls, ∀ later ∈ others, control.span.first ≤ later.span.first) :
    span.last < other.first := by
  obtain ⟨_, _, closer, hcloser, rfl⟩ := hbounds
  obtain ⟨opener, hopener, _, _, rfl⟩ := hother
  have hle := hlater closer hcloser opener hopener
  simp only
  omega

theorem contains (hbounds : Bounds controls span) (hwithin : Within controls other) :
    other.contains span = true := by
  obtain ⟨opener, hopener, closer, hcloser, rfl⟩ := hbounds
  have hfirst := (hwithin opener hopener).1
  have hlast := (hwithin closer hcloser).2
  simp only [Span.contains, Bool.and_eq_true, decide_eq_true_eq]
  omega

end Bounds

end Control

theorem Branch.Ordered.within_text {branch : Branch} (hordered : branch.Ordered) :
    Control.Within branch.body.controls branch.text := by
  intro control hcontrol
  have hbetween := hordered.encloses control hcontrol
  simp only [text]
  omega

namespace Conditional

theorem bounds_text (conditional : Conditional) :
    Control.Bounds conditional.controls conditional.text :=
  ⟨_, conditional.opener_mem_controls, _, conditional.closer_mem_controls, rfl⟩

theorem within_text {conditional : Conditional}
    (hascending : Control.Ascending conditional.controls) :
    Control.Within conditional.controls conditional.text := by
  intro control hcontrol
  have hfirst := opener_le_of_mem hascending hcontrol
  have hlast := conditional.le_closer_of_mem hascending hcontrol
  simp only [text]
  omega

/-- The directives of a branch, its own two included, stand in this order in the
conditional. -/
theorem controls_branch_sublist : (conditional : Conditional) → conditional.Linked →
    {branch : Branch} → branch ∈ conditional.branches →
    (branch.opener :: (branch.body.controls ++ [branch.closer])).Sublist conditional.controls
  | .last _ _ _, _, branch, hmem => by
      obtain rfl := List.mem_singleton.mp hmem
      exact List.Sublist.refl _
  | .more opener closer body rest, ⟨hcloser, _, hrest⟩, branch, hmem => by
      rw [controls]
      obtain rfl | hmem := List.mem_cons.mp hmem
      · have hnext : [closer].Sublist rest.controls := by
          rw [List.singleton_sublist, hcloser]
          exact rest.opener_mem_controls
        exact (hnext.append_left body.controls).cons_cons opener
      · have hlater := rest.controls_branch_sublist hrest hmem
        exact .cons _ (hlater.trans (List.sublist_append_right _ _))

/-- A branch ends in front of every later one. -/
theorem pairwise_branches : (conditional : Conditional) → conditional.Linked →
    Control.Ascending conditional.controls →
    conditional.branches.Pairwise fun earlier later => earlier.text.last < later.text.first
  | .last _ _ _, _, _ => List.pairwise_singleton _ _
  | .more opener closer body rest, ⟨hcloser, _, hrest⟩, hascending => by
      obtain ⟨_, hlater, _⟩ := List.pairwise_append.mp (List.pairwise_cons.mp hascending).2
      refine List.pairwise_cons.mpr ⟨?_, rest.pairwise_branches hrest hlater⟩
      intro branch hbranch
      have hopener := opener_le_of_mem hlater (rest.branch_controls hrest hbranch).1
      simp only [Branch.text, hcloser]
      omega

/-- The offsets of a conditional are those of its branches. -/
theorem has_text_iff : (conditional : Conditional) → conditional.Linked →
    Control.Ascending conditional.controls → (offset : Int) →
    (conditional.text.has offset = true ↔
      ∃ branch ∈ conditional.branches, branch.text.has offset = true)
  | .last opener closer body, _, _, offset => by
      simp [branches, text, Branch.text, Conditional.opener, Conditional.closer]
  | .more opener closer body rest, ⟨hcloser, _, hrest⟩, hascending, offset => by
      obtain ⟨hbefore, hinner⟩ := List.pairwise_cons.mp hascending
      obtain ⟨_, hlater, _⟩ := List.pairwise_append.mp hinner
      have hwhole := rest.has_text_iff hrest hlater offset
      have hmiddle := (hbefore rest.opener (by simp [rest.opener_mem_controls])).1
      have hend := opener_le_of_mem hlater rest.closer_mem_controls
      have htext : (more opener closer body rest).text =
          ⟨opener.span.first, rest.closer.span.first - 1⟩ := rfl
      simp only [branches, List.mem_cons, exists_eq_or_imp, ← hwhole, htext]
      simp only [Span.has_iff, text, Branch.text, hcloser]
      omega

end Conditional

mutual

/-- The spans of the conditionals of a sequence and of all branches and conditionals inside of
them, each in front of those that it holds. -/
def Sequence.nodeTexts : Sequence → List Span
  | .nil => []
  | .cons first rest => first.text :: (first.branchTexts ++ rest.nodeTexts)

/-- The spans of the branches of a conditional and of all that they hold. -/
def Conditional.branchTexts : Conditional → List Span
  | .last opener closer body => Branch.text ⟨opener, closer, body⟩ :: body.nodeTexts
  | .more opener closer body rest =>
    Branch.text ⟨opener, closer, body⟩ :: (body.nodeTexts ++ rest.branchTexts)

end

mutual

theorem Sequence.bounds_of_mem_nodeTexts : (sequence : Sequence) → sequence.Linked →
    {span : Span} → span ∈ sequence.nodeTexts → Control.Bounds sequence.controls span
  | .nil, _, span, hmem => by simp [Sequence.nodeTexts] at hmem
  | .cons first rest, ⟨hfirst, hrest⟩, span, hmem => by
      simp only [Sequence.nodeTexts, List.mem_cons, List.mem_append] at hmem
      rw [Sequence.controls]
      obtain rfl | hmem | hmem := hmem
      · exact first.bounds_text.mono (List.subset_append_left _ _)
      · exact (first.bounds_of_mem_branchTexts hfirst hmem).mono (List.subset_append_left _ _)
      · exact (rest.bounds_of_mem_nodeTexts hrest hmem).mono (List.subset_append_right _ _)

theorem Conditional.bounds_of_mem_branchTexts : (conditional : Conditional) →
    conditional.Linked → {span : Span} → span ∈ conditional.branchTexts →
    Control.Bounds conditional.controls span
  | .last opener closer body, hlinked, span, hmem => by
      rw [Conditional.controls]
      obtain rfl | hmem := List.mem_cons.mp hmem
      · exact ⟨opener, by simp, closer, by simp, rfl⟩
      · exact (body.bounds_of_mem_nodeTexts hlinked hmem).mono (by simp)
  | .more opener closer body rest, ⟨hcloser, hbody, hrest⟩, span, hmem => by
      simp only [Conditional.branchTexts, List.mem_cons, List.mem_append] at hmem
      rw [Conditional.controls]
      obtain rfl | hmem | hmem := hmem
      · have hnext : closer ∈ rest.controls := hcloser ▸ rest.opener_mem_controls
        exact ⟨opener, by simp, closer, by simp [hnext], rfl⟩
      · exact (body.bounds_of_mem_nodeTexts hbody hmem).mono (by simp)
      · exact (rest.bounds_of_mem_branchTexts hrest hmem).mono (by simp)

end

mutual

/-- The spans of the nodes of a sequence are nested or apart. -/
theorem Sequence.laminar_nodeTexts : (sequence : Sequence) → sequence.Linked →
    Control.Ascending sequence.controls → sequence.nodeTexts.Pairwise Span.Laminar
  | .nil, _, _ => .nil
  | .cons first rest, ⟨hfirst, hrest⟩, hascending => by
      obtain ⟨hfront, hback, hapart⟩ := List.pairwise_append.mp hascending
      have hlater : ∀ control ∈ first.controls, ∀ later ∈ rest.controls,
          control.span.first ≤ later.span.first :=
        fun control hcontrol later hlater => Int.le_of_lt (hapart control hcontrol later hlater).1
      rw [Sequence.nodeTexts, List.pairwise_cons, List.pairwise_append]
      refine ⟨?_, first.laminar_branchTexts hfirst hfront, rest.laminar_nodeTexts hrest hback, ?_⟩
      · intro span hmem
        obtain hmem | hmem := List.mem_append.mp hmem
        · have hbounds := first.bounds_of_mem_branchTexts hfirst hmem
          exact .inl (hbounds.contains (Conditional.within_text hfront))
        · have hbounds := rest.bounds_of_mem_nodeTexts hrest hmem
          exact .of_lt (first.bounds_text.lt hbounds hlater)
      · intro span hspan other hother
        have hinside := first.bounds_of_mem_branchTexts hfirst hspan
        exact .of_lt (hinside.lt (rest.bounds_of_mem_nodeTexts hrest hother) hlater)

theorem Conditional.laminar_branchTexts : (conditional : Conditional) → conditional.Linked →
    Control.Ascending conditional.controls → conditional.branchTexts.Pairwise Span.Laminar
  | .last opener closer body, hlinked, hascending => by
      obtain ⟨hordered, _⟩ := Conditional.branch_ordered _ hlinked hascending List.mem_cons_self
      have hnodes := body.laminar_nodeTexts hlinked hordered.ascending
      refine List.pairwise_cons.mpr ⟨fun span hmem => ?_, hnodes⟩
      exact .inl ((body.bounds_of_mem_nodeTexts hlinked hmem).contains hordered.within_text)
  | .more opener closer body rest, ⟨hcloser, hlinked, hrest⟩, hascending => by
      obtain ⟨hordered, _⟩ := Conditional.branch_ordered (.more opener closer body rest)
        ⟨hcloser, hlinked, hrest⟩ hascending List.mem_cons_self
      obtain ⟨hbody, hback, hapart⟩ :=
        List.pairwise_append.mp (List.pairwise_cons.mp hascending).2
      rw [Conditional.branchTexts, List.pairwise_cons, List.pairwise_append]
      refine ⟨?_, body.laminar_nodeTexts hlinked hbody, rest.laminar_branchTexts hrest hback, ?_⟩
      · intro span hmem
        obtain hmem | hmem := List.mem_append.mp hmem
        · exact .inl ((body.bounds_of_mem_nodeTexts hlinked hmem).contains hordered.within_text)
        · -- a later branch begins where this one ends, or behind
          obtain ⟨begins, hbegins, _, _, rfl⟩ := rest.bounds_of_mem_branchTexts hrest hmem
          have hopener := Conditional.opener_le_of_mem hback hbegins
          apply Span.Laminar.of_lt
          simp only [Branch.text, hcloser]
          omega
      · intro span hspan other hother
        refine .of_lt ((body.bounds_of_mem_nodeTexts hlinked hspan).lt
          (rest.bounds_of_mem_branchTexts hrest hother) ?_)
        exact fun control hcontrol later hlater =>
          Int.le_of_lt (hapart control hcontrol later hlater).1

end

namespace Sequence

/-- The conditionals of a sequence follow each other, each behind the closing directive of the
one before. -/
def Spread (sequence : Sequence) : Prop :=
  sequence.conditionals.Pairwise fun earlier later =>
    earlier.text.last < later.text.first ∧ earlier.closer.span.last < later.text.first

theorem spread : (sequence : Sequence) → Control.Ascending sequence.controls → sequence.Spread
  | nil, _ => .nil
  | cons first rest, hascending => by
      obtain ⟨_, hback, hapart⟩ := List.pairwise_append.mp hascending
      refine List.pairwise_cons.mpr ⟨?_, rest.spread hback⟩
      intro later hlater
      have hopener : later.opener ∈ rest.controls :=
        (rest.controls_sublist hlater).mem later.opener_mem_controls
      have hbehind := hapart _ first.closer_mem_controls _ hopener
      simp only [Conditional.text]
      omega

/-- A sequence begins with its first directive and goes on up to the last one. -/
theorem within_text : (sequence : Sequence) → Control.Ascending sequence.controls →
    Control.Within sequence.controls sequence.text
  | nil, _ => by
      intro control hcontrol
      simp [controls] at hcontrol
  | cons first nil, hascending => by
      have hcontrols : (cons first nil).controls = first.controls := List.append_nil _
      rw [hcontrols] at hascending ⊢
      exact Conditional.within_text hascending
  | cons first (cons second rest), hascending => by
      obtain ⟨hfront, hback, hapart⟩ := List.pairwise_append.mp hascending
      have htext : (cons first (cons second rest)).text =
          ⟨first.text.first, (cons second rest).text.last⟩ := rfl
      have hlater := (cons second rest).within_text hback
      have hsecond : second.opener ∈ (cons second rest).controls :=
        List.mem_append_left _ second.opener_mem_controls
      intro control hcontrol
      rw [htext]
      obtain hcontrol | hcontrol := List.mem_append.mp hcontrol
      · have hfirst := (Conditional.within_text hfront control hcontrol).1
        have hbefore := (hapart control hcontrol _ hsecond).1
        have hreach := (hlater _ hsecond).2
        refine ⟨hfirst, ?_⟩
        simp only
        omega
      · have hbehind := (hapart _ first.opener_mem_controls _ hcontrol).1
        exact ⟨Int.le_of_lt hbehind, (hlater control hcontrol).2⟩

/-- A conditional and its branches are among the nodes of its sequence. -/
theorem mem_nodeTexts_of_conditional : (sequence : Sequence) → {conditional : Conditional} →
    conditional ∈ sequence.conditionals →
    conditional.text ∈ sequence.nodeTexts ∧ conditional.branchTexts ⊆ sequence.nodeTexts
  | nil, conditional, hmem => by simp [conditionals] at hmem
  | cons first rest, conditional, hmem => by
      rw [nodeTexts]
      obtain rfl | hmem := List.mem_cons.mp hmem
      · exact ⟨List.mem_cons_self,
          List.subset_cons_of_subset _ (List.subset_append_left _ _)⟩
      · obtain ⟨htext, hbranches⟩ := rest.mem_nodeTexts_of_conditional hmem
        have hrest : rest.nodeTexts ⊆ first.text :: (first.branchTexts ++ rest.nodeTexts) :=
          List.subset_cons_of_subset _ (List.subset_append_right _ _)
        exact ⟨hrest htext, fun _ hspan => hrest (hbranches hspan)⟩

end Sequence

namespace Conditional

/-- A branch and all that it holds are among the nodes of its conditional. -/
theorem mem_branchTexts_of_branch : (conditional : Conditional) → {branch : Branch} →
    branch ∈ conditional.branches →
    branch.text ∈ conditional.branchTexts ∧ branch.body.nodeTexts ⊆ conditional.branchTexts
  | .last _ _ _, branch, hmem => by
      obtain rfl := List.mem_singleton.mp hmem
      exact ⟨List.mem_cons_self, List.subset_cons_self _ _⟩
  | .more opener closer body rest, branch, hmem => by
      rw [branchTexts]
      obtain rfl | hmem := List.mem_cons.mp hmem
      · exact ⟨List.mem_cons_self,
          List.subset_cons_of_subset _ (List.subset_append_left _ _)⟩
      · obtain ⟨htext, hbody⟩ := rest.mem_branchTexts_of_branch hmem
        have hrest : rest.branchTexts ⊆ Branch.text ⟨opener, closer, body⟩ ::
            (body.nodeTexts ++ rest.branchTexts) :=
          List.subset_cons_of_subset _ (List.subset_append_right _ _)
        exact ⟨hrest htext, fun _ hspan => hrest (hbody hspan)⟩

end Conditional

namespace Sequence

/-- The span of a node: of the sequence as a whole, or of a conditional at any depth, or of one
of its branches. -/
inductive NodeText (tree : Sequence) : Span → Prop where
  | whole : NodeText tree tree.text
  | conditional {conditional : Conditional} (hhas : tree.Has conditional) :
      NodeText tree conditional.text
  | branch {conditional : Conditional} {branch : Branch} (hhas : tree.Has conditional)
      (hbranch : branch ∈ conditional.branches) : NodeText tree branch.text

theorem Has.mem_nodeTexts {sequence : Sequence} {conditional : Conditional}
    (hhas : sequence.Has conditional) :
    conditional.text ∈ sequence.nodeTexts ∧ conditional.branchTexts ⊆ sequence.nodeTexts := by
  induction hhas with
  | here hmem => exact mem_nodeTexts_of_conditional _ hmem
  | inside houter hbranch _ ih =>
      obtain ⟨_, houterTexts⟩ := mem_nodeTexts_of_conditional _ houter
      obtain ⟨_, hbody⟩ := Conditional.mem_branchTexts_of_branch _ hbranch
      exact ⟨houterTexts (hbody ih.1), fun _ hspan => houterTexts (hbody (ih.2 hspan))⟩

theorem NodeText.eq_or_mem {tree : Sequence} {span : Span} (hnode : tree.NodeText span) :
    span = tree.text ∨ span ∈ tree.nodeTexts := by
  cases hnode with
  | whole => exact .inl rfl
  | conditional hhas => exact .inr hhas.mem_nodeTexts.1
  | branch hhas hbranch =>
      exact .inr (hhas.mem_nodeTexts.2 (Conditional.mem_branchTexts_of_branch _ hbranch).1)

/-- The spans of any two nodes are nested or apart. -/
theorem NodeText.laminar {tree : Sequence} (hlinked : tree.Linked)
    (hascending : Control.Ascending tree.controls) {span other : Span}
    (hspan : tree.NodeText span) (hother : tree.NodeText other) : span.Laminar other := by
  have hwhole : ∀ inner ∈ tree.nodeTexts, tree.text.contains inner = true := fun inner hinner =>
    (tree.bounds_of_mem_nodeTexts hlinked hinner).contains (tree.within_text hascending)
  obtain rfl | hspan := hspan.eq_or_mem
  · obtain rfl | hother := hother.eq_or_mem
    · exact .refl _
    · exact .inl (hwhole other hother)
  · obtain rfl | hother := hother.eq_or_mem
    · exact .inr (.inl (hwhole span hspan))
    · exact List.Pairwise.forall_of_forall (fun inner _ => Span.Laminar.refl inner)
        (tree.laminar_nodeTexts hlinked hascending) hspan hother

end Sequence

namespace Conditional

/-- The spans of a conditional line up with the directives that it was read from. -/
structure Tiled (controls : List Control) (conditional : Conditional) : Prop where
  /-- Every branch holds an offset, and its two directives are among those read. -/
  delimited : ∀ branch ∈ conditional.branches, branch.text.first ≤ branch.text.last ∧
    branch.opener ∈ controls ∧ branch.closer ∈ controls
  /-- A branch begins right behind the one before. -/
  adjacent : conditional.branches.IsChain fun earlier later =>
    earlier.text.last + 1 = later.text.first
  first : conditional.branches.head?.map (·.text.first) = some conditional.text.first
  last : conditional.branches.getLast?.map (·.text.last) = some conditional.text.last
  /-- The branches together are the conditional. -/
  covers : ∀ offset, conditional.text.has offset = true ↔
    ∃ branch ∈ conditional.branches, branch.text.has offset = true
  /-- The conditional ends right in front of the directive that closes it. -/
  ends : conditional.closer ∈ controls ∧ conditional.closer.kind = .closes ∧
    conditional.text.last + 1 = conditional.closer.span.first
  /-- What is nested in a branch, its closing directive included, lies between the
  directives around the branch. -/
  nested : ∀ branch ∈ conditional.branches, ∀ inner, branch.body.Has inner →
    branch.opener.span.last < inner.text.first ∧
      inner.closer.span.last < branch.closer.span.first
  siblings : ∀ branch ∈ conditional.branches, branch.body.Spread

theorem tiled {conditional : Conditional} {controls : List Control}
    (hlinked : conditional.Linked) (hspelled : conditional.Spelled .opens)
    (hascending : Control.Ascending conditional.controls)
    (hsubset : conditional.controls ⊆ controls) : conditional.Tiled controls where
  delimited := by
    intro branch hbranch
    have hopens := (conditional.branch_ordered hlinked hascending hbranch).1.opens
    obtain ⟨hopener, hcloser⟩ := conditional.branch_controls hlinked hbranch
    refine ⟨?_, hsubset hopener, hsubset hcloser⟩
    simp only [Branch.text]
    omega
  adjacent := by
    refine (conditional.isChain_branches hlinked hspelled).imp ?_
    rintro earlier later ⟨hopener, _⟩
    simp only [Branch.text, hopener]
    omega
  first := by
    have hhead := congrArg (Option.map (·.span.first)) conditional.head?_branches
    rwa [Option.map_map] at hhead
  last := by
    have hlast := congrArg (Option.map (·.span.first - 1)) conditional.getLast?_branches
    rwa [Option.map_map] at hlast
  covers := conditional.has_text_iff hlinked hascending
  ends := ⟨hsubset conditional.closer_mem_controls, hspelled.kind_closer, by simp [text]⟩
  nested := by
    intro branch hbranch inner hinner
    have hsublist := conditional.controls_branch_sublist hlinked hbranch
    obtain ⟨hopener, hinside⟩ := List.pairwise_cons.mp (hascending.sublist hsublist)
    obtain ⟨_, _, hcloser⟩ := List.pairwise_append.mp hinside
    have hbegins := hinner.controls_sublist.mem inner.opener_mem_controls
    have hends := hinner.controls_sublist.mem inner.closer_mem_controls
    exact ⟨(hopener _ (List.mem_append_left _ hbegins)).2, (hcloser _ hends _ (by simp)).2⟩
  siblings := fun branch hbranch =>
    branch.body.spread (conditional.branch_ordered hlinked hascending hbranch).1.ascending

end Conditional

/-- Well nested directives, in order and apart, form conditionals that list them again. The
conditionals at the top follow each other, every conditional at any depth is tiled by its
branches, and the spans of any two nodes are nested or share no offset. -/
theorem branches_tile_and_nest {controls : List Control}
    (hderives : ControlKind.Derives .sequence (controls.map (·.kind)))
    (hascending : Control.Ascending controls) :
    ∃ tree, Sequence.ofControls controls = .ok tree ∧ tree.controls = controls ∧
      tree.Spread ∧ (∀ conditional, tree.Has conditional → conditional.Tiled controls) ∧
      ∀ span other, tree.NodeText span → tree.NodeText other → span.Laminar other := by
  obtain ⟨tree, hread⟩ := (Sequence.exists_ofControls_iff controls).mpr hderives
  have hcontrols := Sequence.controls_ofControls hread
  have hlinked := Sequence.linked_ofControls hread
  have hspelled := Sequence.spelled_ofControls hread
  subst hcontrols
  refine ⟨tree, hread, rfl, tree.spread hascending, ?_, ?_⟩
  · intro conditional hhas
    have hsublist := hhas.controls_sublist
    exact Conditional.tiled (hhas.linked hlinked) (hhas.spelled hspelled)
      (hascending.sublist hsublist) hsublist.subset
  · intro span other hspan hother
    exact hspan.laminar hlinked hascending hother

/-- A conditional of three branches with a conditional in the second, and one more behind it:
the branches of the first one are edge to edge, and the inner conditional ends with its closing
directive in front of the directive that divides. -/
theorem branches_tile_and_nest_inner_conditional :
    let controls : List Control :=
      [⟨0, .opens, ⟨0, 5⟩⟩, ⟨1, .divides, ⟨8, 15⟩⟩, ⟨2, .opens, ⟨16, 21⟩⟩,
        ⟨3, .closes, ⟨24, 30⟩⟩, ⟨4, .divides, ⟨31, 36⟩⟩, ⟨5, .closes, ⟨39, 45⟩⟩,
        ⟨6, .opens, ⟨46, 51⟩⟩, ⟨7, .closes, ⟨60, 66⟩⟩]
    ControlKind.Derives .sequence (controls.map (·.kind)) ∧ Control.Ascending controls ∧
      ∃ tree, Sequence.ofControls controls = .ok tree ∧ tree.text = ⟨0, 59⟩ ∧
        tree.nodeTexts =
          [⟨0, 38⟩, ⟨0, 7⟩, ⟨8, 30⟩, ⟨16, 23⟩, ⟨16, 23⟩, ⟨31, 38⟩, ⟨46, 59⟩, ⟨46, 59⟩] ∧
        tree.Spread ∧ (∀ conditional, tree.Has conditional → conditional.Tiled controls) ∧
        ∀ span other, tree.NodeText span → tree.NodeText other → span.Laminar other := by
  intro controls
  have hderives : ControlKind.Derives .sequence (controls.map (·.kind)) :=
    (Sequence.exists_ofControls_iff controls).mp ⟨_, rfl⟩
  have hascending : Control.Ascending controls := by
    simp [controls, Control.Ascending]
  obtain ⟨tree, hread, _, hspread, htiled, hlaminar⟩ := branches_tile_and_nest hderives hascending
  refine ⟨hderives, hascending, tree, hread, ?_, ?_, hspread, htiled, hlaminar⟩
  · obtain rfl := Except.ok.inj hread
    rfl
  · obtain rfl := Except.ok.inj hread
    rfl

end CDelta

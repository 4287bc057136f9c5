import CDelta.Proofs.Conditional.Tiling

/-! # What a choice leaves out

A choice never fails, whatever number it is. The spans that it leaves out share no offset, and
an offset lies in one of them exactly when some conditional, at any depth and even inside of a
branch that is left out itself, holds the offset in a branch other than the one that the digit
of its depth stands for.
-/

namespace CDelta

namespace Span

theorem Apart.of_contains {span other inner : Span} (hapart : span.Apart other)
    (hcontains : other.contains inner = true) : span.Apart inner := by
  intro offset hspan hinner
  apply hapart offset hspan
  simp only [contains, Bool.and_eq_true, decide_eq_true_eq] at hcontains
  rw [has_iff] at hinner ⊢
  omega

end Span

namespace Conditional

/-- The branch at a position holds an offset. -/
def HoldsAt (conditional : Conditional) (index : Nat) (offset : Int) : Prop :=
  ∃ branch, conditional.branches[index]? = some branch ∧ branch.text.has offset = true

variable {conditional : Conditional}

theorem apart_branches (hlinked : conditional.Linked)
    (hascending : Control.Ascending conditional.controls) {index other : Nat}
    {branch later : Branch} (hbranch : conditional.branches[index]? = some branch)
    (hlater : conditional.branches[other]? = some later) (hne : index ≠ other) :
    branch.text.Apart later.text := by
  obtain ⟨hindex, rfl⟩ := List.getElem?_eq_some_iff.mp hbranch
  obtain ⟨hother, rfl⟩ := List.getElem?_eq_some_iff.mp hlater
  have hpairs := List.pairwise_iff_getElem.mp (conditional.pairwise_branches hlinked hascending)
  obtain hlt | hlt := Nat.lt_or_gt_of_ne hne
  · exact Span.apart_of_lt (hpairs index other hindex hother hlt)
  · exact (Span.apart_of_lt (hpairs other index hother hindex hlt)).symm

/-- An offset of a conditional lies in one of its branches and in no other. -/
theorem existsUnique_holdsAt (hlinked : conditional.Linked)
    (hascending : Control.Ascending conditional.controls) {offset : Int}
    (hhas : conditional.text.has offset = true) :
    ∃! index, conditional.HoldsAt index offset := by
  obtain ⟨branch, hmem, hholds⟩ := (conditional.has_text_iff hlinked hascending offset).mp hhas
  obtain ⟨index, hbranch⟩ := List.mem_iff_getElem?.mp hmem
  refine ⟨index, ⟨branch, hbranch, hholds⟩, ?_⟩
  rintro other ⟨later, hlater, hother⟩
  by_contra hne
  exact apart_branches hlinked hascending hlater hbranch hne offset hother hholds

theorem HoldsAt.has_text (hlinked : conditional.Linked)
    (hascending : Control.Ascending conditional.controls) {index : Nat} {offset : Int}
    (hholds : conditional.HoldsAt index offset) : conditional.text.has offset = true := by
  obtain ⟨branch, hbranch, hhas⟩ := hholds
  exact (conditional.has_text_iff hlinked hascending offset).mpr
    ⟨branch, List.mem_of_getElem? hbranch, hhas⟩

/-- The branch that a digit leads into is the one it stands for. -/
theorem position_eq_chosen {digit : Int} (hdigit : 0 ≤ digit) {position : Nat}
    (hposition : conditional.position? digit = some position) :
    (position : Int) = conditional.chosen digit := by
  obtain ⟨found, hfound, _, hchosen⟩ := conditional.position?_of_nonneg hdigit
  obtain rfl := Option.some.inj (hfound.symm.trans hposition)
  exact hchosen

/-- A digit leaves an offset of its conditional out exactly when the branch that holds the
offset is not the one that the digit stands for. -/
theorem others_has_iff {digit offset : Int} :
    (∃ span ∈ conditional.others digit, span.has offset = true) ↔
      ∃ index, conditional.HoldsAt index offset ∧
        (index : Int) ≠ min digit ((conditional.width : Int) - 1) := by
  constructor
  · rintro ⟨span, hspan, hhas⟩
    obtain ⟨index, branch, hbranch, hindex, rfl⟩ := mem_others hspan
    exact ⟨index, ⟨branch, hbranch, hhas⟩, hindex⟩
  · rintro ⟨index, ⟨branch, hbranch, hhas⟩, hindex⟩
    refine ⟨branch.text, ?_, hhas⟩
    refine List.mem_map.mpr ⟨(branch, index), List.mem_filter.mpr ⟨?_, ?_⟩, rfl⟩
    · exact List.mk_mem_zipIdx_iff_getElem?.mpr hbranch
    · exact decide_eq_true hindex

/-- The branches that a digit leaves out share no offset. -/
theorem pairwise_others (hlinked : conditional.Linked)
    (hascending : Control.Ascending conditional.controls) (digit : Int) :
    (conditional.others digit).Pairwise Span.Apart := by
  have hbranches := conditional.pairwise_branches hlinked hascending
  rw [← List.zipIdx_map_fst 0 conditional.branches, List.pairwise_map] at hbranches
  apply List.pairwise_map.mpr
  exact (hbranches.filter _).imp Span.apart_of_lt

end Conditional

namespace Sequence

/-- The conditional stands in the sequence, inside of as many others as `depth` says. -/
inductive HasAt : Sequence → Nat → Conditional → Prop where
  | here {sequence : Sequence} {conditional : Conditional}
      (hmem : conditional ∈ sequence.conditionals) : HasAt sequence 0 conditional
  | inside {sequence : Sequence} {outer conditional : Conditional} {branch : Branch}
      {depth : Nat} (houter : outer ∈ sequence.conditionals)
      (hbranch : branch ∈ outer.branches) (hinside : HasAt branch.body depth conditional) :
      HasAt sequence (depth + 1) conditional

namespace HasAt

variable {sequence : Sequence} {conditional : Conditional} {depth : Nat}

theorem has (hhas : sequence.HasAt depth conditional) : sequence.Has conditional := by
  induction hhas with
  | here hmem => exact .here hmem
  | inside houter hbranch _ ih => exact .inside houter hbranch ih

theorem behind {first : Conditional} (hhas : sequence.HasAt depth conditional) :
    (cons first sequence).HasAt depth conditional := by
  cases hhas with
  | here hmem => exact .here (List.mem_cons_of_mem _ hmem)
  | inside houter hbranch hinside =>
      exact .inside (List.mem_cons_of_mem _ houter) hbranch hinside

/-- A conditional of a sequence is the first one, or inside of it, or behind it. -/
theorem cases_cons {first : Conditional} (hhas : (cons first sequence).HasAt depth conditional) :
    (depth = 0 ∧ conditional = first) ∨
      (∃ inner branch, depth = inner + 1 ∧ branch ∈ first.branches ∧
        branch.body.HasAt inner conditional) ∨
      sequence.HasAt depth conditional := by
  cases hhas with
  | here hmem =>
      obtain rfl | hmem := List.mem_cons.mp hmem
      · exact .inl ⟨rfl, rfl⟩
      · exact .inr (.inr (.here hmem))
  | inside houter hbranch hinside =>
      obtain rfl | houter := List.mem_cons.mp houter
      · exact .inr (.inl ⟨_, _, rfl, hbranch, hinside⟩)
      · exact .inr (.inr (.inside houter hbranch hinside))

end HasAt

end Sequence

/-- The conditionals inside of a branch are nested less deep than all of the conditional. -/
theorem Conditional.depth_body_le : (conditional : Conditional) → {branch : Branch} →
    branch ∈ conditional.branches → branch.body.depth ≤ conditional.innerDepth
  | .last _ _ _, branch, hmem => by
      obtain rfl := List.mem_singleton.mp hmem
      exact Nat.le_refl _
  | .more _ _ _ rest, branch, hmem => by
      rw [innerDepth]
      obtain rfl | hmem := List.mem_cons.mp hmem
      · exact Nat.le_max_left _ _
      · exact Nat.le_trans (rest.depth_body_le hmem) (Nat.le_max_right _ _)

namespace Sequence

theorem innerDepth_lt_depth : (sequence : Sequence) → {conditional : Conditional} →
    conditional ∈ sequence.conditionals → conditional.innerDepth < sequence.depth
  | nil, conditional, hmem => by simp [conditionals] at hmem
  | cons first rest, conditional, hmem => by
      rw [depth]
      obtain rfl | hmem := List.mem_cons.mp hmem
      · exact Nat.le_max_left _ _
      · exact Nat.lt_of_lt_of_le (rest.innerDepth_lt_depth hmem) (Nat.le_max_right _ _)

/-- There is a digit for each depth at which a conditional stands. -/
theorem HasAt.lt_depth {sequence : Sequence} {conditional : Conditional} {depth : Nat}
    (hhas : sequence.HasAt depth conditional) : depth < sequence.depth := by
  induction hhas with
  | here hmem => exact Nat.zero_lt_of_lt (innerDepth_lt_depth _ hmem)
  | inside houter hbranch _ ih =>
      have hbody := Conditional.depth_body_le _ hbranch
      have houter := innerDepth_lt_depth _ houter
      omega

/-- An offset of a conditional inside of a branch is one of the branch. -/
theorem HasAt.has_branch {branch : Branch} (hordered : branch.Ordered)
    {conditional : Conditional} {depth : Nat} (hhas : branch.body.HasAt depth conditional)
    {offset : Int} (hoffset : conditional.text.has offset = true) :
    branch.text.has offset = true := by
  have hbounds := conditional.bounds_text.mono hhas.has.controls_sublist.subset
  have hcontains := hbounds.contains hordered.within_text
  simp only [Span.contains, Bool.and_eq_true, decide_eq_true_eq] at hcontains
  rw [Span.has_iff] at hoffset ⊢
  omega

/-- Some conditional holds the offset in a branch other than the one at the position that the
digit of its depth gives, which is the last when there are too few. -/
def Drops (sequence : Sequence) (digits : List Int) (offset : Int) : Prop :=
  ∃ depth conditional digit index, sequence.HasAt depth conditional ∧
    digits[depth]? = some digit ∧ conditional.text.has offset = true ∧
    conditional.HoldsAt index offset ∧
    (index : Int) ≠ min digit ((conditional.width : Int) - 1)

namespace Selects

variable {digits : List Int} {sequence : Sequence} {spans : List Span}

/-- What the walk leaves out shares no offset. -/
theorem pairwise_apart (hselects : sequence.Selects digits spans) (hlinked : sequence.Linked)
    (hascending : Control.Ascending sequence.controls) (hdigits : ∀ digit ∈ digits, 0 ≤ digit) :
    spans.Pairwise Span.Apart := by
  induction hselects with
  | nil => exact .nil
  | @cons digit deeper first rest position branch inner more hposition hbranch hinner hmore
      ihinner ihmore =>
      obtain ⟨hfirst, hrest⟩ := hlinked
      obtain ⟨hfront, hback, hapart⟩ := List.pairwise_append.mp hascending
      obtain ⟨hdigit, hdeeper⟩ := List.forall_mem_cons.mp hdigits
      have hpicked := List.mem_of_getElem? hbranch
      have hordered := (first.branch_ordered hfirst hfront hpicked).1
      have hwithin : ∀ span ∈ inner, branch.text.contains span = true := fun span hspan =>
        Control.Bounds.contains (hinner.mem hordered.linked hspan) hordered.within_text
      refine List.pairwise_append.mpr ⟨List.pairwise_append.mpr ⟨?_, ?_, ?_⟩, ?_, ?_⟩
      · exact Conditional.pairwise_others hfirst hfront digit
      · exact ihinner hordered.linked hordered.ascending hdeeper
      · -- what is left out deeper lies in the one branch that is kept here
        intro span hspan other hother
        obtain ⟨index, left, hleft, hindex, rfl⟩ := Conditional.mem_others hspan
        have hne : index ≠ position := by
          rintro rfl
          exact hindex (Conditional.position_eq_chosen hdigit hposition)
        exact (Conditional.apart_branches hfirst hfront hleft hbranch hne).of_contains
          (hwithin other hother)
      · exact ihmore hrest hback hdigits
      · intro span hspan other hother
        have hbounds : Control.Bounds first.controls span := by
          obtain hspan | hspan := List.mem_append.mp hspan
          · obtain ⟨index, left, hleft, _, rfl⟩ := Conditional.mem_others hspan
            obtain ⟨hopener, hcloser⟩ :=
              first.branch_controls hfirst (List.mem_of_getElem? hleft)
            exact ⟨_, hopener, _, hcloser, rfl⟩
          · exact Control.Bounds.mono (hinner.mem hordered.linked hspan)
              (first.controls_body_sublist hpicked).subset
        apply Span.apart_of_lt
        apply hbounds.lt (hmore.mem hrest hother)
        exact fun control hcontrol later hlater =>
          Int.le_of_lt (hapart control hcontrol later hlater).1

/-- What the walk leaves out is what some conditional drops. -/
theorem drops_of_has (hselects : sequence.Selects digits spans) (hlinked : sequence.Linked)
    (hascending : Control.Ascending sequence.controls) {span : Span} (hspan : span ∈ spans)
    {offset : Int} (hoffset : span.has offset = true) : sequence.Drops digits offset := by
  induction hselects with
  | nil => simp at hspan
  | @cons digit deeper first rest position branch inner more _ hbranch _ _ ihinner ihmore =>
      obtain ⟨hfirst, hrest⟩ := hlinked
      obtain ⟨hfront, hback, _⟩ := List.pairwise_append.mp hascending
      simp only [List.mem_append] at hspan
      obtain (hspan | hspan) | hspan := hspan
      · obtain ⟨index, hholds, hindex⟩ := Conditional.others_has_iff.mp ⟨span, hspan, hoffset⟩
        exact ⟨0, first, digit, index, .here List.mem_cons_self, rfl,
          hholds.has_text hfirst hfront, hholds, hindex⟩
      · have hpicked := List.mem_of_getElem? hbranch
        have hordered := (first.branch_ordered hfirst hfront hpicked).1
        obtain ⟨depth, conditional, found, index, hhas, hfound, hdropped⟩ :=
          ihinner hordered.linked hordered.ascending hspan
        exact ⟨depth + 1, conditional, found, index, .inside List.mem_cons_self hpicked hhas,
          hfound, hdropped⟩
      · obtain ⟨depth, conditional, found, index, hhas, hdropped⟩ := ihmore hrest hback hspan
        exact ⟨depth, conditional, found, index, hhas.behind, hdropped⟩

/-- What some conditional drops is left out by the walk, if only with a branch around it. -/
theorem has_of_drops (hselects : sequence.Selects digits spans) (hlinked : sequence.Linked)
    (hascending : Control.Ascending sequence.controls) (hdigits : ∀ digit ∈ digits, 0 ≤ digit)
    {offset : Int} (hdrops : sequence.Drops digits offset) :
    ∃ span ∈ spans, span.has offset = true := by
  induction hselects with
  | nil =>
      obtain ⟨_, _, _, _, hhas, _⟩ := hdrops
      exact absurd hhas.lt_depth (by simp [depth])
  | @cons digit deeper first rest position branch inner more hposition hbranch hinner hmore
      ihinner ihmore =>
      obtain ⟨hfirst, hrest⟩ := hlinked
      obtain ⟨hfront, hback, _⟩ := List.pairwise_append.mp hascending
      obtain ⟨hdigit, hdeeper⟩ := List.forall_mem_cons.mp hdigits
      obtain ⟨depth, conditional, found, index, hhas, hfound, htext, hholds, hindex⟩ := hdrops
      simp only [List.mem_append, or_and_right, exists_or]
      obtain ⟨rfl, rfl⟩ | ⟨depth, around, rfl, haround, hinside⟩ | hbehind := hhas.cases_cons
      · obtain rfl := Option.some.inj hfound
        exact .inl (.inl (Conditional.others_has_iff.mpr ⟨index, hholds, hindex⟩))
      · -- the branch around the conditional is kept, or it is left out as a whole
        have hordered := (first.branch_ordered hfirst hfront haround).1
        obtain ⟨other, hother⟩ := List.mem_iff_getElem?.mp haround
        by_cases hsame : other = position
        · obtain rfl : around = branch := by
            rw [hsame, hbranch] at hother
            exact (Option.some.inj hother).symm
          exact .inl (.inr (ihinner hordered.linked hordered.ascending hdeeper
            ⟨depth, conditional, found, index, hinside, hfound, htext, hholds, hindex⟩))
        · have hleft : (other : Int) ≠ first.chosen digit := by
            rw [← Conditional.position_eq_chosen hdigit hposition]
            exact_mod_cast hsame
          exact .inl (.inl (Conditional.others_has_iff.mpr
            ⟨other, ⟨around, hother, hinside.has_branch hordered htext⟩, hleft⟩))
      · exact .inr (ihmore hrest hback hdigits
          ⟨depth, conditional, found, index, hbehind, hfound, htext, hholds, hindex⟩)

end Selects

end Sequence

/-- Conditionals read from directives that are in order and apart can be walked with the digits
of every choice, also of one below zero or past the last. Each conditional has a digit for its
depth and each of its offsets lies in one branch. The spans that the choice leaves out share no
offset, and they hold exactly the offsets that some conditional drops. -/
theorem selection_keeps_one_branch {controls : List Control} {tree : Sequence}
    (hread : Sequence.ofControls controls = .ok tree) (hascending : Control.Ascending controls)
    (choice : Int) :
    ∃ digits spans,
      Shape.digitsIn? tree.shape.width tree.shape.depth choice = some digits ∧
      tree.unselected? digits = some spans ∧ tree.unselected choice = spans ∧
      (∀ depth conditional, tree.HasAt depth conditional →
        (∃ digit, digits[depth]? = some digit ∧ 0 ≤ digit) ∧
          ∀ offset, conditional.text.has offset = true →
            ∃! index, conditional.HoldsAt index offset) ∧
      spans.Pairwise Span.Apart ∧
      ∀ offset, (∃ span ∈ spans, span.has offset = true) ↔ tree.Drops digits offset := by
  obtain rfl := Sequence.controls_ofControls hread
  have hlinked := Sequence.linked_ofControls hread
  have hdigits := tree.digits_nonneg choice
  have hwalk := tree.unselected?_digits choice
  have hselects := tree.selects _ hwalk
  refine ⟨tree.shape.digits choice, tree.unselected choice, tree.digitsIn?_shape choice, hwalk,
    rfl, ?_, hselects.pairwise_apart hlinked hascending hdigits, fun offset => ⟨?_, ?_⟩⟩
  · intro depth conditional hhas
    refine ⟨?_, fun offset => Conditional.existsUnique_holdsAt (hhas.has.linked hlinked)
      (hascending.sublist hhas.has.controls_sublist)⟩
    have hlength : depth < (tree.shape.digits choice).length := by
      rw [Shape.digits, Shape.length_digitsIn]
      exact hhas.lt_depth
    exact ⟨_, List.getElem?_eq_getElem hlength, hdigits _ (List.getElem_mem hlength)⟩
  · rintro ⟨span, hspan, hoffset⟩
    exact hselects.drops_of_has hlinked hascending hspan hoffset
  · exact hselects.has_of_drops hlinked hascending hdigits

/-- A conditional of three branches with one of two branches in the second, and one of a single
branch behind it. The choice below zero has the digits 1 and 0: the outer branch that is kept
loses its own second branch, and the last conditional keeps the only branch it has. -/
theorem selection_keeps_one_branch_below_zero :
    let controls : List Control :=
      [⟨0, .opens, ⟨0, 5⟩⟩, ⟨1, .divides, ⟨8, 15⟩⟩, ⟨2, .opens, ⟨16, 21⟩⟩,
        ⟨3, .divides, ⟨24, 29⟩⟩, ⟨4, .closes, ⟨31, 37⟩⟩, ⟨5, .divides, ⟨38, 43⟩⟩,
        ⟨6, .closes, ⟨46, 52⟩⟩, ⟨7, .opens, ⟨53, 58⟩⟩, ⟨8, .closes, ⟨60, 66⟩⟩]
    Control.Ascending controls ∧
      ∃ tree, Sequence.ofControls controls = .ok tree ∧ tree.shape = ⟨2, 3⟩ ∧
        tree.unselected? [1, 0] = some [⟨0, 7⟩, ⟨38, 45⟩, ⟨24, 30⟩] ∧
        tree.unselected (-6) = [⟨0, 7⟩, ⟨38, 45⟩, ⟨24, 30⟩] ∧
        (tree.unselected (-6)).Pairwise Span.Apart ∧ tree.Drops [1, 0] 27 := by
  intro controls
  have hascending : Control.Ascending controls := by
    simp [controls, Control.Ascending]
  obtain ⟨tree, hread⟩ : ∃ tree, Sequence.ofControls controls = .ok tree := ⟨_, rfl⟩
  obtain ⟨digits, spans, hdigits, hspans, rfl, _, hapart, hcovers⟩ :=
    selection_keeps_one_branch hread hascending (-6)
  have hshape : tree.shape = ⟨2, 3⟩ := by
    obtain rfl := Except.ok.inj hread
    rfl
  obtain rfl : [1, 0] = digits := by
    rw [hshape] at hdigits
    exact Option.some.inj hdigits
  have hwalk : tree.unselected? [1, 0] = some [⟨0, 7⟩, ⟨38, 45⟩, ⟨24, 30⟩] := by
    obtain rfl := Except.ok.inj hread
    decide +kernel
  have hleft := Option.some.inj (hspans.symm.trans hwalk)
  refine ⟨hascending, tree, hread, hshape, hwalk, hleft, hapart, (hcovers 27).mp ?_⟩
  rw [hleft]
  exact ⟨⟨24, 30⟩, by simp, by decide⟩

end CDelta

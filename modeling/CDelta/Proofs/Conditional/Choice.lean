import CDelta.Conditional.Choice
import CDelta.Proofs.Conditional.Reading

/-! # Which choice shows a branch

Directives that ascend in the text put every branch between its own two directives. The
positions of the branches around an offset, one for each level of nesting, spell a choice
under which that offset stays in sight, although all conditionals of a level share one digit
and the radix is that of the widest conditional of the file.
-/

namespace CDelta

namespace Shape

/-- The number that digits spell in a radix, the highest digit first. -/
def valueIn (radix : Int) : List Int → Int
  | [] => 0
  | digit :: rest => digit * radix.pow rest.length + valueIn radix rest

theorem valueIn_bounds {radix : Int} (hradix : 0 < radix) {digits : List Int}
    (hdigits : ∀ digit ∈ digits, 0 ≤ digit ∧ digit < radix) :
    0 ≤ valueIn radix digits ∧ valueIn radix digits < radix.pow digits.length := by
  induction digits with
  | nil => exact ⟨Int.le_refl 0, Int.pow_pos hradix⟩
  | cons digit rest ih =>
      obtain ⟨⟨hlow, hhigh⟩, hrest⟩ := List.forall_mem_cons.mp hdigits
      obtain ⟨hvalue, hbound⟩ := ih hrest
      have hpower : 0 < radix.pow rest.length := Int.pow_pos hradix
      have hproduct : 0 ≤ digit * radix.pow rest.length :=
        Int.mul_nonneg hlow (Int.le_of_lt hpower)
      have htop : (digit + 1) * radix.pow rest.length ≤ radix * radix.pow rest.length :=
        Int.mul_le_mul_of_nonneg_right (by omega) (Int.le_of_lt hpower)
      have hnext : radix.pow (rest.length + 1) = radix * radix.pow rest.length :=
        (Int.pow_succ radix rest.length).trans (Int.mul_comm _ radix)
      rw [Int.add_mul, Int.one_mul] at htop
      rw [valueIn, List.length_cons, hnext]
      omega

/-- Digits do not see multiples of the power above them. -/
theorem digitsIn_add_mul_pow {radix : Int} (hradix : 0 < radix) (count : Nat)
    (choice factor : Int) :
    digitsIn radix count (choice + factor * radix.pow count) = digitsIn radix count choice := by
  induction count generalizing factor with
  | zero => rfl
  | succ count ih =>
      have hpower : radix.pow count ≠ 0 := Int.ne_of_gt (Int.pow_pos hradix)
      have hsplit : factor * radix.pow (count + 1) = factor * radix * radix.pow count := by
        have hnext : radix.pow (count + 1) = radix.pow count * radix := Int.pow_succ radix count
        rw [hnext, Int.mul_comm (radix.pow count), Int.mul_assoc]
      unfold digitsIn
      rw [hsplit, ih, Int.add_mul_fdiv_right _ _ hpower, Int.add_mul_fmod_self_right]

theorem digitsIn_valueIn {radix : Int} (hradix : 0 < radix) {digits : List Int}
    (hdigits : ∀ digit ∈ digits, 0 ≤ digit ∧ digit < radix) :
    digitsIn radix digits.length (valueIn radix digits) = digits := by
  induction digits with
  | nil => rfl
  | cons digit rest ih =>
      obtain ⟨⟨hlow, hhigh⟩, hrest⟩ := List.forall_mem_cons.mp hdigits
      obtain ⟨hvalue, hbound⟩ := valueIn_bounds hradix hrest
      have hpower : radix.pow rest.length ≠ 0 := Int.ne_of_gt (Int.pow_pos hradix)
      have hhead : (valueIn radix (digit :: rest)).fdiv (radix.pow rest.length) = digit := by
        rw [valueIn, Int.add_comm, Int.add_mul_fdiv_right _ _ hpower,
          Int.fdiv_eq_zero_of_lt hvalue hbound, Int.zero_add]
      have htail : digitsIn radix rest.length (valueIn radix (digit :: rest)) = rest := by
        rw [valueIn, Int.add_comm, digitsIn_add_mul_pow hradix, ih hrest]
      rw [List.length_cons, digitsIn, hhead, htail, Int.fmod_eq_of_lt hlow hhigh]

/-- Digits of the right number and size are those of a choice. -/
theorem exists_choice_digits (shape : Shape) (hwidth : 0 < shape.width) {digits : List Int}
    (hlength : digits.length = shape.depth)
    (hdigits : ∀ digit ∈ digits, 0 ≤ digit ∧ digit < shape.width) :
    ∃ choice : Nat, choice < shape.choices ∧ shape.digits choice = digits := by
  have hradix : (0 : Int) < shape.width := by exact_mod_cast hwidth
  obtain ⟨hvalue, hbound⟩ := valueIn_bounds hradix hdigits
  obtain ⟨choice, hchoice⟩ := Int.eq_ofNat_of_zero_le hvalue
  refine ⟨choice, ?_, ?_⟩
  · have hpower : ((shape.choices : Nat) : Int) = (shape.width : Int).pow shape.depth :=
      Int.natCast_pow shape.width shape.depth
    rw [hchoice, hlength, ← hpower] at hbound
    exact_mod_cast hbound
  · rw [Shape.digits, ← hlength]
    exact hchoice ▸ digitsIn_valueIn hradix hdigits

theorem length_digitsIn (radix : Int) (count : Nat) (choice : Int) :
    (digitsIn radix count choice).length = count := by
  induction count with
  | zero => rfl
  | succ count ih => rw [digitsIn, List.length_cons, ih]

theorem digitsIn_bounds {radix : Int} (hradix : 0 < radix) (count : Nat) (choice : Int) :
    ∀ digit ∈ digitsIn radix count choice, 0 ≤ digit ∧ digit < radix := by
  induction count with
  | zero => simp [digitsIn]
  | succ count ih =>
      rw [digitsIn]
      exact List.forall_mem_cons.mpr
        ⟨⟨Int.fmod_nonneg_of_pos _ hradix, Int.fmod_lt_of_pos _ hradix⟩, ih⟩

end Shape

namespace Control

/-- Directives in the order of the text, no two of which share an offset. -/
def Ascending (controls : List Control) : Prop :=
  controls.Pairwise fun earlier later =>
    earlier.span.first < later.span.first ∧ earlier.span.last < later.span.first

end Control

namespace Conditional

theorem width_pos (conditional : Conditional) : 0 < conditional.width := by
  cases conditional <;> simp [width, branches]

theorem opener_mem_controls (conditional : Conditional) :
    conditional.opener ∈ conditional.controls := by
  cases conditional <;> simp [opener, controls]

theorem closer_mem_controls : (conditional : Conditional) →
    conditional.closer ∈ conditional.controls
  | .last opener closer body => by simp [Conditional.closer, controls]
  | .more opener closer body rest => by
      have hrest := rest.closer_mem_controls
      simp [Conditional.closer, controls, hrest]

/-- No directive of a conditional stands in front of the one that opens it. -/
theorem opener_le_of_mem {conditional : Conditional}
    (hascending : Control.Ascending conditional.controls) {control : Control}
    (hmem : control ∈ conditional.controls) :
    conditional.opener.span.first ≤ control.span.first := by
  cases conditional with
  | last opener closer body | more opener closer body rest =>
      rcases List.mem_cons.mp hmem with rfl | hmem
      · exact Int.le_refl _
      · exact Int.le_of_lt ((List.pairwise_cons.mp hascending).1 control hmem).1

/-- No directive of a conditional stands behind the one that closes it. -/
theorem le_closer_of_mem : (conditional : Conditional) →
    Control.Ascending conditional.controls → {control : Control} →
    control ∈ conditional.controls → control.span.first ≤ conditional.closer.span.first
  | .last opener closer body, hascending, control, hmem => by
      have hlast : (opener :: body.controls ++ [closer]).Pairwise fun earlier later =>
        earlier.span.first < later.span.first ∧ earlier.span.last < later.span.first := hascending
      obtain ⟨_, _, hbefore⟩ := List.pairwise_append.mp hlast
      have hsplit : control ∈ opener :: body.controls ++ [closer] := hmem
      rcases List.mem_append.mp hsplit with hmem | hmem
      · exact Int.le_of_lt (hbefore control hmem closer (by simp)).1
      · rw [List.mem_singleton.mp hmem]
        exact Int.le_refl _
  | .more opener closer body rest, hascending, control, hmem => by
      have hmore : (opener :: body.controls ++ rest.controls).Pairwise fun earlier later =>
        earlier.span.first < later.span.first ∧ earlier.span.last < later.span.first := hascending
      obtain ⟨_, hrest, hbefore⟩ := List.pairwise_append.mp hmore
      have hsplit : control ∈ opener :: body.controls ++ rest.controls := hmem
      rcases List.mem_append.mp hsplit with hmem | hmem
      · exact Int.le_of_lt (hbefore control hmem rest.closer rest.closer_mem_controls).1
      · exact rest.le_closer_of_mem hrest hmem

/-- A digit that is not below zero leads into the branch it stands for. -/
theorem position?_of_nonneg (conditional : Conditional) {digit : Int} (hdigit : 0 ≤ digit) :
    ∃ position : Nat, conditional.position? digit = some position ∧
      position < conditional.width ∧ (position : Int) = conditional.chosen digit := by
  have hwidth := conditional.width_pos
  have hchosen : 0 ≤ conditional.chosen digit := by
    unfold chosen
    omega
  refine ⟨(conditional.chosen digit).toNat, ?_, ?_, ?_⟩
  · simp [position?, hchosen]
  · unfold chosen
    omega
  · omega

/-- A span that a digit leaves out belongs to a branch it does not stand for. -/
theorem mem_others {conditional : Conditional} {digit : Int} {span : Span}
    (hmem : span ∈ conditional.others digit) :
    ∃ (index : Nat) (branch : Branch), conditional.branches[index]? = some branch ∧
      (index : Int) ≠ conditional.chosen digit ∧ span = branch.text := by
  simp only [others, List.mem_map, List.mem_filter, decide_eq_true_eq] at hmem
  obtain ⟨⟨branch, index⟩, ⟨hbranch, hindex⟩, rfl⟩ := hmem
  exact ⟨index, branch, List.mk_mem_zipIdx_iff_getElem?.mp hbranch, hindex, rfl⟩

/-- A branch begins and ends at directives of its conditional. -/
theorem branch_controls : (conditional : Conditional) → conditional.Linked →
    {branch : Branch} → branch ∈ conditional.branches →
    branch.opener ∈ conditional.controls ∧ branch.closer ∈ conditional.controls
  | .last opener closer body, _, branch, hmem => by
      obtain rfl := List.mem_singleton.mp hmem
      simp [controls]
  | .more opener closer body rest, hlinked, branch, hmem => by
      obtain ⟨hcloser, _, hrest⟩ := hlinked
      rcases List.mem_cons.mp hmem with rfl | hmem
      · have hopener := rest.opener_mem_controls
        simp [controls, hcloser, hopener]
      · obtain ⟨hbegin, hend⟩ := rest.branch_controls hrest hmem
        simp [controls, hbegin, hend]

end Conditional

mutual

/-- Digits for every level of nesting always lead to an answer. -/
theorem Sequence.exists_unselected : (sequence : Sequence) → (digits : List Int) →
    sequence.depth ≤ digits.length → (∀ digit ∈ digits, 0 ≤ digit) →
    ∃ spans, sequence.unselected? digits = some spans
  | .nil, _, _, _ => ⟨[], by simp [Sequence.unselected?]⟩
  | .cons first rest, [], hdepth, _ => by
      simp [Sequence.depth] at hdepth
  | .cons first rest, digit :: deeper, hdepth, hdigits => by
      simp only [Sequence.depth, List.length_cons] at hdepth
      obtain ⟨hdigit, hdeeper⟩ := List.forall_mem_cons.mp hdigits
      obtain ⟨position, hposition, hlt, _⟩ := first.position?_of_nonneg hdigit
      obtain ⟨inner, hinner⟩ := first.exists_unselectedIn hlt deeper (by omega) hdeeper
      obtain ⟨more, hmore⟩ := rest.exists_unselected (digit :: deeper)
        (by simp only [List.length_cons]; omega) hdigits
      exact ⟨first.others digit ++ inner ++ more, by
        simp [Sequence.unselected?, hposition, hinner, hmore]⟩

theorem Conditional.exists_unselectedIn : (conditional : Conditional) → {position : Nat} →
    position < conditional.width → (digits : List Int) →
    conditional.innerDepth ≤ digits.length → (∀ digit ∈ digits, 0 ≤ digit) →
    ∃ spans, conditional.unselectedIn? position digits = some spans
  | .last opener closer body, 0, _, digits, hdepth, hdigits => by
      simpa [Conditional.unselectedIn?] using body.exists_unselected digits hdepth hdigits
  | .last opener closer body, position + 1, hposition, _, _, _ => by
      simp [Conditional.width, Conditional.branches] at hposition
  | .more opener closer body rest, 0, _, digits, hdepth, hdigits => by
      simp only [Conditional.innerDepth] at hdepth
      have hbody := body.exists_unselected digits (by omega) hdigits
      simpa [Conditional.unselectedIn?] using hbody
  | .more opener closer body rest, position + 1, hposition, digits, hdepth, hdigits => by
      simp only [Conditional.innerDepth] at hdepth
      have hlt : position < rest.width := by
        simpa [Conditional.width, Conditional.branches] using hposition
      have hrest := rest.exists_unselectedIn hlt digits (by omega) hdigits
      simpa [Conditional.unselectedIn?] using hrest

end

namespace Sequence

/-- The walk of digits over a sequence. At each conditional the branches that the digit of the
level does not stand for are left out, and the walk goes on inside of the one it leads into. -/
inductive Selects : List Int → Sequence → List Span → Prop where
  | nil (digits : List Int) : Selects digits .nil []
  | cons {digit : Int} {deeper : List Int} {first : Conditional} {rest : Sequence}
      {position : Nat} {branch : Branch} {inner more : List Span}
      (hposition : first.position? digit = some position)
      (hbranch : first.branches[position]? = some branch)
      (hinner : Selects deeper branch.body inner)
      (hmore : Selects (digit :: deeper) rest more) :
      Selects (digit :: deeper) (.cons first rest) (first.others digit ++ inner ++ more)

end Sequence

mutual

theorem Sequence.selects : (sequence : Sequence) → (digits : List Int) → {spans : List Span} →
    sequence.unselected? digits = some spans → sequence.Selects digits spans
  | .nil, digits, spans, hspans => by
      obtain rfl : [] = spans := by simpa [Sequence.unselected?] using hspans
      exact .nil digits
  | .cons first rest, [], spans, hspans => by
      simp [Sequence.unselected?] at hspans
  | .cons first rest, digit :: deeper, spans, hspans => by
      simp only [Sequence.unselected?] at hspans
      split at hspans
      next => simp at hspans
      next position hposition =>
        split at hspans
        next inner more hinner hmore =>
          obtain rfl := Option.some.inj hspans
          obtain ⟨branch, hbranch, hbody⟩ := first.exists_selects position deeper hinner
          exact .cons hposition hbranch hbody (rest.selects _ hmore)
        next => simp at hspans

/-- What is left out inside of the branch at a position is what the walk over that branch
leaves out. -/
theorem Conditional.exists_selects : (conditional : Conditional) → (position : Nat) →
    (digits : List Int) → {spans : List Span} →
    conditional.unselectedIn? position digits = some spans →
    ∃ branch, conditional.branches[position]? = some branch ∧ branch.body.Selects digits spans
  | .last opener closer body, 0, digits, spans, hspans => by
      simp only [Conditional.unselectedIn?] at hspans
      exact ⟨⟨opener, closer, body⟩, rfl, body.selects digits hspans⟩
  | .last opener closer body, position + 1, digits, spans, hspans => by
      simp [Conditional.unselectedIn?] at hspans
  | .more opener closer body rest, 0, digits, spans, hspans => by
      simp only [Conditional.unselectedIn?] at hspans
      exact ⟨⟨opener, closer, body⟩, rfl, body.selects digits hspans⟩
  | .more opener closer body rest, position + 1, digits, spans, hspans => by
      simp only [Conditional.unselectedIn?] at hspans
      obtain ⟨branch, hbranch, hbody⟩ := rest.exists_selects position digits hspans
      exact ⟨branch, by simpa [Conditional.branches] using hbranch, hbody⟩

end

namespace Sequence

/-- What the walk leaves out begins at a directive and ends in front of one. -/
theorem Selects.mem {digits : List Int} {sequence : Sequence} {spans : List Span}
    (hselects : sequence.Selects digits spans) (hlinked : sequence.Linked) {span : Span}
    (hmem : span ∈ spans) :
    ∃ opener ∈ sequence.controls, ∃ closer ∈ sequence.controls,
      span = ⟨opener.span.first, closer.span.first - 1⟩ := by
  induction hselects with
  | nil => simp at hmem
  | @cons _ _ first _ _ branch _ _ _ hbranch _ _ ihinner ihmore =>
      have hpicked := List.mem_of_getElem? hbranch
      simp only [List.mem_append] at hmem
      simp only [Sequence.controls, List.mem_append]
      rcases hmem with (hmem | hmem) | hmem
      · obtain ⟨_, other, hother, _, rfl⟩ := Conditional.mem_others hmem
        obtain ⟨hopener, hcloser⟩ :=
          first.branch_controls hlinked.1 (List.mem_of_getElem? hother)
        exact ⟨other.opener, .inl hopener, other.closer, .inl hcloser, rfl⟩
      · obtain ⟨opener, hopener, closer, hcloser, rfl⟩ :=
          ihinner (hlinked.1.body_of_mem hpicked) hmem
        have hsublist := first.controls_body_sublist hpicked
        exact ⟨opener, .inl (hsublist.mem hopener), closer, .inl (hsublist.mem hcloser), rfl⟩
      · obtain ⟨opener, hopener, closer, hcloser, rfl⟩ := ihmore hlinked.2 hmem
        exact ⟨opener, .inr hopener, closer, .inr hcloser, rfl⟩

/-- What a choice leaves out begins at a directive and ends in front of one. -/
theorem mem_unselected (sequence : Sequence) (hlinked : sequence.Linked) (digits : List Int)
    {spans : List Span} (hspans : sequence.unselected? digits = some spans) {span : Span}
    (hmem : span ∈ spans) :
    ∃ opener ∈ sequence.controls, ∃ closer ∈ sequence.controls,
      span = ⟨opener.span.first, closer.span.first - 1⟩ :=
  (sequence.selects digits hspans).mem hlinked hmem

theorem width_pos_of_depth_pos {sequence : Sequence} (hdepth : 0 < sequence.depth) :
    0 < sequence.width := by
  cases sequence with
  | nil => simp [depth] at hdepth
  | cons first rest =>
      have hfirst := first.width_pos
      rw [width]
      omega

/-- Every choice has digits: without conditionals it has none, and with them the radix is not
zero. -/
theorem digitsIn?_shape (sequence : Sequence) (choice : Int) :
    Shape.digitsIn? sequence.shape.width sequence.shape.depth choice =
      some (sequence.shape.digits choice) := by
  rw [Shape.digitsIn?, Shape.digits, ite_eq_right_iff]
  intro hfails
  simp only [Bool.and_eq_true, decide_eq_true_eq] at hfails
  have hwidth := width_pos_of_depth_pos (Nat.pos_of_ne_zero hfails.2)
  have hnone : sequence.width = 0 := by exact_mod_cast hfails.1
  omega

theorem digits_nonneg (sequence : Sequence) (choice : Int) :
    ∀ digit ∈ sequence.shape.digits choice, 0 ≤ digit := by
  obtain hdepth | hdepth := Nat.eq_zero_or_pos sequence.shape.depth
  · simp [Shape.digits, hdepth, Shape.digitsIn]
  · have hradix := Int.natCast_pos.mpr (width_pos_of_depth_pos hdepth)
    exact fun digit hdigit => (Shape.digitsIn_bounds hradix _ _ digit hdigit).1

/-- Every digit of a choice leads into a branch. -/
theorem unselected?_digits (sequence : Sequence) (choice : Int) :
    sequence.unselected? (sequence.shape.digits choice) = some (sequence.unselected choice) := by
  obtain ⟨spans, hspans⟩ := sequence.exists_unselected (sequence.shape.digits choice)
    (Nat.le_of_eq (Shape.length_digitsIn _ _ _).symm) (sequence.digits_nonneg choice)
  rw [unselected, hspans, Option.getD_some]

end Sequence

/-- Spans that do not hold an offset. -/
def Span.Avoid (spans : List Span) (offset : Int) : Prop :=
  ∀ span ∈ spans, ¬ span.has offset = true

/-- One digit for each level, each below the width. -/
def Shape.Spells (shape : Shape) (digits : List Int) : Prop :=
  digits.length = shape.depth ∧ ∀ digit ∈ digits, 0 ≤ digit ∧ digit < shape.width

/-- What lies between two directives of a conditional lies in the conditional. -/
theorem Conditional.has_text_of_between {conditional : Conditional}
    (hascending : Control.Ascending conditional.controls) {low high : Control}
    (hlow : low ∈ conditional.controls) (hhigh : high ∈ conditional.controls) {offset : Int}
    (hhas : (⟨low.span.first, high.span.first - 1⟩ : Span).has offset = true) :
    conditional.text.has offset = true := by
  have hopener := opener_le_of_mem hascending hlow
  have hcloser := conditional.le_closer_of_mem hascending hhigh
  simp only [Span.has_iff, Conditional.text] at hhas ⊢
  omega

mutual

/-- Some digits leave an offset in sight, whichever it is. -/
theorem Sequence.exists_digits_avoiding (offset : Int) {width : Nat} (hwidth : 0 < width) :
    (sequence : Sequence) → sequence.Linked → Control.Ascending sequence.controls →
    sequence.width ≤ width → (depth : Nat) → sequence.depth ≤ depth →
    ∃ digits, Shape.Spells ⟨depth, width⟩ digits ∧
      ∃ spans, sequence.unselected? digits = some spans ∧ Span.Avoid spans offset
  | .nil, _, _, _, depth, _ => by
      refine ⟨List.replicate depth 0, ⟨by simp, ?_⟩, [], by simp [Sequence.unselected?], ?_⟩
      · intro digit hdigit
        obtain rfl := List.eq_of_mem_replicate hdigit
        exact ⟨Int.le_refl 0, Int.natCast_pos.mpr hwidth⟩
      · intro span hspan
        simp at hspan
  | .cons first rest, _, _, _, 0, hdepth => by
      simp [Sequence.depth] at hdepth
  | .cons first rest, hlinked, hascending, hwide, depth + 1, hdepth => by
      obtain ⟨hfirst, hrest, hapart⟩ := List.pairwise_append.mp hascending
      simp only [Sequence.depth] at hdepth
      simp only [Sequence.width] at hwide
      by_cases hhas : first.text.has offset = true
      · -- The offset lies in the first conditional, whose branch around it fixes the digits.
        obtain ⟨position, hlt, digits, hspells, ⟨inner, hinner, havoid⟩, hothers⟩ :=
          first.exists_position_avoiding offset hwidth hlinked.1 hfirst (by omega) depth (by omega)
            hhas
        have hdigits : Shape.Spells ⟨depth + 1, width⟩ (position :: digits) := by
          refine ⟨by simp [hspells.1], List.forall_mem_cons.mpr ⟨?_, hspells.2⟩⟩
          simp only
          omega
        obtain ⟨more, hmore⟩ := rest.exists_unselected (position :: digits)
          (by rw [hdigits.1]; simp only; omega) (fun digit hdigit => (hdigits.2 digit hdigit).1)
        have hchosen : first.chosen position = position := by
          unfold Conditional.chosen
          omega
        refine ⟨position :: digits, hdigits, first.others position ++ inner ++ more, ?_, ?_⟩
        · simp [Sequence.unselected?, Conditional.position?, hchosen, hinner, hmore]
        · intro span hspan
          simp only [List.mem_append] at hspan
          rcases hspan with (hspan | hspan) | hspan
          · obtain ⟨index, branch, hbranch, hindex, rfl⟩ := Conditional.mem_others hspan
            exact hothers index branch hbranch (by omega)
          · exact havoid span hspan
          · obtain ⟨opener, hopener, closer, _, rfl⟩ :=
              rest.mem_unselected hlinked.2 _ hmore hspan
            have hbehind := (hapart _ first.closer_mem_controls opener hopener).1
            simp only [Span.has_iff, Conditional.text] at hhas ⊢
            omega
      · obtain ⟨digits, hdigits, more, hmore, havoid⟩ :=
          rest.exists_digits_avoiding offset hwidth hlinked.2 hrest (by omega) (depth + 1)
            (by omega)
        match digits, hdigits with
        | digit :: deeper, hdigits =>
          obtain ⟨hdigit, hdeeper⟩ := List.forall_mem_cons.mp hdigits.2
          obtain ⟨position, hposition, hlt, _⟩ := first.position?_of_nonneg hdigit.1
          obtain ⟨inner, hinner⟩ := first.exists_unselectedIn hlt deeper
            (by have hlength := hdigits.1; simp only [List.length_cons] at hlength; omega)
            (fun digit hdigit => (hdeeper digit hdigit).1)
          refine ⟨digit :: deeper, hdigits, first.others digit ++ inner ++ more, ?_, ?_⟩
          · simp [Sequence.unselected?, hposition, hinner, hmore]
          · intro span hspan
            simp only [List.mem_append] at hspan
            rcases hspan with (hspan | hspan) | hspan
            · obtain ⟨index, branch, hbranch, _, rfl⟩ := Conditional.mem_others hspan
              obtain ⟨hopener, hcloser⟩ :=
                first.branch_controls hlinked.1 (List.mem_of_getElem? hbranch)
              exact fun hinside =>
                hhas (Conditional.has_text_of_between hfirst hopener hcloser hinside)
            · obtain ⟨branch, hbranch, hbody⟩ := first.exists_selects position deeper hinner
              have hpicked := List.mem_of_getElem? hbranch
              obtain ⟨opener, hopener, closer, hcloser, rfl⟩ :=
                hbody.mem (hlinked.1.body_of_mem hpicked) hspan
              have hsublist := first.controls_body_sublist hpicked
              exact fun hinside => hhas (Conditional.has_text_of_between hfirst
                (hsublist.mem hopener) (hsublist.mem hcloser) hinside)
            · exact havoid span hspan

/-- An offset of a conditional lies in one branch only, and some digits leave it in sight
there. -/
theorem Conditional.exists_position_avoiding (offset : Int) {width : Nat} (hwidth : 0 < width) :
    (conditional : Conditional) → conditional.Linked →
    Control.Ascending conditional.controls → conditional.innerWidth ≤ width →
    (depth : Nat) → conditional.innerDepth ≤ depth → conditional.text.has offset = true →
    ∃ position < conditional.width, ∃ digits, Shape.Spells ⟨depth, width⟩ digits ∧
      (∃ spans, conditional.unselectedIn? position digits = some spans ∧
        Span.Avoid spans offset) ∧
      ∀ (index : Nat) (branch : Branch), conditional.branches[index]? = some branch →
        index ≠ position → ¬ branch.text.has offset = true
  | .last opener closer body, hlinked, hascending, hwide, depth, hdepth, hhas => by
      have hbody : Control.Ascending body.controls :=
        (List.pairwise_append.mp (List.pairwise_cons.mp hascending).2).1
      obtain ⟨digits, hdigits, spans, hspans, havoid⟩ :=
        body.exists_digits_avoiding offset hwidth hlinked hbody hwide depth hdepth
      refine ⟨0, Conditional.width_pos _, digits, hdigits, ⟨spans, ?_, havoid⟩, ?_⟩
      · simpa [Conditional.unselectedIn?] using hspans
      · intro index branch hbranch hindex
        simp [Conditional.branches, hindex] at hbranch
  | .more opener closer body rest, hlinked, hascending, hwide, depth, hdepth, hhas => by
      obtain ⟨hcloser, hlinkedBody, hlinkedRest⟩ := hlinked
      obtain ⟨hbody, hrest, _⟩ :=
        List.pairwise_append.mp (List.pairwise_cons.mp hascending).2
      simp only [Conditional.innerDepth] at hdepth
      simp only [Conditional.innerWidth] at hwide
      by_cases hbefore : offset < closer.span.first
      · obtain ⟨digits, hdigits, spans, hspans, havoid⟩ :=
          body.exists_digits_avoiding offset hwidth hlinkedBody hbody (by omega) depth (by omega)
        refine ⟨0, Conditional.width_pos _, digits, hdigits, ⟨spans, ?_, havoid⟩, ?_⟩
        · simpa [Conditional.unselectedIn?] using hspans
        · intro index branch hbranch hindex
          obtain ⟨index, rfl⟩ := Nat.exists_eq_succ_of_ne_zero hindex
          have hmem : branch ∈ rest.branches :=
            List.mem_of_getElem? (by simpa [Conditional.branches] using hbranch)
          have hbegin := Conditional.opener_le_of_mem hrest
            (rest.branch_controls hlinkedRest hmem).1
          rw [hcloser] at hbefore
          simp only [Span.has_iff, Branch.text]
          omega
      · have hinside : rest.text.has offset = true := by
          simp only [Span.has_iff, Conditional.text, Conditional.closer, ← hcloser] at hhas ⊢
          omega
        obtain ⟨position, hlt, digits, hdigits, ⟨spans, hspans, havoid⟩, hothers⟩ :=
          rest.exists_position_avoiding offset hwidth hlinkedRest hrest (by omega) depth
            (by omega) hinside
        refine ⟨position + 1, ?_, digits, hdigits, ⟨spans, ?_, havoid⟩, ?_⟩
        · simpa [Conditional.width, Conditional.branches] using hlt
        · simpa [Conditional.unselectedIn?] using hspans
        · intro index branch hbranch hindex
          cases index with
          | zero =>
              obtain rfl : (⟨opener, closer, body⟩ : Branch) = branch := by
                simpa [Conditional.branches] using hbranch
              simp only [Span.has_iff, Branch.text]
              omega
          | succ index =>
              exact hothers index branch (by simpa [Conditional.branches] using hbranch) (by omega)

end

namespace Sequence

/-- Every offset is left in sight by some choice. -/
theorem exists_choice_avoiding {sequence : Sequence} (hlinked : sequence.Linked)
    (hascending : Control.Ascending sequence.controls) (offset : Int) :
    ∃ choice : Nat, choice < sequence.shape.choices ∧
      Span.Avoid (sequence.unselected choice) offset := by
  cases sequence with
  | nil =>
      refine ⟨0, by simp [shape, Shape.choices, depth], ?_⟩
      intro span hspan
      simp [unselected, unselected?] at hspan
  | cons first rest =>
      have hwidth : 0 < (cons first rest).width := by
        have hfirst := first.width_pos
        simp only [width]
        omega
      obtain ⟨digits, ⟨hlength, hdigits⟩, spans, hspans, havoid⟩ :=
        (cons first rest).exists_digits_avoiding offset hwidth hlinked hascending (Nat.le_refl _)
          _ (Nat.le_refl _)
      obtain ⟨choice, hchoice, hspelled⟩ :=
        (cons first rest).shape.exists_choice_digits hwidth hlength hdigits
      refine ⟨choice, hchoice, ?_⟩
      rw [unselected, hspelled, hspans]
      exact havoid

/-- A conditional of a sequence is linked and ascending when the sequence is. -/
theorem conditional_of_mem (sequence : Sequence) (hlinked : sequence.Linked)
    (hascending : Control.Ascending sequence.controls) {conditional : Conditional}
    (hmem : conditional ∈ sequence.conditionals) :
    conditional.Linked ∧ Control.Ascending conditional.controls ∧
      ∀ control ∈ conditional.controls, control ∈ sequence.controls := by
  have hsublist := sequence.controls_sublist hmem
  exact ⟨hlinked.of_mem hmem, hascending.sublist hsublist, fun _ hcontrol => hsublist.mem hcontrol⟩

end Sequence

namespace Branch

/-- A branch is well laid out: the directives in its body stand between its own. -/
structure Ordered (branch : Branch) : Prop where
  linked : branch.body.Linked
  ascending : Control.Ascending branch.body.controls
  opens : branch.opener.span.first < branch.closer.span.first
  encloses : ∀ control ∈ branch.body.controls,
    branch.opener.span.first < control.span.first ∧
      control.span.first < branch.closer.span.first

end Branch

namespace Conditional

theorem branch_ordered : (conditional : Conditional) → conditional.Linked →
    Control.Ascending conditional.controls → {branch : Branch} →
    branch ∈ conditional.branches →
    branch.Ordered ∧ ∀ control ∈ branch.body.controls, control ∈ conditional.controls
  | last opener closer body, hlinked, hascending, branch, hmem => by
      obtain rfl := List.mem_singleton.mp hmem
      obtain ⟨hopener, hinner⟩ := List.pairwise_cons.mp hascending
      obtain ⟨hbody, _, hcloser⟩ := List.pairwise_append.mp hinner
      refine ⟨⟨hlinked, hbody, (hopener closer (by simp)).1, ?_⟩, ?_⟩
      · intro control hcontrol
        exact ⟨(hopener control (by simp [hcontrol])).1,
          (hcloser control hcontrol closer (by simp)).1⟩
      · intro control hcontrol
        simp [controls, hcontrol]
  | more opener closer body rest, hlinked, hascending, branch, hmem => by
      obtain ⟨hcloser, hlinkedBody, hlinkedRest⟩ := hlinked
      obtain ⟨hopener, hinner⟩ := List.pairwise_cons.mp hascending
      obtain ⟨hbody, hrest, hapart⟩ := List.pairwise_append.mp hinner
      have hnext : closer ∈ rest.controls := hcloser ▸ rest.opener_mem_controls
      rcases List.mem_cons.mp hmem with rfl | hmem
      · refine ⟨⟨hlinkedBody, hbody, (hopener closer (by simp [hnext])).1, ?_⟩, ?_⟩
        · intro control hcontrol
          exact ⟨(hopener control (by simp [hcontrol])).1,
            (hapart control hcontrol closer hnext).1⟩
        · intro control hcontrol
          simp [controls, hcontrol]
      · obtain ⟨hordered, hkept⟩ := rest.branch_ordered hlinkedRest hrest hmem
        refine ⟨hordered, fun control hcontrol => ?_⟩
        simp [controls, hkept control hcontrol]

end Conditional

namespace Sequence

/-- The branches of a sequence that lie inside of each other, the outermost first. -/
inductive Path : Sequence → List Branch → Prop where
  | one {sequence : Sequence} {conditional : Conditional} {branch : Branch}
      (hconditional : conditional ∈ sequence.conditionals)
      (hbranch : branch ∈ conditional.branches) : Path sequence [branch]
  | into {sequence : Sequence} {conditional : Conditional} {branch : Branch}
      {inner : List Branch} (hconditional : conditional ∈ sequence.conditionals)
      (hbranch : branch ∈ conditional.branches) (hinner : Path branch.body inner) :
      Path sequence (branch :: inner)

/-- Some directive of a sequence opens the innermost branch of a path, and every branch of
the path holds its offset. -/
theorem Path.exists_common_offset {sequence : Sequence} {path : List Branch}
    (hpath : sequence.Path path) (hlinked : sequence.Linked)
    (hascending : Control.Ascending sequence.controls) :
    ∃ control ∈ sequence.controls, ∀ branch ∈ path,
      branch.text.has control.span.first = true := by
  induction hpath with
  | @one sequence conditional branch hconditional hbranch =>
      obtain ⟨hcond, hcondAsc, hkept⟩ := conditional_of_mem _ hlinked hascending hconditional
      have hordered := (Conditional.branch_ordered _ hcond hcondAsc hbranch).1
      have hopener := (Conditional.branch_controls _ hcond hbranch).1
      refine ⟨branch.opener, hkept _ hopener, ?_⟩
      have hopens := hordered.opens
      intro other hother
      obtain rfl := List.mem_singleton.mp hother
      simp only [Span.has_iff, Branch.text]
      omega
  | @into sequence conditional branch inner hconditional hbranch _ ih =>
      obtain ⟨hcond, hcondAsc, hkept⟩ := conditional_of_mem _ hlinked hascending hconditional
      obtain ⟨hordered, hinside⟩ := Conditional.branch_ordered _ hcond hcondAsc hbranch
      obtain ⟨control, hcontrol, hall⟩ := ih hordered.linked hordered.ascending
      refine ⟨control, hkept _ (hinside _ hcontrol), List.forall_mem_cons.mpr ⟨?_, hall⟩⟩
      have hbetween := hordered.encloses control hcontrol
      simp only [Span.has_iff, Branch.text]
      omega

end Sequence

end CDelta

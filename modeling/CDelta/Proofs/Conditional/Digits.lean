import CDelta.Proofs.Conditional.Choice
import Mathlib.Data.Set.Function
import Mathlib.Tactic.Ring

/-! # Choices as digits

Each digit of a choice is computed by itself, as a remainder of a quotient. Together the digits
spell the choice: every list of digits in the radix is that of one choice, and the order of
choices is the lexicographic order of their digits. A choice outside of the range, below zero or
above, has the digits of the one in the range that differs from it by a multiple of the number of
choices.
-/

namespace CDelta

namespace Shape

/-- The choices below the power of a radix, from zero on. -/
def range (radix : Int) (count : Nat) : Set Int :=
  {choice | 0 ≤ choice ∧ choice < radix.pow count}

/-- The lists of a number of digits in a radix. -/
def numerals (radix : Int) (count : Nat) : Set (List Int) :=
  {digits | digits.length = count ∧ ∀ digit ∈ digits, 0 ≤ digit ∧ digit < radix}

section Radix

variable {radix : Int} (hradix : 0 < radix)
include hradix

theorem digitsIn_mem_numerals (count : Nat) (choice : Int) :
    digitsIn radix count choice ∈ numerals radix count :=
  ⟨length_digitsIn radix count choice, digitsIn_bounds hradix count choice⟩

/-- What the digits spell and what the quotient by the power above them stands for make up the
choice. -/
theorem valueIn_digitsIn_add (count : Nat) (choice : Int) :
    valueIn radix (digitsIn radix count choice) +
      choice / radix.pow count * radix.pow count = choice := by
  induction count with
  | zero =>
      have hone : radix.pow 0 = 1 := Int.pow_zero radix
      rw [digitsIn, valueIn, hone, Int.ediv_one, Int.mul_one, Int.zero_add]
  | succ count ih =>
      have hpower : 0 ≤ radix.pow count := Int.le_of_lt (Int.pow_pos hradix)
      have hnext : radix.pow (count + 1) = radix.pow count * radix := Int.pow_succ radix count
      rw [digitsIn, valueIn, length_digitsIn, hnext, Int.fdiv_eq_ediv_of_nonneg _ hpower,
        Int.fmod_eq_emod_of_nonneg _ (Int.le_of_lt hradix), ← Int.ediv_ediv_of_nonneg hpower]
      set power := radix.pow count
      set quotient := choice / power
      set value := valueIn radix (digitsIn radix count choice)
      calc
        quotient % radix * power + value + quotient / radix * (power * radix)
          = value + (quotient % radix + radix * (quotient / radix)) * power := by ring
        _ = value + quotient * power := by rw [Int.emod_add_mul_ediv]
        _ = choice := ih

theorem valueIn_digitsIn (count : Nat) (choice : Int) :
    valueIn radix (digitsIn radix count choice) = choice % radix.pow count := by
  have hsum := valueIn_digitsIn_add hradix count choice
  rw [Int.emod_def, Int.mul_comm]
  omega

/-- A higher digit at the first place outweighs all digits behind it. -/
theorem valueIn_cons_lt {first second : List Int} (hlength : first.length = second.length)
    (hfirst : ∀ digit ∈ first, 0 ≤ digit ∧ digit < radix)
    (hsecond : ∀ digit ∈ second, 0 ≤ digit ∧ digit < radix) {low high : Int} (hlt : low < high) :
    valueIn radix (low :: first) < valueIn radix (high :: second) := by
  obtain ⟨_, hbound⟩ := valueIn_bounds hradix hfirst
  obtain ⟨hvalue, _⟩ := valueIn_bounds hradix hsecond
  have hpower : 0 ≤ radix.pow second.length := Int.le_of_lt (Int.pow_pos hradix)
  have hplace := Int.mul_le_mul_of_nonneg_right (Int.add_one_le_of_lt hlt) hpower
  rw [Int.add_mul, Int.one_mul] at hplace
  rw [hlength] at hbound
  rw [valueIn, valueIn, hlength]
  omega

/-- Of two lists of as many digits, the one that spells the smaller number comes first in
lexicographic order. -/
theorem lex_of_valueIn_lt {first second : List Int} (hlength : first.length = second.length)
    (hfirst : ∀ digit ∈ first, 0 ≤ digit ∧ digit < radix)
    (hsecond : ∀ digit ∈ second, 0 ≤ digit ∧ digit < radix)
    (hlt : valueIn radix first < valueIn radix second) : List.Lex (· < ·) first second := by
  induction first generalizing second with
  | nil =>
      obtain rfl : second = [] := List.eq_nil_of_length_eq_zero hlength.symm
      exact absurd hlt (Int.lt_irrefl _)
  | cons digit rest ih =>
      obtain ⟨other, more, rfl⟩ : ∃ other more, second = other :: more :=
        List.exists_cons_of_length_pos (hlength ▸ Nat.succ_pos _)
      have htail : rest.length = more.length := Nat.succ.inj hlength
      obtain ⟨_, hrest⟩ := List.forall_mem_cons.mp hfirst
      obtain ⟨_, hmore⟩ := List.forall_mem_cons.mp hsecond
      rcases Int.lt_trichotomy digit other with hless | rfl | hgreater
      · exact .rel hless
      · rw [valueIn, valueIn, htail] at hlt
        exact .cons (ih htail hrest hmore (Int.lt_of_add_lt_add_left hlt))
      · have habove := valueIn_cons_lt hradix htail.symm hmore hrest hgreater
        exact absurd hlt (Int.not_lt.mpr (Int.le_of_lt habove))

theorem invOn_valueIn (count : Nat) :
    Set.InvOn (valueIn radix) (digitsIn radix count) (range radix count)
      (numerals radix count) := by
  refine ⟨fun choice hchoice => ?_, fun digits hdigits => ?_⟩
  · rw [valueIn_digitsIn hradix, Int.emod_eq_of_lt hchoice.1 hchoice.2]
  · rw [← hdigits.1, digitsIn_valueIn hradix hdigits.2]

theorem bijOn_digitsIn (count : Nat) :
    Set.BijOn (digitsIn radix count) (range radix count) (numerals radix count) := by
  apply (invOn_valueIn hradix count).bijOn
  · exact fun choice _ => digitsIn_mem_numerals hradix count choice
  · rintro digits ⟨rfl, hdigits⟩
    exact valueIn_bounds hradix hdigits

theorem lex_digitsIn {count : Nat} {first second : Int} (hfirst : first ∈ range radix count)
    (hsecond : second ∈ range radix count) (hlt : first < second) :
    List.Lex (· < ·) (digitsIn radix count first) (digitsIn radix count second) := by
  have hinverse := (invOn_valueIn hradix count).1
  apply lex_of_valueIn_lt hradix
  · rw [length_digitsIn, length_digitsIn]
  · exact digitsIn_bounds hradix count first
  · exact digitsIn_bounds hradix count second
  · rwa [hinverse hfirst, hinverse hsecond]

end Radix

end Shape

/-- With a width of at least one, every choice has digits. The choices in the range are the lists of
digits in the radix of the width, one to one and in lexicographic order, and the digits of any
choice spell its remainder by the number of choices. -/
theorem choices_are_numerals (shape : Shape) (hwidth : 1 ≤ shape.width) :
    (∀ choice, Shape.digitsIn? shape.width shape.depth choice = some (shape.digits choice)) ∧
      Set.BijOn shape.digits {choice | 0 ≤ choice ∧ choice < (shape.choices : Int)}
        {digits | digits.length = shape.depth ∧
          ∀ digit ∈ digits, 0 ≤ digit ∧ digit < (shape.width : Int)} ∧
      (∀ choice, Shape.valueIn shape.width (shape.digits choice) = choice % shape.choices) ∧
      ∀ first second : Int, 0 ≤ first → first < second → second < shape.choices →
        List.Lex (· < ·) (shape.digits first) (shape.digits second) := by
  have hradix : (0 : Int) < shape.width := Int.natCast_pos.mpr hwidth
  have hchoices : ((shape.choices : Nat) : Int) = (shape.width : Int).pow shape.depth :=
    Int.natCast_pow shape.width shape.depth
  rw [hchoices]
  refine ⟨fun choice => ?_, Shape.bijOn_digitsIn hradix shape.depth,
    Shape.valueIn_digitsIn hradix shape.depth, fun first second hfirst hlt hsecond => ?_⟩
  · rw [Shape.digitsIn?, if_neg (by simp; omega)]
    rfl
  · exact Shape.lex_digitsIn hradix ⟨hfirst, Int.lt_trans hlt hsecond⟩
      ⟨Int.le_trans hfirst (Int.le_of_lt hlt), hsecond⟩ hlt

/-- Two levels of three branches. The choice four below zero has the digits of the choice five,
which come before those of the choice six. -/
theorem choices_are_numerals_two_levels :
    let shape : Shape := ⟨2, 3⟩
    1 ≤ shape.width ∧ shape.digits (-4) = [1, 2] ∧ shape.digits 5 = [1, 2] ∧
      Shape.valueIn shape.width (shape.digits (-4)) = 5 ∧ shape.digits 6 = [2, 0] ∧
      List.Lex (· < ·) (shape.digits 5) (shape.digits 6) := by
  intro shape
  have hwidth : 1 ≤ shape.width := by decide
  obtain ⟨_, _, hvalue, hlex⟩ := choices_are_numerals shape hwidth
  exact ⟨hwidth, by decide, by decide, hvalue (-4), by decide,
    hlex 5 6 (by decide) (by decide) (by decide)⟩

end CDelta

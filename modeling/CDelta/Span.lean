import CDelta.Bytes

/-! # Spans of source text

A span names its first and its last offset, both included. Spans are plain pairs of
integers: one that ends before it begins is empty, and one may reach outside of the text
it is used with. Blanking a text by spans overwrites the bytes they hold and moves
nothing.
-/

namespace CDelta

/-- The offsets from `first` to `last`, both included. -/
structure Span where
  first : Int
  last : Int
deriving DecidableEq, Repr

namespace Span

/-- The span of a whole text; empty when the text is. -/
def whole (data : Bytes) : Span :=
  ⟨0, (data.length : Int) - 1⟩

/-- Distance covered from end to end, negative when the ends are crossed. -/
def extent (span : Span) : Int :=
  span.last - span.first + 1

/-- The number of offsets in the span. -/
def length (span : Span) : Int :=
  max 0 span.extent

/-- No offset lies in the span. -/
def isEmpty (span : Span) : Bool :=
  span.last < span.first

/-- The offset lies in the span. -/
def has (span : Span) (offset : Int) : Bool :=
  span.first ≤ offset && offset ≤ span.last

/-- Both ends of `inner` lie on the inner side of the ends of `span`. -/
def contains (span inner : Span) : Bool :=
  span.first ≤ inner.first && inner.last ≤ span.last

/-- Neither span ends before the other begins. -/
def meets (span region : Span) : Bool :=
  span.first ≤ region.last && region.first ≤ span.last

/-- Either end of the span is an offset of `other`. -/
def endsIn (span other : Span) : Bool :=
  other.has span.first || other.has span.last

/-- The part of the span inside of `region`. -/
def clip (span region : Span) : Span :=
  ⟨max span.first region.first, min span.last region.last⟩

/-- The smallest span around two spans. -/
def union (span other : Span) : Span :=
  ⟨min span.first other.first, max span.last other.last⟩

/-- The bytes of the text at the span's offsets, cut where the text ends. -/
def slice (span : Span) (data : Bytes) : Bytes :=
  (data.drop span.first.toNat).take ((span.last + 1).toNat - span.first.toNat)

@[simp]
theorem has_iff {span : Span} {offset : Int} :
    span.has offset = true ↔ span.first ≤ offset ∧ offset ≤ span.last := by
  simp [has]

theorem isEmpty_iff_forall_not_has {span : Span} :
    span.isEmpty = true ↔ ∀ offset, span.has offset = false := by
  constructor
  · intro hempty offset
    simp only [isEmpty, decide_eq_true_eq] at hempty
    simp only [has, Bool.and_eq_false_iff, decide_eq_false_iff_not]
    omega
  · intro hnone
    have hfirst := hnone span.first
    simp only [has, Bool.and_eq_false_iff, decide_eq_false_iff_not] at hfirst
    simp only [isEmpty, decide_eq_true_eq]
    omega

end Span

namespace Bytes

/-- The furthest last offset among spans, or `reach` if that is further. -/
def furthest (reach : Int) (spans : List Span) : Int :=
  spans.foldl (fun reach span => max reach span.last) reach

/-- Blanks a text that begins at `offset`, from left to right. The spans to come are in the
order of their first offsets; those that have begun reach up to `reach`. -/
def sweep (reach : Int) (spans : List Span) (offset : Nat) : Bytes → Bytes
  | [] => []
  | byte :: rest =>
    let reach := furthest reach (spans.takeWhile (·.first ≤ offset))
    (if offset ≤ reach then Byte.space else byte) ::
      sweep reach (spans.dropWhile (·.first ≤ offset)) (offset + 1) rest

/-- The text with every byte at an offset of some span overwritten by a space. -/
def blank (spans : List Span) (data : Bytes) : Bytes :=
  sweep (-1) (spans.mergeSort (·.first ≤ ·.first)) 0 data

theorem le_furthest_iff {offset reach : Int} {spans : List Span} :
    offset ≤ furthest reach spans ↔ offset ≤ reach ∨ ∃ span ∈ spans, offset ≤ span.last := by
  induction spans generalizing reach with
  | nil => simp [furthest]
  | cons span rest ih =>
      change offset ≤ furthest (max reach span.last) rest ↔ _
      rw [ih]
      simp only [List.mem_cons, exists_eq_or_imp]
      have hmax : offset ≤ max reach span.last ↔ offset ≤ reach ∨ offset ≤ span.last := by omega
      rw [hmax, or_assoc]

/-- In the order of first offsets, the spans taken while they begin are all that do. -/
theorem mem_takeWhile_first_iff {spans : List Span} {offset : Int}
    (hsorted : spans.Pairwise (·.first ≤ ·.first)) {span : Span} :
    span ∈ spans.takeWhile (·.first ≤ offset) ↔ span ∈ spans ∧ span.first ≤ offset := by
  induction spans with
  | nil => simp
  | cons head rest ih =>
      obtain ⟨hhead, hrest⟩ := List.pairwise_cons.mp hsorted
      by_cases hfirst : head.first ≤ offset
      · simp only [hfirst, decide_true, List.takeWhile_cons_of_pos, List.mem_cons, ih hrest]
        constructor
        · rintro (rfl | ⟨hmem, hle⟩)
          · exact ⟨.inl rfl, hfirst⟩
          · exact ⟨.inr hmem, hle⟩
        · rintro ⟨rfl | hmem, hle⟩
          · exact .inl rfl
          · exact .inr ⟨hmem, hle⟩
      · simp only [hfirst, decide_false, Bool.false_eq_true, not_false_eq_true,
          List.takeWhile_cons_of_neg, List.not_mem_nil, List.mem_cons, false_iff]
        rintro ⟨rfl | hmem, hle⟩
        · exact hfirst hle
        · exact hfirst (Int.le_trans (hhead span hmem) hle)

theorem getElem?_sweep (data : Bytes) (reach : Int) (spans : List Span) (offset index : Nat)
    (hsorted : spans.Pairwise (·.first ≤ ·.first)) :
    (sweep reach spans offset data)[index]? =
      (data[index]?).map fun byte =>
        if ((offset + index : Nat) : Int) ≤ reach ∨ ∃ span ∈ spans, span.has (offset + index : Nat)
        then Byte.space else byte := by
  induction data generalizing reach spans offset index with
  | nil => simp [sweep]
  | cons byte rest ih =>
      have hbegun : ∀ place : Int, (offset : Int) ≤ place →
          (place ≤ furthest reach (spans.takeWhile (·.first ≤ (offset : Int))) ↔
            place ≤ reach ∨ ∃ span ∈ spans.takeWhile (·.first ≤ (offset : Int)),
              span.has place = true) := by
        intro place hplace
        rw [le_furthest_iff]
        refine or_congr_right ⟨?_, ?_⟩
        · rintro ⟨span, hspan, hle⟩
          have hfirst := ((mem_takeWhile_first_iff hsorted).mp hspan).2
          exact ⟨span, hspan, Span.has_iff.mpr ⟨Int.le_trans hfirst hplace, hle⟩⟩
        · rintro ⟨span, hspan, hhas⟩
          exact ⟨span, hspan, (Span.has_iff.mp hhas).2⟩
      cases index with
      | zero =>
          simp only [sweep, List.getElem?_cons_zero, Option.map_some, Nat.add_zero]
          congr 2
          rw [eq_iff_iff, hbegun _ (Int.le_refl _)]
          refine or_congr_right ⟨?_, ?_⟩
          · rintro ⟨span, hspan, hhas⟩
            exact ⟨span, ((mem_takeWhile_first_iff hsorted).mp hspan).1, hhas⟩
          · rintro ⟨span, hspan, hhas⟩
            exact ⟨span, (mem_takeWhile_first_iff hsorted).mpr
              ⟨hspan, (Span.has_iff.mp hhas).1⟩, hhas⟩
      | succ index =>
          have hdropped : (spans.dropWhile (·.first ≤ (offset : Int))).Pairwise
              (·.first ≤ ·.first) :=
            hsorted.sublist (List.dropWhile_sublist _)
          simp only [sweep, List.getElem?_cons_succ]
          rw [ih _ _ _ _ hdropped]
          have hplace : offset + 1 + index = offset + (index + 1) := by omega
          rw [hplace]
          congr 1
          funext byte
          congr 1
          rw [eq_iff_iff, hbegun _ (by omega), or_assoc]
          have hsplit : ∀ span, span ∈ spans ↔
              span ∈ spans.takeWhile (·.first ≤ (offset : Int)) ∨
                span ∈ spans.dropWhile (·.first ≤ (offset : Int)) := by
            intro span
            rw [← List.mem_append, List.takeWhile_append_dropWhile]
          simp only [hsplit, or_and_right, exists_or]

theorem getElem?_blank (spans : List Span) (data : Bytes) (offset : Nat) :
    (data.blank spans)[offset]? =
      (data[offset]?).map fun byte =>
        if spans.any (·.has offset) then Byte.space else byte := by
  have hsorted : (spans.mergeSort (·.first ≤ ·.first)).Pairwise (·.first ≤ ·.first) := by
    refine (List.pairwise_mergeSort ?_ ?_ spans).imp (by simp)
    · intro a b c hab hbc
      simp only [decide_eq_true_eq] at hab hbc ⊢
      exact Int.le_trans hab hbc
    · intro a b
      simp only [Bool.or_eq_true, decide_eq_true_eq]
      exact Int.le_total _ _
  rw [blank, getElem?_sweep _ _ _ _ _ hsorted]
  congr 1
  funext byte
  congr 1
  rw [eq_iff_iff, List.any_eq_true]
  simp only [Nat.zero_add, List.mem_mergeSort]
  refine ⟨?_, .inr⟩
  rintro (hreach | hspan)
  · omega
  · exact hspan

@[simp]
theorem length_blank (spans : List Span) (data : Bytes) :
    (data.blank spans).length = data.length := by
  have hlength : ∀ (data : Bytes) reach spans offset,
      (sweep reach spans offset data).length = data.length := by
    intro data
    induction data with
    | nil => simp [sweep]
    | cons byte rest ih => simp [sweep, ih]
  exact hlength _ _ _ _

@[simp]
theorem blank_nil (data : Bytes) : data.blank [] = data := by
  apply List.ext_getElem? fun offset => ?_
  simp [getElem?_blank]

/-- Blanking twice blanks by all the spans at once. -/
theorem blank_blank (spans more : List Span) (data : Bytes) :
    (data.blank spans).blank more = data.blank (spans ++ more) := by
  apply List.ext_getElem? fun offset => ?_
  simp only [getElem?_blank, Option.map_map, List.any_append]
  congr 1
  funext byte
  by_cases hmore : more.any (·.has offset) <;> simp [hmore]

end Bytes

end CDelta

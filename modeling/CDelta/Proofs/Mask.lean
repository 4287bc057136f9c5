import CDelta.Mark

/-! # Blanking by offset

Blanking a text by spans is blanking it by the offsets they cover. In this form it passes
through concatenation, and blanking twice is blanking by either reason.
-/

namespace CDelta

namespace Span

theorem has_clip {span region : Span} {offset : Int} (hregion : region.has offset = true) :
    (span.clip region).has offset = span.has offset := by
  rw [has_iff] at hregion
  rw [Bool.eq_iff_iff, has_iff, has_iff]
  simp only [clip]
  omega

/-- Some span has the offset. -/
def cover (spans : List Span) (offset : Nat) : Bool :=
  spans.any (·.has offset)

theorem cover_iff {spans : List Span} {offset : Nat} :
    cover spans offset = true ↔ ∃ span ∈ spans, span.has offset = true :=
  List.any_eq_true

@[simp]
theorem cover_append (first second : List Span) (offset : Nat) :
    cover (first ++ second) offset = (cover first offset || cover second offset) :=
  List.any_append

end Span

namespace Bytes

/-- The text with every byte at a hidden offset overwritten by a space. The bytes begin at
the offset `start`. -/
def mask (hidden : Nat → Bool) : Nat → Bytes → Bytes
  | _, [] => []
  | start, byte :: rest =>
    (if hidden start then Byte.space else byte) :: mask hidden (start + 1) rest

@[simp]
theorem mask_nil (hidden : Nat → Bool) (start : Nat) : mask hidden start [] = [] := rfl

@[simp]
theorem length_mask (hidden : Nat → Bool) (start : Nat) (data : Bytes) :
    (mask hidden start data).length = data.length := by
  induction data generalizing start with
  | nil => rfl
  | cons byte rest ih => simp [mask, ih]

theorem mask_append (hidden : Nat → Bool) (start : Nat) (first second : Bytes) :
    mask hidden start (first ++ second) =
      mask hidden start first ++ mask hidden (start + first.length) second := by
  induction first generalizing start with
  | nil => simp
  | cons byte rest ih =>
      have hoffset : start + 1 + rest.length = start + (rest.length + 1) := by omega
      simp only [List.cons_append, mask, ih, List.length_cons, hoffset]

theorem getElem?_mask (hidden : Nat → Bool) (start : Nat) (data : Bytes) (index : Nat) :
    (mask hidden start data)[index]? =
      (data[index]?).map fun byte => if hidden (start + index) then Byte.space else byte := by
  induction data generalizing start index with
  | nil => simp
  | cons byte rest ih =>
      cases index with
      | zero => simp [mask]
      | succ index =>
          have hoffset : start + 1 + index = start + (index + 1) := by omega
          simp only [mask, List.getElem?_cons_succ, ih, hoffset]

/-- What stands in a blanked text and is no space stood there before. -/
theorem getElem?_mask_eq_some_iff {hidden : Nat → Bool} {start : Nat} {data : Bytes}
    {index : Nat} {byte : UInt8} (hbyte : byte ≠ Byte.space) :
    (mask hidden start data)[index]? = some byte ↔
      data[index]? = some byte ∧ hidden (start + index) = false := by
  rw [getElem?_mask]
  cases data[index]? with
  | none => simp
  | some found =>
      by_cases hhidden : hidden (start + index) = true
      · simp [hhidden, hbyte.symm]
      · simp [hhidden]

theorem mask_congr {hidden other : Nat → Bool} {start : Nat} {data : Bytes}
    (hagree : ∀ index < data.length, hidden (start + index) = other (start + index)) :
    mask hidden start data = mask other start data := by
  apply List.ext_getElem? fun index => ?_
  rw [getElem?_mask, getElem?_mask]
  by_cases hindex : index < data.length
  · rw [hagree index hindex]
  · simp [List.getElem?_eq_none (Nat.le_of_not_lt hindex)]

theorem mask_mask (first second : Nat → Bool) (start : Nat) (data : Bytes) :
    mask second start (mask first start data) =
      mask (fun offset => first offset || second offset) start data := by
  apply List.ext_getElem? fun index => ?_
  simp only [getElem?_mask, Option.map_map]
  congr 1
  funext byte
  by_cases hsecond : second (start + index) <;> simp [hsecond]

theorem mask_of_hidden {hidden : Nat → Bool} {start : Nat} {data : Bytes}
    (hhidden : ∀ index < data.length, hidden (start + index) = true) :
    mask hidden start data = List.replicate data.length Byte.space := by
  apply List.ext_getElem? fun index => ?_
  rw [getElem?_mask, List.getElem?_replicate]
  by_cases hindex : index < data.length
  · simp [hhidden index hindex, hindex]
  · simp [hindex]

theorem mask_of_shown {hidden : Nat → Bool} {start : Nat} {data : Bytes}
    (hshown : ∀ index < data.length, hidden (start + index) = false) :
    mask hidden start data = data := by
  apply List.ext_getElem? fun index => ?_
  rw [getElem?_mask]
  by_cases hindex : index < data.length
  · simp [hshown index hindex]
  · simp [hindex]

/-- A text blanked at the offsets from one to another is that text with spaces in place of what
stands there. -/
theorem mask_between {hidden : Nat → Bool} {data : Bytes} {first count : Nat}
    (hbound : first + count ≤ data.length)
    (hhidden : ∀ index < data.length, hidden index = true ↔ first ≤ index ∧ index < first + count) :
    mask hidden 0 data =
      data.take first ++ (List.replicate count Byte.space ++ data.drop (first + count)) := by
  have hsplit : data =
      data.take first ++ ((data.drop first).take count ++ data.drop (first + count)) := by
    rw [← List.drop_drop, List.take_append_drop, List.take_append_drop]
  have hfront : (data.take first).length = first := List.length_take_of_le (by omega)
  have hmiddle : ((data.drop first).take count).length = count :=
    List.length_take_of_le (by rw [List.length_drop]; omega)
  have hshown : ∀ index < data.length, ¬ (first ≤ index ∧ index < first + count) →
      hidden index = false := by
    intro index hindex hout
    rw [Bool.eq_false_iff, Ne, hhidden index hindex]
    exact hout
  rw [congrArg (mask hidden 0) hsplit, mask_append, mask_append, hfront, hmiddle, Nat.zero_add,
    mask_of_shown, mask_of_hidden, mask_of_shown, hmiddle]
  · intro index hindex
    rw [List.length_drop] at hindex
    exact hshown _ (by omega) (by omega)
  · intro index hindex
    rw [hmiddle] at hindex
    exact (hhidden _ (by omega)).mpr (by omega)
  · intro index hindex
    rw [hfront] at hindex
    exact hshown _ (by omega) (by omega)

/-- A part of a text in which nothing is hidden is not changed by blanking. -/
theorem slice_mask {hidden : Nat → Bool} {span : Span} {data : Bytes}
    (hshown : ∀ offset : Nat, span.has offset = true → hidden offset = false) :
    span.slice (mask hidden 0 data) = span.slice data := by
  apply List.ext_getElem? fun index => ?_
  simp only [Span.slice, List.getElem?_take, List.getElem?_drop, getElem?_mask, Nat.zero_add]
  split
  next hindex =>
    have hhas : span.has (span.first.toNat + index : Nat) = true := by
      rw [Span.has_iff]
      omega
    rw [hshown _ hhas]
    simp
  next => rfl

theorem blank_eq_mask (spans : List Span) (data : Bytes) :
    data.blank spans = mask (Span.cover spans) 0 data := by
  apply List.ext_getElem? fun index => ?_
  rw [getElem?_blank, getElem?_mask, Nat.zero_add]
  rfl

theorem blankMarks_eq_mask (marks : List Mark) (data : Bytes) :
    data.blankMarks marks = mask (Span.cover (marks.map (·.toSpan))) 0 data :=
  blank_eq_mask _ _

end Bytes

end CDelta

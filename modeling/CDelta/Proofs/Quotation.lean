import CDelta.Literal
import Mathlib.Data.List.Induction

/-! # Where a literal ends

The end of a literal can be searched from quote to quote, counting the backslashes in front of
each, or byte by byte, stepping over the byte behind a backslash. Both ways come to the same end
as the one pass that carries along whether the next byte is escaped: behind any bytes, it is when
an odd number of backslashes stands at their end.
-/

namespace CDelta

namespace Bytes

/-- The byte at an index; below zero, the index counts from the end. -/
def byteAt? (data : Bytes) (index : Int) : Option UInt8 :=
  if 0 ≤ index then data[index.toNat]?
  else if 0 ≤ data.length + index then data[(data.length + index).toNat]?
  else none

/-- The offset one past an index, where a search behind it begins. Below zero it counts from the
end, so that the text begins behind the last of its bytes. -/
def behind (data : Bytes) (index : Int) : Nat :=
  if 0 ≤ index + 1 then (index + 1).toNat else (data.length + (index + 1)).toNat

/-- One past the first quote from an offset on, where a backslash and the byte behind it are
stepped over; the length of the text when there is none. -/
def skippedEnd (data : Bytes) (quote : UInt8) (offset : Nat) : Nat :=
  if hoffset : offset < data.length then
    if data[offset] = Byte.backslash then skippedEnd data quote (offset + 2)
    else if data[offset] = quote then offset + 1
    else skippedEnd data quote (offset + 1)
  else data.length
termination_by data.length - offset

/-- The number of backslashes side by side from the index `last` backwards, all behind `index`. -/
def backslashesTo (data : Bytes) (index last : Int) : Nat :=
  if index < last ∧ data.byteAt? last = some Byte.backslash then
    backslashesTo data index (last - 1) + 1
  else 0
termination_by (last - index).toNat

/-- One past the first quote from an offset on that stands behind an even number of backslashes,
counted no further back than to an index; the length of the text when there is none. -/
def countedEnd (data : Bytes) (index : Int) (quote : UInt8) (offset : Nat) : Nat :=
  match hfound : (data.drop offset).idxOf? quote with
  | none => data.length
  | some distance =>
    let found := offset + distance
    if data.backslashesTo index (found - 1) % 2 = 0 then found + 1
    else countedEnd data index quote (found + 1)
termination_by data.length - offset
decreasing_by
  obtain ⟨hdistance, _⟩ := List.idxOf?_eq_some_iff.mp hfound
  rw [List.length_drop] at hdistance
  omega

theorem escapesNext_concat (bytes : Bytes) (byte : UInt8) :
    escapesNext (bytes ++ [byte]) = (byte = Byte.backslash && !escapesNext bytes) := by
  simp [escapesNext]

/-- Bytes without a quote belong to the literal, and only decide whether the next one is
escaped. -/
theorem literalRest_append {quote : UInt8} {gap : Bytes} (hgap : quote ∉ gap)
    (before rest : Bytes) :
    literalRest quote (escapesNext before) (gap ++ rest) =
      gap.length + literalRest quote (escapesNext (before ++ gap)) rest := by
  induction gap generalizing before with
  | nil => simp
  | cons byte gap ih =>
      obtain ⟨hbyte, hgap⟩ := not_or.mp (List.mem_cons.not.mp hgap)
      have hrest := ih hgap (before ++ [byte])
      rw [escapesNext_concat, List.append_assoc, List.singleton_append] at hrest
      rw [List.cons_append, literalRest, if_neg (by simp [Ne.symm hbyte]), hrest,
        List.length_cons]
      omega

/-- A quote that is escaped belongs to the literal, and escapes nothing itself. -/
theorem literalRest_quote {quote : UInt8} (hslash : quote ≠ Byte.backslash) (escaped : Bool)
    (rest : Bytes) :
    literalRest quote escaped (quote :: rest) =
      if escaped then 1 + literalRest quote false rest else 1 := by
  cases escaped <;> simp [literalRest, hslash]

/-- Where the next quote stands, the literal ends, or goes on behind it if it is escaped. -/
theorem literalRest_to_quote {quote : UInt8} (hslash : quote ≠ Byte.backslash) {gap : Bytes}
    (hgap : quote ∉ gap) (before tail : Bytes) :
    literalRest quote (escapesNext before) (gap ++ quote :: tail) =
      gap.length + if escapesNext (before ++ gap) then
        1 + literalRest quote (escapesNext (before ++ gap ++ [quote])) tail else 1 := by
  have hfree : escapesNext (before ++ gap ++ [quote]) = false := by
    rw [escapesNext_concat]
    simp [hslash]
  rw [literalRest_append hgap, literalRest_quote hslash, hfree]

/-- An escaped byte belongs to the literal, whatever it is. -/
theorem literalRest_escaped (quote : UInt8) (rest : Bytes) :
    literalRest quote true rest = min 1 rest.length + literalRest quote false (rest.drop 1) := by
  cases rest with
  | nil => rfl
  | cons byte rest => simp [literalRest]

theorem skippedEnd_eq {quote : UInt8} (hslash : quote ≠ Byte.backslash) (data : Bytes)
    (offset : Nat) :
    data.skippedEnd quote offset =
      min offset data.length + literalRest quote false (data.drop offset) := by
  fun_induction skippedEnd data quote offset with
  | case1 offset hoffset hbyte ih =>
      rw [ih, List.drop_eq_getElem_cons hoffset, hbyte, literalRest,
        if_neg (by simp [Ne.symm hslash])]
      simp only [decide_true, Bool.not_false, Bool.and_self, literalRest_escaped,
        List.length_drop, List.drop_drop, Nat.add_assoc, Nat.reduceAdd]
      omega
  | case2 offset hoffset hbyte hquote =>
      rw [List.drop_eq_getElem_cons hoffset, hquote, literalRest_quote hslash,
        Nat.min_eq_left (Nat.le_of_lt hoffset)]
      rfl
  | case3 offset hoffset hbyte hquote ih =>
      rw [ih, List.drop_eq_getElem_cons hoffset, literalRest, if_neg (by simp [hquote])]
      simp only [hbyte, decide_false, Bool.false_and]
      omega
  | case4 offset hoffset =>
      rw [List.drop_eq_nil_of_le (Nat.not_lt.mp hoffset), literalRest, Nat.add_zero,
        Nat.min_eq_right (Nat.not_lt.mp hoffset)]

section Index

variable {data : Bytes} {index : Int} {quote : UInt8}

theorem byteAt?_natCast (data : Bytes) (offset : Nat) : data.byteAt? offset = data[offset]? := by
  rw [byteAt?, if_pos (Int.natCast_nonneg offset), Int.toNat_natCast]

/-- An index with a byte is the offset of that byte, or as far below zero as the byte is in front
of the end; behind the last byte, counted so, the text begins. -/
theorem byteAt?_cases (hbyte : data.byteAt? index = some quote) :
    ∃ place : Nat, data[place]? = some quote ∧
      (index = place ∧ data.behind index = place + 1 ∨
        index + data.length = place ∧ index < 0 ∧
          data.behind index = if index = -1 then 0 else place + 1) := by
  unfold byteAt? at hbyte
  unfold behind
  split_ifs at hbyte with hindex hend
  · refine ⟨_, hbyte, .inl ⟨(Int.toNat_of_nonneg hindex).symm, ?_⟩⟩
    rw [if_pos (by omega)]
    omega
  · refine ⟨_, hbyte, .inr ⟨by omega, by omega, ?_⟩⟩
    split_ifs <;> omega

theorem lt_behind (hbyte : data.byteAt? index = some quote) : index < data.behind index := by
  obtain ⟨place, _, ⟨hplace, hbehind⟩ | ⟨hplace, hneg, hbehind⟩⟩ := byteAt?_cases hbyte
  · omega
  · omega

theorem behind_le_length (hbyte : data.byteAt? index = some quote) :
    data.behind index ≤ data.length := by
  obtain ⟨place, hquote, hcases⟩ := byteAt?_cases hbyte
  have hlt : place < data.length := (List.getElem?_eq_some_iff.mp hquote).1
  rcases hcases with ⟨_, hbehind⟩ | ⟨_, _, hbehind⟩
  · omega
  · split_ifs at hbehind <;> omega

/-- The count of backslashes ends at the opening quote. -/
theorem backslashesTo_behind (hbyte : data.byteAt? index = some quote)
    (hslash : quote ≠ Byte.backslash) : data.backslashesTo index (data.behind index - 1) = 0 := by
  rw [backslashesTo, if_neg]
  rintro ⟨hlt, hlast⟩
  obtain ⟨place, hquote, ⟨hplace, hbehind⟩ | ⟨hplace, hneg, hbehind⟩⟩ := byteAt?_cases hbyte
  · omega
  · split_ifs at hbehind with hend
    · omega
    · have hopening : (data.behind index : Int) - 1 = (place : Nat) := by omega
      rw [hopening, byteAt?_natCast, hquote] at hlast
      exact hslash (Option.some.inj hlast)

/-- The byte behind some bytes of a literal is escaped when the backslashes at their end are odd
in number. -/
theorem escapesNext_eq_odd (hbyte : data.byteAt? index = some quote)
    (hslash : quote ≠ Byte.backslash) {before rest : Bytes}
    (hsplit : data.drop (data.behind index) = before ++ rest) :
    escapesNext before = decide
      (data.backslashesTo index ((data.behind index + before.length : Nat) - 1) % 2 = 1) := by
  induction before using List.reverseRecOn generalizing rest with
  | nil => simp [backslashesTo_behind hbyte hslash, escapesNext]
  | append_singleton before byte ih =>
      rw [List.append_assoc, List.singleton_append] at hsplit
      have hlast : data.byteAt? (data.behind index + before.length : Nat) = some byte := by
        rw [byteAt?_natCast, ← List.getElem?_drop, hsplit]
        simp
      have hplace : ((data.behind index + (before ++ [byte]).length : Nat) : Int) - 1 =
          (data.behind index + before.length : Nat) := by
        rw [List.length_append, List.length_singleton]
        omega
      have hlt := lt_behind hbyte
      rw [escapesNext_concat, hplace, backslashesTo, hlast, ih hsplit]
      by_cases hsame : byte = Byte.backslash
      · rw [if_pos ⟨by omega, by rw [hsame]⟩, hsame]
        simp only [decide_true, Bool.true_and, ← decide_not, decide_eq_decide]
        omega
      · rw [if_neg (by simp [hsame])]
        simp [hsame]

theorem split_of_idxOf? {bytes : Bytes} {distance : Nat}
    (hfound : bytes.idxOf? quote = some distance) :
    ∃ gap tail, bytes = gap ++ quote :: tail ∧ quote ∉ gap ∧ gap.length = distance := by
  obtain ⟨hlt, hquote, hnone⟩ := List.idxOf?_eq_some_iff.mp hfound
  refine ⟨bytes.take distance, bytes.drop (distance + 1), ?_, ?_, List.length_take_of_le (by omega)⟩
  · rw [← hquote, ← List.drop_eq_getElem_cons, List.take_append_drop]
  · intro hmem
    obtain ⟨place, hplace, heq⟩ := List.mem_take_iff_getElem.mp hmem
    exact hnone place (by omega) heq

theorem countedEnd_eq (hbyte : data.byteAt? index = some quote)
    (hslash : quote ≠ Byte.backslash) {before rest : Bytes}
    (hsplit : data.drop (data.behind index) = before ++ rest) :
    data.countedEnd index quote (data.behind index + before.length) =
      data.behind index + before.length + literalRest quote (escapesNext before) rest := by
  have hrest : data.drop (data.behind index + before.length) = rest := by
    rw [← List.drop_drop, hsplit, List.drop_left]
  have hlength : data.length = data.behind index + before.length + rest.length := by
    have hle := behind_le_length hbyte
    have hboth := congrArg List.length hsplit
    rw [List.length_drop, List.length_append] at hboth
    omega
  rw [countedEnd]
  split
  next hnone =>
    rw [hrest, List.idxOf?_eq_none_iff] at hnone
    have hall := literalRest_append hnone before []
    rw [List.append_nil, literalRest, Nat.add_zero] at hall
    rw [hall, hlength]
  next distance hfound =>
    rw [hrest] at hfound
    obtain ⟨gap, tail, hfront, hgap, rfl⟩ := split_of_idxOf? hfound
    have hshorter : tail.length < rest.length := by
      rw [hfront, List.length_append, List.length_cons]
      omega
    have hquote : data.drop (data.behind index) = before ++ gap ++ quote :: tail := by
      rw [hsplit, hfront, List.append_assoc]
    have hodd := escapesNext_eq_odd hbyte hslash hquote
    rw [List.length_append, ← Nat.add_assoc] at hodd
    rw [hfront, literalRest_to_quote hslash hgap]
    by_cases heven : data.backslashesTo index
        ((data.behind index + before.length + gap.length : Nat) - 1) % 2 = 0
    · have hfree : escapesNext (before ++ gap) = false := by
        rw [hodd, heven]
        rfl
      rw [if_pos heven, hfree, if_neg Bool.false_ne_true]
      omega
    · have hescaped : escapesNext (before ++ gap) = true := by
        rw [hodd, decide_eq_true_eq]
        omega
      have htail : data.drop (data.behind index) = before ++ gap ++ [quote] ++ tail := by
        rw [hquote, List.append_cons]
      have hnext := countedEnd_eq hbyte hslash htail
      simp only [List.length_append, List.length_singleton, ← Nat.add_assoc] at hnext
      rw [if_neg heven, if_pos hescaped, hnext]
      omega
termination_by rest.length

theorem literalEndAt?_eq (hbyte : data.byteAt? index = some quote)
    (hslash : quote ≠ Byte.backslash) :
    data.literalEndAt? index =
      some (data.behind index + literalRest quote false (data.drop (data.behind index))) := by
  obtain ⟨place, hquote, hcases⟩ := byteAt?_cases hbyte
  obtain ⟨hlt, heq⟩ := List.getElem?_eq_some_iff.mp hquote
  have hdrop : data.drop place = quote :: data.drop (place + 1) := by
    rw [List.drop_eq_getElem_cons hlt, heq]
  unfold literalEndAt?
  rcases hcases with ⟨rfl, hbehind⟩ | ⟨hplace, hneg, hbehind⟩
  · rw [if_pos (Int.natCast_nonneg place), literalEnd?, Int.toNat_natCast, hdrop, hbehind]
  · have hback : data.length - (-index).toNat = place := by omega
    have hstart : (if (-index).toNat = 1 then 0 else place + 1) = data.behind index := by
      rw [hbehind]
      split_ifs <;> omega
    -- the bytes in front of the search are none, or end with the opening quote
    have hfree : escapesNext (data.drop (place + 1) ++ data.take (data.behind index)) = false := by
      rw [hbehind]
      split_ifs with hend
      · rw [List.drop_eq_nil_of_le (by omega)]
        rfl
      · rw [List.take_succ_eq_append_getElem hlt, heq, ← List.append_assoc, escapesNext_concat]
        simp [hslash]
    rw [if_neg (by omega), literalEndFromEnd?, if_neg (by simp; omega)]
    simp only [hback, Nat.add_sub_cancel, hquote, Option.map_some, hstart, hfree]

end Index

end Bytes

/-- Where a byte other than a backslash stands, at an offset or at an index from the end, the
literal that it opens ends one past the next such byte that a search from left to right meets when
it steps over every backslash with the byte behind it, and at the end of the text when it meets
none. Going from one such byte to the next and counting backslashes comes to the same end. -/
theorem literal_end_by_steps_and_by_counts {data : Bytes} {index : Int} {quote : UInt8}
    (hbyte : data.byteAt? index = some quote) (hslash : quote ≠ Byte.backslash) :
    data.literalEndAt? index = some (data.skippedEnd quote (data.behind index)) ∧
      data.countedEnd index quote (data.behind index) =
        data.skippedEnd quote (data.behind index) := by
  have hcounted := Bytes.countedEnd_eq hbyte hslash (List.nil_append _).symm
  have hskipped := Bytes.skippedEnd_eq hslash data (data.behind index)
  rw [Nat.min_eq_left (Bytes.behind_le_length hbyte)] at hskipped
  rw [Bytes.literalEndAt?_eq hbyte hslash, hskipped]
  exact ⟨rfl, hcounted⟩

/-- The opening quote stands behind a backslash, three backslashes escape the second quote, and two
escape each other in front of the third, which ends the literal. -/
theorem literal_end_by_steps_and_by_counts_two_runs :
    let data := Bytes.ofChars "\\\"\\\\\\\"\\\\\"x\"".toList
    data.byteAt? 1 = some Byte.doubleQuote ∧ Byte.doubleQuote ≠ Byte.backslash ∧
      data.literalEndAt? 1 = some 9 ∧ data.skippedEnd Byte.doubleQuote 2 = 9 ∧
      data.countedEnd 1 Byte.doubleQuote 2 = 9 := by
  intro data
  have hbyte : data.byteAt? 1 = some Byte.doubleQuote := by decide
  have hslash : Byte.doubleQuote ≠ Byte.backslash := by decide
  have hend : data.literalEndAt? 1 = some 9 := by decide
  obtain ⟨hskipped, hcounted⟩ := literal_end_by_steps_and_by_counts hbyte hslash
  have hnine : data.skippedEnd Byte.doubleQuote 2 = 9 := Option.some.inj (hskipped.symm.trans hend)
  exact ⟨hbyte, hslash, hend, hnine, hcounted.trans hnine⟩

end CDelta

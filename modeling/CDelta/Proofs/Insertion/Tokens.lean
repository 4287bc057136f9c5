import CDelta.Mark
import CDelta.Proofs.Token

/-! # Blanks between tokens

Blanks inserted into a text where no token reaches across move the tokens behind them and
change nothing else. A span moves with its ends; one that begins where the blanks are
inserted may also widen to take them in.
-/

namespace CDelta

namespace Bytes

/-- Where the byte at an offset comes to stand when `size` bytes are inserted at the offset
`spot`. -/
def moved (spot size offset : Nat) : Nat :=
  if offset < spot then offset else offset + size

theorem moved_of_lt {spot offset : Nat} (hlt : offset < spot) (size : Nat) :
    moved spot size offset = offset :=
  if_pos hlt

theorem moved_of_le {spot offset : Nat} (hle : spot ≤ offset) (size : Nat) :
    moved spot size offset = offset + size :=
  if_neg (Nat.not_lt.mpr hle)

end Bytes

namespace Span

/-- Where an offset comes to lie when `size` bytes are inserted at the offset `spot`. -/
def moved (spot size : Nat) (offset : Int) : Int :=
  if offset < spot then offset else offset + size

/-- The span with its ends moved. -/
def relocate (place : Int → Int) (span : Span) : Span :=
  ⟨place span.first, place span.last⟩

/-- The span when `size` bytes are inserted at the offset `spot`. A span that begins there
takes them in. -/
def widen (spot size : Nat) (span : Span) : Span :=
  ⟨moved (spot + 1) size span.first, moved spot size span.last⟩

theorem moved_of_lt {spot : Nat} {offset : Int} (hlt : offset < spot) (size : Nat) :
    moved spot size offset = offset :=
  if_pos hlt

theorem moved_of_le {spot : Nat} {offset : Int} (hle : spot ≤ offset) (size : Nat) :
    moved spot size offset = offset + size :=
  if_neg (Int.not_lt.mpr hle)

variable (spot size : Nat)

theorem natCast_moved (offset : Nat) :
    ((Bytes.moved spot size offset : Nat) : Int) = moved spot size offset := by
  unfold Bytes.moved moved
  split
  next hlt => rw [if_pos (by omega)]
  next hle => rw [if_neg (by omega), Int.natCast_add]

theorem moved_le_moved_iff {first second : Int} :
    moved spot size first ≤ moved spot size second ↔ first ≤ second := by
  unfold moved
  split <;> split <;> omega

@[simp]
theorem has_relocate_moved (span : Span) (offset : Int) :
    (span.relocate (moved spot size)).has (moved spot size offset) = span.has offset := by
  rw [Bool.eq_iff_iff, has_iff, has_iff]
  exact and_congr (moved_le_moved_iff spot size) (moved_le_moved_iff spot size)

@[simp]
theorem has_widen (span : Span) (offset : Int) :
    (span.widen spot size).has (moved spot size offset) = span.has offset := by
  rw [Bool.eq_iff_iff, has_iff, has_iff]
  refine and_congr ?_ (moved_le_moved_iff spot size)
  simp only [widen, moved]
  split <;> split <;> omega

end Span

/-- The mark with its span moved. -/
def Mark.map (move : Span → Span) (mark : Mark) : Mark :=
  ⟨move mark.toSpan, mark.kind⟩

namespace Token

open Bytes (moved moved_of_lt moved_of_le)

theorem scan_shift (start distance : Nat) (rest : Bytes) :
    scan (start + distance) rest = (scan start rest).map (·.relocate (· + distance)) := by
  cases hnext : next? start rest with
  | none =>
      have hblank := next?_eq_none_iff.mp hnext
      rw [scan_of_blank hblank, scan_of_blank hblank, List.map_nil]
  | some found =>
      obtain ⟨token, after⟩ := found
      have hshorter := length_lt_of_next? hnext
      have hmoved : next? (start + distance) rest =
          some (token.relocate (· + distance), after) := by
        rw [next?_shift, hnext]
        rfl
      have hplace : (token.relocate (· + distance)).last + 1 = token.last + 1 + distance :=
        Nat.add_right_comm _ _ _
      rw [scan_of_next? hmoved, scan_of_next? hnext, hplace, scan_shift (token.last + 1),
        List.map_cons]
termination_by rest.length

/-- Of two tokens one ends in front of the other, or they are the same. -/
theorem apart_of_mem_scan {start : Nat} {rest : Bytes} {token other : Token}
    (htoken : token ∈ scan start rest) (hother : other ∈ scan start rest) :
    other.last < token.first ∨ other = token ∨ token.last < other.first := by
  obtain ⟨front, back, hsplit⟩ := List.append_of_mem htoken
  have hpairwise := pairwise_scan start rest
  rw [hsplit, List.pairwise_append, List.pairwise_cons] at hpairwise
  obtain ⟨_, ⟨hback, _⟩, hfront⟩ := hpairwise
  rw [hsplit, List.mem_append, List.mem_cons] at hother
  rcases hother with hother | hother | hother
  · exact .inl (hfront other hother token List.mem_cons_self)
  · exact .inr (.inl hother)
  · exact .inr (.inr (hback other hother))

/-- No token reaches across the beginning of another. -/
theorem clear_of_mem_scan {start : Nat} {rest : Bytes} {token other : Token}
    (htoken : token ∈ scan start rest) (hother : other ∈ scan start rest) :
    other.last < token.first ∨ token.first ≤ other.first := by
  obtain ⟨_, _, _, _, _, _, hle, _⟩ := mem_scan htoken
  rcases apart_of_mem_scan htoken hother with hbefore | rfl | hbehind
  · exact .inl hbefore
  · exact .inr (Nat.le_refl _)
  · exact .inr (Nat.le_trans hle (Nat.le_of_lt hbehind))

/-- No token reaches across the end of another. -/
theorem clear_behind_of_mem_scan {start : Nat} {rest : Bytes} {token other : Token}
    (htoken : token ∈ scan start rest) (hother : other ∈ scan start rest) :
    other.last < token.last + 1 ∨ token.last + 1 ≤ other.first := by
  obtain ⟨_, _, _, _, _, _, hle, _⟩ := mem_scan htoken
  rcases apart_of_mem_scan htoken hother with hbefore | rfl | hbehind
  · exact .inl (Nat.lt_succ_of_lt (Nat.lt_of_lt_of_le hbefore hle))
  · exact .inl (Nat.lt_succ_self _)
  · exact .inr hbehind

/-- The tokens of two texts that meet behind a newline are those of each. -/
theorem scan_append {front back : Bytes}
    (hends : front ≠ [] → back ≠ [] → front.getLast? = some Byte.newline) (start : Nat) :
    scan start (front ++ back) = scan start front ++ scan (start + front.length) back := by
  have hnil : ∀ start, scan start [] = [] := fun start => scan_of_blank nofun
  by_cases hfront : front = []
  · rw [hfront, hnil]
    rfl
  by_cases hback : back = []
  · rw [hback, hnil, List.append_nil, List.append_nil]
  · obtain ⟨line, rfl⟩ := List.getLast?_eq_some_iff.mp (hends hfront hback)
    rw [List.append_assoc, List.singleton_append, scan_newline, scan_newline, hnil,
      List.append_nil, List.length_append, List.length_singleton, Nat.add_assoc]

/-- Blanks behind a token do not change it. -/
theorem next?_insert {start : Nat} {front back kept : Bytes} {token : Token}
    (hnext : next? start (front ++ back) = some (token, kept ++ back)) {gap : Bytes}
    (hgap : Blank gap) :
    next? start (front ++ (gap ++ back)) = some (token, kept ++ (gap ++ back)) := by
  -- a byte that is not blank shields the token from what follows it
  by_cases hkept : ∃ byte ∈ kept, isBlank byte = false
  · exact next?_congr_after hnext hkept _
  by_cases hnone : gap = []
  · rwa [hnone]
  have hblank : Blank kept := by
    intro byte hbyte
    by_contra hnot
    exact hkept ⟨byte, hbyte, by simpa using hnot⟩
  have hends : ∀ byte ∈ (kept ++ (gap ++ back)).head?, isDelimiter byte = true := by
    intro byte hbyte
    obtain ⟨first, more, rfl⟩ := List.exists_cons_of_ne_nil hnone
    cases kept with
    | nil =>
        obtain rfl : first = byte := by simpa using hbyte
        exact isDelimiter_of_isBlank (hgap first List.mem_cons_self)
    | cons other kept =>
        obtain rfl : other = byte := by simpa using hbyte
        exact isDelimiter_of_isBlank (hblank other List.mem_cons_self)
  rcases next?_eq_some_iff.mp hnext with
    ⟨hbasic, halone⟩ | ⟨left, tail, right, hleft, hright, hjoins, rfl⟩
  · obtain ⟨before, hbefore, hsplit, htext, hplace⟩ := basic?_eq_some_iff.mp hbasic
    have hfront : front = before ++ (token.text ++ kept) := by
      have hcancel : front ++ back = before ++ (token.text ++ kept) ++ back := by
        simpa using hsplit
      exact List.append_cancel_right hcancel
    refine next?_eq_some_iff.mpr
      (.inl ⟨basic?_eq_some_iff.mpr ⟨before, hbefore, by simp [hfront], ?_, hplace⟩, ?_⟩)
    · exact htext.congr_after fun _ => hends
    · intro right behind hright
      -- the next basic token is the one that followed before, further behind
      rw [basic?_blank_append hblank, basic?_blank_append hgap, basic?_shift] at hright
      obtain ⟨⟨other, rest⟩, hother, heq⟩ := Option.map_eq_some_iff.mp hright
      obtain ⟨rfl, rfl⟩ := Prod.mk.inj heq
      rw [← basic?_blank_append hblank] at hother
      have hapart := halone other rest hother
      rw [takeWhile_blank_append hblank] at hapart
      rw [takeWhile_blank_append hblank, takeWhile_blank_append hgap]
      unfold joins at hapart ⊢
      split
      next hhash =>
        rw [if_pos hhash] at hapart
        simp only [relocate, Bool.and_eq_false_iff, Bool.not_eq_false', List.contains_eq_mem,
          List.mem_append, decide_eq_true_eq] at hapart ⊢
        exact hapart.imp_right fun hnewline => hnewline.imp_right .inr
      next =>
        rw [Bool.and_eq_false_iff]
        exact .inl (by simp [hnone])
  · exact next?_join_congr hleft hright hjoins fun _ => hends

/-- Blanks inserted where no token reaches across move the tokens behind them. -/
theorem scan_insert {gap : Bytes} (hgap : Blank gap) (start : Nat) (front back : Bytes)
    (hclear : ∀ token ∈ scan start (front ++ back),
      token.last < start + front.length ∨ start + front.length ≤ token.first) :
    scan start (front ++ (gap ++ back)) =
      (scan start (front ++ back)).map
        (·.relocate (moved (start + front.length) gap.length)) := by
  have hblanks : Blank front → scan start (front ++ (gap ++ back)) =
      (scan start (front ++ back)).map
        (·.relocate (moved (start + front.length) gap.length)) := by
    intro hblank
    rw [scan_blank_append hblank, scan_blank_append hgap, scan_blank_append hblank, scan_shift]
    refine List.map_congr_left fun token htoken => ?_
    obtain ⟨index, _, hfirst, _, _, _, hle, _⟩ := mem_scan htoken
    rw [relocate, relocate, moved_of_le (by omega), moved_of_le (by omega)]
  cases hnext : next? start (front ++ back) with
  | none =>
      refine hblanks fun byte hbyte => ?_
      exact next?_eq_none_iff.mp hnext byte (List.mem_append_left _ hbyte)
  | some found =>
      obtain ⟨token, after⟩ := found
      obtain ⟨before, byte, more, hbefore, _, _, hsplit, hfirst, hlast⟩ := next?_place hnext
      rw [scan_of_next? hnext] at hclear
      rcases hclear token List.mem_cons_self with hinside | houtside
      · -- the token ends in front of the blanks
        have hrest : front ++ back = before ++ byte :: more ++ after := by simpa using hsplit
        have hprefix : before ++ byte :: more <+: front := by
          refine List.prefix_of_prefix_length_le ⟨after, hrest.symm⟩ ⟨back, rfl⟩ ?_
          rw [List.length_append, List.length_cons]
          omega
        obtain ⟨kept, hfront⟩ := hprefix
        obtain rfl : kept ++ back = after := by
          rw [← hfront, List.append_assoc] at hrest
          exact List.append_cancel_left hrest
        have hshorter : kept.length < front.length := by
          rw [← hfront]
          simp only [List.length_append, List.length_cons]
          omega
        have hplace : token.last + 1 + kept.length = start + front.length := by
          rw [← hfront]
          simp only [List.length_append, List.length_cons]
          omega
        have hbehind := scan_insert hgap (token.last + 1) kept back fun other hother => by
          rw [hplace]
          exact hclear other (List.mem_cons_of_mem _ hother)
        rw [scan_of_next? (next?_insert hnext hgap), scan_of_next? hnext, hbehind, hplace,
          List.map_cons]
        congr 1
        rw [relocate, moved_of_lt (by omega), moved_of_lt hinside]
      · -- the first token stands behind the blanks, so nothing but blanks stands in front
        refine hblanks fun other hother => hbefore other ?_
        have hprefix : front <+: before := by
          refine List.prefix_of_prefix_length_le ⟨back, rfl⟩ ?_ (by omega)
          exact ⟨byte :: (more ++ after), hsplit.symm⟩
        exact hprefix.subset hother
termination_by front.length

end Token

end CDelta

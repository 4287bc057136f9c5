import CDelta.Proofs.Fingerprint
import CDelta.Proofs.Lexing

/-! # Comparing in step

Comparing two regions is walking through them in step: first literal by literal, and if the
literals agree, byte by byte past the blanks of either side. A side that has come to its end
stands at the end of its region. Literals and bytes are in the order of the text, so what the
walk comes by can be found by searching for the two ends of the region. Nothing differs exactly
when the fingerprints are equal, and it does not matter which side comes first.
-/

namespace CDelta

namespace View

variable {rule : CommentRule} {source : Bytes} {excluded : List Span} {view : View}

theorem ofSource_eq_ok_iff :
    ofSource rule source excluded = .ok view ↔
      ∃ marks, source.marks rule .everything = .ok marks ∧
        view = ofMarks source marks excluded := by
  rw [ofSource]
  cases source.marks rule .everything with
  | error fault => simp [Except.map]
  | ok marks => simp [Except.map, eq_comm]

theorem separates_literals (hview : ofSource rule source excluded = .ok view) :
    source.Separates view.literals := by
  obtain ⟨marks, hmarks, rfl⟩ := ofSource_eq_ok_iff.mp hview
  exact ((Piece.separates_of_marks hmarks).filter _).filter _

/-- The literals of a file are not empty and lie in its text. -/
theorem bounds_of_mem_literals (hview : ofSource rule source excluded = .ok view) {mark : Mark}
    (hmem : mark ∈ view.literals) :
    0 ≤ mark.first ∧ mark.first ≤ mark.last ∧ mark.last < source.length :=
  (separates_literals hview).inside mark hmem

theorem has_of_mem_literalsIn (hview : ofSource rule source excluded = .ok view) {region : Span}
    {mark : Mark} (hmem : mark ∈ view.literalsIn region) : region.has mark.first = true := by
  obtain ⟨hliteral, hinside⟩ := List.mem_filter.mp hmem
  have hbounds := bounds_of_mem_literals hview hliteral
  simp only [Span.contains, Bool.and_eq_true, decide_eq_true_eq] at hinside
  rw [Span.has_iff]
  omega

theorem pairwise_literals (hview : ofSource rule source excluded = .ok view) :
    view.literals.Pairwise fun earlier later => earlier.first < later.first :=
  (separates_literals hview).apart.imp And.left

theorem source_of_ofSource (hview : ofSource rule source excluded = .ok view) :
    view.source = source := by
  obtain ⟨marks, _, rfl⟩ := ofSource_eq_ok_iff.mp hview
  rfl

theorem length_data (hview : ofSource rule source excluded = .ok view) :
    view.data.length = source.length := by
  obtain ⟨marks, _, rfl⟩ := ofSource_eq_ok_iff.mp hview
  simp [ofMarks, Bytes.blankMarks]

theorem pairwise_significant (view : View) :
    view.significant.Pairwise fun earlier later => earlier.2 < later.2 := by
  have hnumbered : (view.data.zipIdx.map (·.2)).Pairwise (· < ·) := by
    rw [List.zipIdx_map_snd]
    exact List.pairwise_lt_range'
  exact (List.pairwise_map.mp hnumbered).filter _

theorem has_of_mem_significantIn {region : Span} {element : UInt8 × Nat}
    (hmem : element ∈ view.significantIn region) : region.has element.2 = true := by
  rw [significantIn_eq_filter] at hmem
  exact (List.mem_filter.mp hmem).2

end View

/-! ## Searching -/

/-- A search for the first element that is not before some place ends at the position: the
elements in front of it are before the place, and no other is. -/
def FoundAt {α : Type} (before : α → Prop) (list : List α) (position : Nat) : Prop :=
  (∀ element ∈ list.take position, before element) ∧
    ∀ element ∈ list.drop position, ¬ before element

/-- Every search has an end when no element that is before the place stands behind one that is
not. -/
theorem FoundAt.exists_position {α : Type} (before : α → Prop) {list : List α}
    (hsorted : list.Pairwise fun earlier later => before later → before earlier) :
    ∃ position, FoundAt before list position := by
  induction list with
  | nil => exact ⟨0, by simp [FoundAt]⟩
  | cons head rest ih =>
      obtain ⟨hhead, hrest⟩ := List.pairwise_cons.mp hsorted
      by_cases hbefore : before head
      · obtain ⟨position, hfront, hback⟩ := ih hrest
        refine ⟨position + 1, ?_, ?_⟩
        · rw [List.take_succ_cons]
          exact List.forall_mem_cons.mpr ⟨hbefore, hfront⟩
        · rwa [List.drop_succ_cons]
      · refine ⟨0, by simp, ?_⟩
        rw [List.drop_zero]
        exact List.forall_mem_cons.mpr
          ⟨hbefore, fun element helement hlater => hbefore (hhead element helement hlater)⟩

namespace Span

/-- The searches for the two ends of a region, among elements that have a place each. -/
structure Window {α : Type} (region : Span) (place : α → Int) (list : List α)
    (low high : Nat) : Prop where
  low : FoundAt (place · < region.first) list low
  high : FoundAt (place · ≤ region.last) list high

namespace Window

variable {α : Type} {region : Span} {place : α → Int} {list : List α} {low high : Nat}

theorem exists_of_sorted (region : Span)
    (hsorted : list.Pairwise fun earlier later => place earlier < place later) :
    ∃ low high, region.Window place list low high := by
  obtain ⟨low, hlow⟩ := FoundAt.exists_position (place · < region.first)
    (hsorted.imp fun hlt hlater => Int.lt_trans hlt hlater)
  obtain ⟨high, hhigh⟩ := FoundAt.exists_position (place · ≤ region.last)
    (hsorted.imp fun hlt hlater => Int.le_trans (Int.le_of_lt hlt) hlater)
  exact ⟨low, high, hlow, hhigh⟩

theorem has_place (hwindow : region.Window place list low high) {element : α}
    (helement : element ∈ (list.take high).drop low) : region.has (place element) = true := by
  have hhigh := hwindow.high.1 element (List.mem_of_mem_drop helement)
  rw [List.drop_take] at helement
  have hlow := hwindow.low.2 element (List.mem_of_mem_take helement)
  rw [has_iff]
  omega

/-- What is kept of a list stands in the window when only elements of the region are kept. -/
theorem filter_eq (hwindow : region.Window place list low high) {keep : α → Bool}
    (hkeep : ∀ element ∈ list, keep element = true → region.has (place element) = true) :
    ((list.take high).drop low).filter keep = list.filter keep := by
  have hback : (list.drop high).filter keep = [] := by
    refine List.filter_eq_nil_iff.mpr fun element helement hkept => ?_
    have hbehind := hwindow.high.2 element helement
    have hhas := hkeep element (List.mem_of_mem_drop helement) hkept
    exact hbehind (has_iff.mp hhas).2
  have hfront : ((list.take high).take low).filter keep = [] := by
    refine List.filter_eq_nil_iff.mpr fun element helement hkept => ?_
    rw [List.take_take, Nat.min_comm, ← List.take_take] at helement
    have htaken := List.mem_of_mem_take helement
    have hbefore := hwindow.low.1 element htaken
    have hhas := has_iff.mp (hkeep element (List.mem_of_mem_take htaken) hkept)
    omega
  calc
    ((list.take high).drop low).filter keep
      = ((list.take high).take low ++ (list.take high).drop low).filter keep := by
        rw [List.filter_append, hfront, List.nil_append]
    _ = (list.take high ++ list.drop high).filter keep := by
        rw [List.take_append_drop, List.filter_append, hback, List.append_nil]
    _ = list.filter keep := by rw [List.take_append_drop]

end Window

end Span

namespace View

/-- Searches for the two ends of a region find what is seen of it: its literals are among those
that begin in it, and its other bytes stand next to each other. -/
structure Searched (view : View) (region : Span) : Prop where
  literals : ∃ low high,
    region.Window (fun literal : Mark => literal.first) view.literals low high ∧
      view.literalsIn region =
        ((view.literals.take high).drop low).filter (region.contains ·.toSpan)
  significant : ∃ low high,
    region.Window (fun element : UInt8 × Nat => (element.2 : Int)) view.significant low high ∧
      view.significantIn region = (view.significant.take high).drop low
  /-- A literal is as long as its text, so that literals of other lengths have other texts. -/
  length : ∀ literal ∈ view.literals,
    ((view.literalKey literal).2.length : Int) = literal.extent

theorem searched {rule : CommentRule} {source : Bytes} {excluded : List Span} {view : View}
    (hview : ofSource rule source excluded = .ok view) (region : Span) :
    view.Searched region where
  literals := by
    obtain ⟨low, high, hwindow⟩ := Span.Window.exists_of_sorted region (pairwise_literals hview)
    refine ⟨low, high, hwindow, (hwindow.filter_eq fun literal hliteral hinside => ?_).symm⟩
    exact has_of_mem_literalsIn hview (List.mem_filter.mpr ⟨hliteral, hinside⟩)
  significant := by
    have hsorted : view.significant.Pairwise fun earlier later =>
        (earlier.2 : Int) < (later.2 : Int) :=
      view.pairwise_significant.imp fun hlt => Int.ofNat_lt.mpr hlt
    obtain ⟨low, high, hwindow⟩ := Span.Window.exists_of_sorted region hsorted
    refine ⟨low, high, hwindow, ?_⟩
    rw [significantIn_eq_filter, ← hwindow.filter_eq fun element _ hhas => hhas]
    exact List.filter_eq_self.mpr fun element helement => hwindow.has_place helement
  length := by
    intro literal hliteral
    have hbounds := bounds_of_mem_literals hview hliteral
    simp only [literalKey, Span.slice, source_of_ofSource hview, List.length_take,
      List.length_drop, Span.extent]
    omega

end View

/-! ## Walking -/

namespace Byte

/-- The walk passes over the byte. -/
def isPassed (byte : UInt8) : Bool :=
  byte = space || byte = tab || byte = newline

end Byte

namespace LockStep

variable (viewA viewB : View) (regionA regionB : Span)

/-- The literals of a view that lie in a region, found one by one. -/
def inside (region : Span) (literals : List Mark) : List Mark :=
  literals.filter fun literal =>
    decide (region.first ≤ literal.first ∧ literal.last ≤ region.last)

/-- Walks two lists of literals together. Gives the offsets of the first two that differ in
kind or text; where one list ends, that side is at the end of its region. -/
def literals : List Mark → List Mark → Option (Int × Int)
  | [], [] => none
  | [], b :: _ => some (regionA.last, b.first)
  | a :: _, [] => some (a.first, regionB.last)
  | a :: as, b :: bs =>
    if a.kind = b.kind ∧ a.toSpan.slice viewA.source = b.toSpan.slice viewB.source then
      literals as bs
    else some (a.first, b.first)

/-- The cursor stands in the region on a byte that the walk passes over. -/
def passes (view : View) (region : Span) (cursor : Nat) : Bool :=
  cursor ≤ region.last && (view.data[cursor]?).any Byte.isPassed

/-- Moves two cursors through the blanked bytes of two regions, past the blanks on both sides.
Gives the offsets of the first two bytes that differ; where one side runs out, it is at the end
of its region. -/
def bytes (a b : Nat) : Option (Int × Int) :=
  if hpass : passes viewA regionA a = true then bytes (a + 1) b
  else if hpass : passes viewB regionB b = true then bytes a (b + 1)
  else if a ≤ regionA.last then
    if b ≤ regionB.last then
      if viewA.data[a]? = viewB.data[b]? then bytes (a + 1) (b + 1) else some (a, b)
    else some (a, regionB.last)
  else if b ≤ regionB.last then some (regionA.last, b)
  else none
termination_by (regionA.last + 1 - a).toNat + (regionB.last + 1 - b).toNat
decreasing_by
  · simp only [passes, Bool.and_eq_true, decide_eq_true_eq] at hpass
    omega
  · simp only [passes, Bool.and_eq_true, decide_eq_true_eq] at hpass
    omega
  · omega

/-- Compares two regions by walking through both at once. -/
def compare : Outcome :=
  match literals viewA viewB regionA regionB (inside regionA viewA.literals)
      (inside regionB viewB.literals) with
  | some (a, b) => .differs a b
  | none =>
    match bytes viewA viewB regionA regionB regionA.first.toNat regionB.first.toNat with
    | some (a, b) => .differs a b
    | none => .same

end LockStep

/-- The region is not empty and lies in a text of some size. -/
structure Span.LiesIn (region : Span) (size : Nat) : Prop where
  nonneg : 0 ≤ region.first
  ordered : region.first ≤ region.last
  bounded : region.last < size

namespace View

variable {view : View} {cursor : Nat} {last : Int}

theorem significantIn_of_lt (hbehind : last < cursor) :
    view.significantIn ⟨cursor, last⟩ = [] := by
  have hnone : (last + 1).toNat - cursor = 0 := by omega
  simp [significantIn, Span.slice, hnone]

/-- From a cursor on, the bytes looked at are the one under it, if it is, and those from the
next offset on. -/
theorem significantIn_cons (hcursor : cursor ≤ last) {byte : UInt8}
    (hbyte : view.data[cursor]? = some byte) :
    view.significantIn ⟨cursor, last⟩ =
      if Byte.isPassed byte then view.significantIn ⟨(cursor + 1 : Nat), last⟩
      else (byte, cursor) :: view.significantIn ⟨(cursor + 1 : Nat), last⟩ := by
  have hdrop : view.data.drop cursor = byte :: view.data.drop (cursor + 1) := by
    obtain ⟨hlt, rfl⟩ := List.getElem?_eq_some_iff.mp hbyte
    exact List.drop_eq_getElem_cons hlt
  have htake : (last + 1).toNat - cursor = ((last + 1).toNat - (cursor + 1)) + 1 := by omega
  have hpassed : isSignificant byte = !Byte.isPassed byte := by
    simp [isSignificant, Byte.isPassed, Bool.and_assoc]
  simp only [significantIn, Span.slice, Int.toNat_natCast, hdrop, htake, List.take_succ_cons,
    List.zipIdx_cons, List.filter_cons, hpassed]
  cases Byte.isPassed byte <;> rfl

end View

/-- A side that has come to its end differs at the end of its region. -/
theorem Outcome.offset_none {α : Type} {region : Span} {size : Nat}
    (hregion : region.LiesIn size) (place : α → Int) :
    offset region place none = region.last :=
  Int.max_eq_left (Int.le_trans hregion.nonneg hregion.ordered)

namespace LockStep

variable {viewA viewB : View} {regionA regionB : Span}

/-- The offsets at which two sides differ. -/
def offsets {α : Type} (regionA regionB : Span) (place : α → Int)
    (difference : Option α × Option α) : Int × Int :=
  (Outcome.offset regionA place difference.1, Outcome.offset regionB place difference.2)

/-- The walk through two lists of literals ends at their first difference. -/
theorem literals_eq (viewA viewB : View) {sizeA sizeB : Nat} (hregionA : regionA.LiesIn sizeA)
    (hregionB : regionB.LiesIn sizeB) (as bs : List Mark) :
    literals viewA viewB regionA regionB as bs =
      (Outcome.firstDifference viewA.literalKey viewB.literalKey as bs).map
        (offsets regionA regionB (·.first)) := by
  induction as generalizing bs with
  | nil =>
      cases bs with
      | nil => rfl
      | cons b bs =>
          have hend := Outcome.offset_none hregionA (fun mark : Mark => mark.first)
          exact congrArg (fun last => some (last, b.first)) hend.symm
  | cons a as ih =>
      cases bs with
      | nil =>
          have hend := Outcome.offset_none hregionB (fun mark : Mark => mark.first)
          exact congrArg (fun last => some (a.first, last)) hend.symm
      | cons b bs =>
          have hkey : viewA.literalKey a = viewB.literalKey b ↔
              a.kind = b.kind ∧ a.toSpan.slice viewA.source = b.toSpan.slice viewB.source :=
            Prod.mk.injEq .. ▸ Iff.rfl
          rw [literals, Outcome.firstDifference]
          by_cases hsame : viewA.literalKey a = viewB.literalKey b
          · rw [if_pos hsame, if_pos (hkey.mp hsame), ih]
          · rw [if_neg hsame, if_neg (mt hkey.mpr hsame)]
            rfl

theorem significantIn_of_passes {view : View} {region : Span} {cursor : Nat}
    (hpasses : passes view region cursor = true) :
    view.significantIn ⟨cursor, region.last⟩ =
      view.significantIn ⟨(cursor + 1 : Nat), region.last⟩ := by
  simp only [passes, Bool.and_eq_true, decide_eq_true_eq, Option.any_eq_true] at hpasses
  obtain ⟨hcursor, byte, hbyte, hpassed⟩ := hpasses
  rw [View.significantIn_cons hcursor hbyte, if_pos hpassed]

/-- A cursor that stays where it is in the region stands on a byte that is looked at. -/
theorem significantIn_of_stays {view : View} {region : Span} {cursor : Nat}
    (hregion : region.LiesIn view.data.length) (hstays : ¬ passes view region cursor = true)
    (hcursor : cursor ≤ region.last) :
    ∃ byte, view.data[cursor]? = some byte ∧ view.significantIn ⟨cursor, region.last⟩ =
      (byte, cursor) :: view.significantIn ⟨(cursor + 1 : Nat), region.last⟩ := by
  have hlt : cursor < view.data.length := by
    have hbounded := hregion.bounded
    omega
  have hbyte := List.getElem?_eq_getElem hlt
  have hlooked : ¬ Byte.isPassed view.data[cursor] = true := by
    simpa [passes, hcursor, hbyte] using hstays
  exact ⟨_, hbyte, by rw [View.significantIn_cons hcursor hbyte, if_neg hlooked]⟩

/-- The walk of two cursors ends at the first difference between the bytes that are looked at
from there on. -/
theorem bytes_eq (hregionA : regionA.LiesIn viewA.data.length)
    (hregionB : regionB.LiesIn viewB.data.length) (a b : Nat) :
    bytes viewA viewB regionA regionB a b =
      (Outcome.firstDifference (·.1) (·.1) (viewA.significantIn ⟨a, regionA.last⟩)
        (viewB.significantIn ⟨b, regionB.last⟩)).map (offsets regionA regionB (·.2)) := by
  fun_induction bytes viewA viewB regionA regionB a b with
  | case1 a b hpasses ih => rw [significantIn_of_passes hpasses, ih]
  | case2 a b _ hpasses ih => rw [significantIn_of_passes hpasses, ih]
  | case3 a b hstaysA hstaysB hcursorA hcursorB hsame ih =>
      obtain ⟨byteA, hbyteA, hrestA⟩ := significantIn_of_stays hregionA hstaysA hcursorA
      obtain ⟨byteB, hbyteB, hrestB⟩ := significantIn_of_stays hregionB hstaysB hcursorB
      obtain rfl : byteA = byteB := by
        rw [hbyteA, hbyteB] at hsame
        exact Option.some.inj hsame
      rw [ih, hrestA, hrestB, Outcome.firstDifference, if_pos rfl]
  | case4 a b hstaysA hstaysB hcursorA hcursorB hother =>
      obtain ⟨byteA, hbyteA, hrestA⟩ := significantIn_of_stays hregionA hstaysA hcursorA
      obtain ⟨byteB, hbyteB, hrestB⟩ := significantIn_of_stays hregionB hstaysB hcursorB
      have hne : byteA ≠ byteB := by
        rintro rfl
        exact hother (hbyteA.trans hbyteB.symm)
      rw [hrestA, hrestB, Outcome.firstDifference, if_neg hne]
      rfl
  | case5 a b hstaysA _ hcursorA hbehindB =>
      obtain ⟨byteA, _, hrestA⟩ := significantIn_of_stays hregionA hstaysA hcursorA
      rw [hrestA, View.significantIn_of_lt (Int.not_le.mp hbehindB)]
      exact congrArg (fun last => some ((a : Int), last)) (Outcome.offset_none hregionB _).symm
  | case6 a b _ hstaysB hbehindA hcursorB =>
      obtain ⟨byteB, _, hrestB⟩ := significantIn_of_stays hregionB hstaysB hcursorB
      rw [hrestB, View.significantIn_of_lt (Int.not_le.mp hbehindA)]
      exact congrArg (fun last => some (last, (b : Int))) (Outcome.offset_none hregionA _).symm
  | case7 a b _ _ hbehindA hbehindB =>
      rw [View.significantIn_of_lt (Int.not_le.mp hbehindA),
        View.significantIn_of_lt (Int.not_le.mp hbehindB)]
      rfl

/-- Comparing two regions is walking through them in step. -/
theorem compare_eq (hregionA : regionA.LiesIn viewA.data.length)
    (hregionB : regionB.LiesIn viewB.data.length) :
    compare viewA viewB regionA regionB = Outcome.ofRegions viewA regionA viewB regionB := by
  have hinside : ∀ (region : Span) (view : View),
      inside region view.literals = view.literalsIn region := by
    intro region view
    refine List.filter_congr fun literal _ => ?_
    rw [Bool.decide_and]
    rfl
  have hregion : ∀ {region : Span} {size : Nat}, region.LiesIn size →
      (⟨(region.first.toNat : Int), region.last⟩ : Span) = region := by
    intro region size hregion
    rw [Int.toNat_of_nonneg hregion.nonneg]
  have hliterals := literals_eq viewA viewB hregionA hregionB (viewA.literalsIn regionA)
    (viewB.literalsIn regionB)
  have hbytes := bytes_eq hregionA hregionB regionA.first.toNat regionB.first.toNat
  rw [hregion hregionA, hregion hregionB] at hbytes
  rw [compare, hinside, hinside, hliterals, hbytes, Outcome.ofRegions,
    Outcome.literalDifference, Outcome.byteDifference]
  cases Outcome.firstDifference viewA.literalKey viewB.literalKey (viewA.literalsIn regionA)
      (viewB.literalsIn regionB) with
  | some difference => rfl
  | none =>
      cases Outcome.firstDifference (·.1) (·.1) (viewA.significantIn regionA)
          (viewB.significantIn regionB) <;> rfl

end LockStep

namespace Outcome

/-- The heads at which two lists differ are elements of theirs. -/
theorem mem_of_firstDifference {α κ : Type} [DecidableEq κ] {keyA keyB : α → κ} {as bs : List α}
    {difference : Option α × Option α}
    (hdifference : firstDifference keyA keyB as bs = some difference) :
    (∀ a ∈ difference.1, a ∈ as) ∧ ∀ b ∈ difference.2, b ∈ bs := by
  induction as generalizing bs with
  | nil =>
      cases bs with
      | nil => cases hdifference
      | cons b bs =>
          obtain rfl := Option.some.inj hdifference
          simp
  | cons a as ih =>
      cases bs with
      | nil =>
          obtain rfl := Option.some.inj hdifference
          simp
      | cons b bs =>
          rw [firstDifference] at hdifference
          split at hdifference
          next =>
            obtain ⟨has, hbs⟩ := ih hdifference
            exact ⟨fun element helement => List.mem_cons_of_mem _ (has element helement),
              fun element helement => List.mem_cons_of_mem _ (hbs element helement)⟩
          next =>
            obtain rfl := Option.some.inj hdifference
            simp

/-- A side differs inside of its region when its elements have their places there. -/
theorem has_offset {α : Type} {region : Span} {size : Nat} (hregion : region.LiesIn size)
    {place : α → Int} {list : List α}
    (hplace : ∀ element ∈ list, region.has (place element) = true) {found : Option α}
    (hfound : ∀ element ∈ found, element ∈ list) :
    region.has (offset region place found) = true := by
  cases found with
  | some element => exact hplace element (hfound element rfl)
  | none =>
      rw [offset_none hregion, Span.has_iff]
      exact ⟨hregion.ordered, Int.le_refl _⟩

theorem has_of_ofRegions {viewA viewB : View} {regionA regionB : Span} {sizeA sizeB : Nat}
    (hregionA : regionA.LiesIn sizeA) (hregionB : regionB.LiesIn sizeB)
    (hliteralsA : ∀ mark ∈ viewA.literalsIn regionA, regionA.has mark.first = true)
    (hliteralsB : ∀ mark ∈ viewB.literalsIn regionB, regionB.has mark.first = true)
    {a b : Int} (hdiffers : ofRegions viewA regionA viewB regionB = .differs a b) :
    regionA.has a = true ∧ regionB.has b = true := by
  unfold ofRegions at hdiffers
  split at hdiffers
  next hliterals =>
    obtain ⟨rfl, rfl⟩ := Outcome.differs.inj hdiffers
    obtain ⟨hfoundA, hfoundB⟩ := mem_of_firstDifference hliterals
    exact ⟨has_offset hregionA hliteralsA hfoundA, has_offset hregionB hliteralsB hfoundB⟩
  next =>
    split at hdiffers
    next hbytes =>
      obtain ⟨rfl, rfl⟩ := Outcome.differs.inj hdiffers
      obtain ⟨hfoundA, hfoundB⟩ := mem_of_firstDifference hbytes
      exact ⟨has_offset hregionA (fun _ => View.has_of_mem_significantIn) hfoundA,
        has_offset hregionB (fun _ => View.has_of_mem_significantIn) hfoundB⟩
    next => cases hdiffers

theorem firstDifference_swap {α κ : Type} [DecidableEq κ] (keyA keyB : α → κ)
    (as bs : List α) :
    firstDifference keyB keyA bs as = (firstDifference keyA keyB as bs).map Prod.swap := by
  induction as generalizing bs with
  | nil => cases bs <;> rfl
  | cons a as ih =>
      cases bs with
      | nil => rfl
      | cons b bs =>
          rw [firstDifference, firstDifference, ih]
          by_cases hkey : keyA a = keyB b
          · rw [if_pos hkey, if_pos hkey.symm]
          · rw [if_neg hkey, if_neg (Ne.symm hkey)]
            rfl

/-- The result for the sides the other way round. -/
def swap : Outcome → Outcome
  | same => same
  | differs a b => differs b a

theorem ofRegions_swap (viewA viewB : View) (regionA regionB : Span) :
    ofRegions viewB regionB viewA regionA = (ofRegions viewA regionA viewB regionB).swap := by
  rw [ofRegions, ofRegions, literalDifference, literalDifference, byteDifference, byteDifference,
    firstDifference_swap viewA.literalKey, firstDifference_swap (·.1) (·.1)
      (viewA.significantIn regionA)]
  cases firstDifference viewA.literalKey viewB.literalKey (viewA.literalsIn regionA)
      (viewB.literalsIn regionB) with
  | some difference => rfl
  | none =>
      cases firstDifference (·.1) (·.1) (viewA.significantIn regionA)
          (viewB.significantIn regionB) <;> rfl

end Outcome

/-- Two regions that lie in their texts compare as the walk in step says, whatever the views
exclude, and where they differ, both offsets lie in their regions. What the walk comes by is
also what a search of each view for the ends of its region finds. -/
theorem comparison_is_lock_step {ruleA ruleB : CommentRule} {sourceA sourceB : Bytes}
    {excludedA excludedB : List Span} {viewA viewB : View} {regionA regionB : Span}
    (hviewA : View.ofSource ruleA sourceA excludedA = .ok viewA)
    (hviewB : View.ofSource ruleB sourceB excludedB = .ok viewB)
    (hregionA : regionA.LiesIn sourceA.length) (hregionB : regionB.LiesIn sourceB.length) :
    Outcome.ofRegions viewA regionA viewB regionB =
        LockStep.compare viewA viewB regionA regionB ∧
      (∀ a b, Outcome.ofRegions viewA regionA viewB regionB = .differs a b →
        regionA.has a = true ∧ regionB.has b = true) ∧
      viewA.Searched regionA ∧ viewB.Searched regionB := by
  refine ⟨?_, ?_, View.searched hviewA regionA, View.searched hviewB regionB⟩
  · rw [← View.length_data hviewA] at hregionA
    rw [← View.length_data hviewB] at hregionB
    exact (LockStep.compare_eq hregionA hregionB).symm
  · intro a b hdiffers
    exact Outcome.has_of_ofRegions hregionA hregionB
      (fun _ => View.has_of_mem_literalsIn hviewA) (fun _ => View.has_of_mem_literalsIn hviewB)
      hdiffers

/-- A text with a literal, and one with the same literal behind a comment in which a byte and
the rest with its literal are excluded: the walk stops at the first byte that one of them does
not show. -/
theorem comparison_is_lock_step_excluded :
    let sourceA := Bytes.ofChars "p = \"s\" + 1;\n".toList
    let sourceB := Bytes.ofChars "p=/*c*/\"s\"+ 2;x\"t\"".toList
    let viewA := View.ofMarks sourceA [⟨⟨4, 6⟩, .string⟩] []
    let viewB := View.ofMarks sourceB
      [⟨⟨2, 6⟩, .comment⟩, ⟨⟨7, 9⟩, .string⟩, ⟨⟨15, 17⟩, .string⟩] [⟨12, 12⟩, ⟨14, 17⟩]
    View.ofSource .nested sourceA [] = .ok viewA ∧
      View.ofSource .nested sourceB [⟨12, 12⟩, ⟨14, 17⟩] = .ok viewB ∧
      (⟨0, 12⟩ : Span).LiesIn sourceA.length ∧ (⟨0, 17⟩ : Span).LiesIn sourceB.length ∧
      LockStep.compare viewA viewB ⟨0, 12⟩ ⟨0, 17⟩ = .differs 10 13 ∧
      (⟨0, 12⟩ : Span).has 10 = true ∧ (⟨0, 17⟩ : Span).has 13 = true ∧
      viewA.Searched ⟨0, 12⟩ ∧ viewB.Searched ⟨0, 17⟩ := by
  intro sourceA sourceB viewA viewB
  have hmarksA : sourceA.marks .nested .everything = .ok [⟨⟨4, 6⟩, .string⟩] := by
    decide +kernel
  have hmarksB : sourceB.marks .nested .everything =
      .ok [⟨⟨2, 6⟩, .comment⟩, ⟨⟨7, 9⟩, .string⟩, ⟨⟨15, 17⟩, .string⟩] := by
    decide +kernel
  have hviewA : View.ofSource .nested sourceA [] = .ok viewA :=
    View.ofSource_eq_ok_iff.mpr ⟨_, hmarksA, rfl⟩
  have hviewB : View.ofSource .nested sourceB [⟨12, 12⟩, ⟨14, 17⟩] = .ok viewB :=
    View.ofSource_eq_ok_iff.mpr ⟨_, hmarksB, rfl⟩
  have hregionA : (⟨0, 12⟩ : Span).LiesIn sourceA.length := ⟨by decide, by decide, by decide⟩
  have hregionB : (⟨0, 17⟩ : Span).LiesIn sourceB.length := ⟨by decide, by decide, by decide⟩
  obtain ⟨hwalk, hhas, hsearchedA, hsearchedB⟩ :=
    comparison_is_lock_step hviewA hviewB hregionA hregionB
  have hdiffers : Outcome.ofRegions viewA ⟨0, 12⟩ viewB ⟨0, 17⟩ = .differs 10 13 := by
    simp only [viewA, viewB, View.ofMarks, Bytes.blankMarks_eq_mask, Bytes.blank_eq_mask]
    decide +kernel
  obtain ⟨hinA, hinB⟩ := hhas 10 13 hdiffers
  exact ⟨hviewA, hviewB, hregionA, hregionB, hwalk.symm.trans hdiffers, hinA, hinB, hsearchedA,
    hsearchedB⟩

/-- Regions compare as the same exactly when their fingerprints with nothing hidden are equal,
whatever the views and the regions are. So being the same is an equivalence, and a difference
is found at the same two offsets from either side. -/
theorem comparison_agrees_with_fingerprints :
    (∀ (viewA viewB : View) (regionA regionB : Span),
      Outcome.ofRegions viewA regionA viewB regionB = .same ↔
        viewA.fingerprint regionA [] = viewB.fingerprint regionB []) ∧
    Equivalence (fun a b : View × Span => Outcome.ofRegions a.1 a.2 b.1 b.2 = .same) ∧
    ∀ (viewA viewB : View) (regionA regionB : Span) (a b : Int),
      Outcome.ofRegions viewA regionA viewB regionB = .differs a b →
        Outcome.ofRegions viewB regionB viewA regionA = .differs b a := by
  refine ⟨fun _ _ _ _ => Outcome.ofRegions_eq_same_iff, ⟨?_, ?_, ?_⟩, ?_⟩
  · exact fun _ => Outcome.ofRegions_eq_same_iff.mpr rfl
  · intro a b hsame
    exact Outcome.ofRegions_eq_same_iff.mpr (Outcome.ofRegions_eq_same_iff.mp hsame).symm
  · intro a b c hab hbc
    have hfirst := Outcome.ofRegions_eq_same_iff.mp hab
    have hsecond := Outcome.ofRegions_eq_same_iff.mp hbc
    exact Outcome.ofRegions_eq_same_iff.mpr (hfirst.trans hsecond)
  · intro viewA viewB regionA regionB a b hdiffers
    rw [Outcome.ofRegions_swap viewA viewB regionA regionB, hdiffers]
    rfl

end CDelta

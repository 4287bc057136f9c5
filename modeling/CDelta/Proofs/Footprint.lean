import CDelta.Footprint
import Mathlib.Data.List.Nodup

/-! # United footprints

Uniting footprints gives one for each name. It holds every footprint of its name, begins
where one of them does and ends where one of them does. Moving offsets without changing their
order moves the united footprints along.
-/

namespace CDelta

namespace Span

theorem contains_iff {span inner : Span} :
    span.contains inner = true ↔ span.first ≤ inner.first ∧ inner.last ≤ span.last := by
  simp [contains]

theorem contains_refl (span : Span) : span.contains span = true := by
  simp [contains]

theorem contains_trans {outer span inner : Span} (houter : outer.contains span = true)
    (hinner : span.contains inner = true) : outer.contains inner = true := by
  rw [contains_iff] at *
  omega

theorem union_contains_left (span other : Span) : (span.union other).contains span = true := by
  rw [contains_iff]
  simp only [union]
  omega

theorem union_contains_right (span other : Span) : (span.union other).contains other = true := by
  rw [contains_iff]
  simp only [union]
  omega

end Span

/-- Erasing repetitions leaves none. -/
theorem nodup_eraseDups {α : Type} [BEq α] [LawfulBEq α] (list : List α) :
    list.eraseDups.Nodup := by
  induction hlength : list.length using Nat.strongRecOn generalizing list with
  | ind length ih =>
      cases list with
      | nil => simp
      | cons first rest =>
          rw [List.eraseDups_cons, List.nodup_cons, List.mem_eraseDups, List.mem_filter]
          have hshorter : (rest.filter fun other => !other == first).length < length :=
            hlength ▸ Nat.lt_succ_of_le (List.length_filter_le _ _)
          exact ⟨by simp, ih _ hshorter _ rfl⟩

namespace Footprint

/-- The footprint holds another of its name. -/
def Holds (footprint part : Footprint) : Prop :=
  footprint.name = part.name ∧ footprint.span.contains part.span = true

/-- The footprint begins where one of some footprints of its name does, and ends where one
does. -/
def Spans (parts : List Footprint) (footprint : Footprint) : Prop :=
  (∃ low ∈ parts, low.name = footprint.name ∧ low.span.first = footprint.span.first) ∧
    ∃ high ∈ parts, high.name = footprint.name ∧ high.span.last = footprint.span.last

theorem map_name_unite (known : List Footprint) (footprint : Footprint) :
    (unite known footprint).map (·.name) =
      if footprint.name ∈ known.map (·.name) then known.map (·.name)
      else known.map (·.name) ++ [footprint.name] := by
  induction known with
  | nil => rfl
  | cons head rest ih =>
      rw [unite]
      split
      next hname => simp [hname]
      next hname =>
        have hother : ¬ footprint.name = head.name := fun h => hname h.symm
        rw [List.map_cons, ih]
        split
        next hmem =>
          rw [if_pos (by simpa using .inr (by simpa using hmem))]
          rfl
        next hmem =>
          rw [if_neg (by simpa [hother] using hmem)]
          rfl

theorem nodup_unite {known : List Footprint} (hnodup : (known.map (·.name)).Nodup)
    (footprint : Footprint) : ((unite known footprint).map (·.name)).Nodup := by
  rw [map_name_unite]
  split
  next => exact hnodup
  next hnew =>
    rw [List.nodup_append]
    refine ⟨hnodup, List.nodup_singleton _, ?_⟩
    rintro name hname other hother rfl
    exact hnew ((List.mem_singleton.mp hother) ▸ hname)

theorem exists_holds_unite (known : List Footprint) (footprint : Footprint) :
    (∀ part ∈ known, ∃ united ∈ unite known footprint, united.Holds part) ∧
      ∃ united ∈ unite known footprint, united.Holds footprint := by
  induction known with
  | nil => simp [unite, Holds, Span.contains_refl]
  | cons head rest ih =>
      obtain ⟨hparts, united, hmem, hholds⟩ := ih
      rw [unite]
      split
      next hname =>
        refine ⟨fun part hpart => ?_, _, List.mem_cons_self, hname, Span.union_contains_right _ _⟩
        rcases List.mem_cons.mp hpart with rfl | hpart
        · exact ⟨_, List.mem_cons_self, rfl, Span.union_contains_left _ _⟩
        · exact ⟨part, List.mem_cons_of_mem _ hpart, rfl, Span.contains_refl _⟩
      next hname =>
        refine ⟨fun part hpart => ?_, united, List.mem_cons_of_mem _ hmem, hholds⟩
        rcases List.mem_cons.mp hpart with rfl | hpart
        · exact ⟨part, List.mem_cons_self, rfl, Span.contains_refl _⟩
        · obtain ⟨other, hother, hpart⟩ := hparts part hpart
          exact ⟨other, List.mem_cons_of_mem _ hother, hpart⟩

theorem spans_unite {known parts : List Footprint} {footprint : Footprint}
    (hknown : ∀ united ∈ known, united.Spans parts) (hmem : footprint ∈ parts) :
    ∀ united ∈ unite known footprint, united.Spans parts := by
  have hself : footprint.Spans parts := ⟨⟨footprint, hmem, rfl, rfl⟩, footprint, hmem, rfl, rfl⟩
  induction known with
  | nil =>
      intro united hunited
      obtain rfl := List.mem_singleton.mp hunited
      exact hself
  | cons head rest ih =>
      obtain ⟨hhead, hrest⟩ := List.forall_mem_cons.mp hknown
      rw [unite]
      split
      next hname =>
        refine List.forall_mem_cons.mpr ⟨?_, hrest⟩
        obtain ⟨⟨low, hlow, hlowName, hfirst⟩, high, hhigh, hhighName, hlast⟩ := hhead
        constructor
        · rcases Int.le_total head.span.first footprint.span.first with hle | hle
          · exact ⟨low, hlow, hlowName, hfirst.trans (Int.min_eq_left hle).symm⟩
          · exact ⟨footprint, hmem, hname.symm, (Int.min_eq_right hle).symm⟩
        · rcases Int.le_total head.span.last footprint.span.last with hle | hle
          · exact ⟨footprint, hmem, hname.symm, (Int.max_eq_right hle).symm⟩
          · exact ⟨high, hhigh, hhighName, hlast.trans (Int.max_eq_left hle).symm⟩
      next => exact List.forall_mem_cons.mpr ⟨hhead, ih hrest⟩

theorem nodup_uniteAll (sets : List (List Footprint)) :
    ((uniteAll sets).map (·.name)).Nodup := by
  have hfold : ∀ (footprints known : List Footprint), (known.map (·.name)).Nodup →
      ((footprints.foldl unite known).map (·.name)).Nodup := by
    intro footprints
    induction footprints with
    | nil => exact fun _ hknown => hknown
    | cons head rest ih => exact fun known hknown => ih _ (nodup_unite hknown head)
  exact hfold _ [] List.nodup_nil

theorem uniteAll_append (sets more : List (List Footprint)) :
    uniteAll (sets ++ more) = more.flatten.foldl unite (uniteAll sets) := by
  rw [uniteAll, List.flatten_append, List.foldl_append, uniteAll]

/-- Uniting further footprints keeps one that holds each, known or further. -/
theorem exists_holds_foldl (footprints known : List Footprint) :
    ∀ part ∈ known ++ footprints, ∃ united ∈ footprints.foldl unite known, united.Holds part := by
  induction footprints generalizing known with
  | nil =>
      intro part hpart
      rw [List.append_nil] at hpart
      exact ⟨part, hpart, rfl, Span.contains_refl _⟩
  | cons head rest ih =>
      intro part hpart
      obtain ⟨hknown, fresh, hfresh, hhead⟩ := exists_holds_unite known head
      have hstep : ∃ middle ∈ unite known head ++ rest, middle.Holds part := by
        rcases List.mem_append.mp hpart with hpart | hpart
        · obtain ⟨middle, hmiddle, hholds⟩ := hknown part hpart
          exact ⟨middle, List.mem_append_left _ hmiddle, hholds⟩
        · rcases List.mem_cons.mp hpart with rfl | hpart
          · exact ⟨fresh, List.mem_append_left _ hfresh, hhead⟩
          · exact ⟨part, List.mem_append_right _ hpart, rfl, Span.contains_refl _⟩
      obtain ⟨middle, hmiddle, hname, hcontains⟩ := hstep
      obtain ⟨united, hunited, hother, hholds⟩ := ih _ middle hmiddle
      exact ⟨united, hunited, hother.trans hname, Span.contains_trans hholds hcontains⟩

/-- Each footprint is held by the united one of its name. -/
theorem exists_holds_uniteAll {sets : List (List Footprint)} {part : Footprint}
    (hpart : part ∈ sets.flatten) : ∃ united ∈ uniteAll sets, united.Holds part :=
  exists_holds_foldl sets.flatten [] part (by simpa using hpart)

/-- A united footprint begins and ends where footprints of its name do. -/
theorem spans_of_mem_uniteAll {sets : List (List Footprint)} {united : Footprint}
    (hunited : united ∈ uniteAll sets) : united.Spans sets.flatten := by
  have hfold : ∀ (parts footprints known : List Footprint),
      (∀ footprint ∈ footprints, footprint ∈ parts) → (∀ united ∈ known, united.Spans parts) →
      ∀ united ∈ footprints.foldl unite known, united.Spans parts := by
    intro parts footprints
    induction footprints with
    | nil => exact fun _ _ hknown => hknown
    | cons head rest ih =>
        intro known hparts hknown
        obtain ⟨hhead, hrest⟩ := List.forall_mem_cons.mp hparts
        exact ih _ hrest (spans_unite hknown hhead)
  exact hfold sets.flatten sets.flatten [] (fun _ h => h) (by simp) united hunited

/-- Where names do not repeat, a footprint is the only one of its name. -/
theorem filter_name {footprints : List Footprint} (hnodup : (footprints.map (·.name)).Nodup)
    {footprint : Footprint} (hmem : footprint ∈ footprints) :
    footprints.filter (·.name = footprint.name) = [footprint] := by
  induction footprints with
  | nil => simp at hmem
  | cons head rest ih =>
      obtain ⟨hnew, hrest⟩ := List.nodup_cons.mp hnodup
      rcases List.mem_cons.mp hmem with rfl | hmem
      · have hnone : rest.filter (·.name = footprint.name) = [] := by
          rw [List.filter_eq_nil_iff]
          intro other hother hname
          exact hnew (List.mem_map.mpr ⟨other, hother, of_decide_eq_true hname⟩)
        rw [List.filter_cons_of_pos (by simp), hnone]
      · have hname : head.name ≠ footprint.name := by
          intro heq
          exact hnew (List.mem_map.mpr ⟨footprint, hmem, heq.symm⟩)
        rw [List.filter_cons_of_neg (by simpa using hname), ih hrest hmem]

theorem find?_name {footprints : List Footprint} (hnodup : (footprints.map (·.name)).Nodup)
    {footprint : Footprint} (hmem : footprint ∈ footprints) :
    find? footprints footprint.name = some footprint := by
  rw [find?, ← List.head?_filter, filter_name hnodup hmem]
  rfl

/-- The united footprint of a name holds all footprints of that name. -/
theorem contains_of_mem_uniteAll {sets : List (List Footprint)} {united part : Footprint}
    (hunited : united ∈ uniteAll sets) (hpart : part ∈ sets.flatten)
    (hname : part.name = united.name) : united.span.contains part.span = true := by
  obtain ⟨other, hother, hsame, hholds⟩ := exists_holds_uniteAll hpart
  have hfound := find?_name (nodup_uniteAll sets) hunited
  rw [← hname, ← hsame, find?_name (nodup_uniteAll sets) hother] at hfound
  exact Option.some.inj hfound ▸ hholds

/-- The footprint with its offsets moved. -/
def relocate (place : Int → Int) (footprint : Footprint) : Footprint :=
  ⟨footprint.name, ⟨place footprint.span.first, place footprint.span.last⟩⟩

theorem union_relocate {place : Int → Int} (hplace : ∀ a b, a ≤ b → place a ≤ place b)
    (span other : Span) :
    (⟨place span.first, place span.last⟩ : Span).union ⟨place other.first, place other.last⟩ =
      ⟨place (span.union other).first, place (span.union other).last⟩ := by
  have hmin : ∀ a b, min (place a) (place b) = place (min a b) := by
    intro a b
    rcases Int.le_total a b with hle | hle
    · rw [Int.min_eq_left hle, Int.min_eq_left (hplace a b hle)]
    · rw [Int.min_eq_right hle, Int.min_eq_right (hplace b a hle)]
  have hmax : ∀ a b, max (place a) (place b) = place (max a b) := by
    intro a b
    rcases Int.le_total a b with hle | hle
    · rw [Int.max_eq_right hle, Int.max_eq_right (hplace a b hle)]
    · rw [Int.max_eq_left hle, Int.max_eq_left (hplace b a hle)]
  simp only [Span.union, hmin, hmax]

theorem unite_relocate {place : Int → Int} (hplace : ∀ a b, a ≤ b → place a ≤ place b)
    (known : List Footprint) (footprint : Footprint) :
    unite (known.map (·.relocate place)) (footprint.relocate place) =
      (unite known footprint).map (·.relocate place) := by
  induction known with
  | nil => rfl
  | cons head rest ih =>
      rw [List.map_cons, unite, unite]
      have hname : (head.relocate place).name = (footprint.relocate place).name ↔
          head.name = footprint.name := Iff.rfl
      by_cases hsame : head.name = footprint.name
      · rw [if_pos (hname.mpr hsame), if_pos hsame, List.map_cons]
        simp only [relocate, union_relocate hplace]
      · rw [if_neg (fun h => hsame (hname.mp h)), if_neg hsame, List.map_cons, ih]

/-- Uniting moves along with offsets that keep their order. -/
theorem uniteAll_relocate {place : Int → Int} (hplace : ∀ a b, a ≤ b → place a ≤ place b)
    (sets : List (List Footprint)) :
    uniteAll (sets.map fun set => set.map (·.relocate place)) =
      (uniteAll sets).map (·.relocate place) := by
  have hfold : ∀ footprints known : List Footprint,
      (footprints.map (·.relocate place)).foldl unite (known.map (·.relocate place)) =
        (footprints.foldl unite known).map (·.relocate place) := by
    intro footprints
    induction footprints with
    | nil => exact fun _ => rfl
    | cons head rest ih =>
        intro known
        rw [List.map_cons, List.foldl_cons, List.foldl_cons, unite_relocate hplace, ih]
  rw [uniteAll, uniteAll, ← hfold sets.flatten [], List.map_flatten]
  rfl

end Footprint

end CDelta

import CDelta.Proofs.Footprint
import Mathlib.Data.List.Induction
import Mathlib.Data.List.Perm.Basic

/-! # Laws of united footprints

Uniting takes footprints one by one and widens the one of the same name, or adds a new one at the
end. The outcome is said without that order: there is one footprint for each name, and it runs
from the earliest beginning to the latest end of the footprints of that name. Hence sets can be
united in groups, each of them on its own, and the groups afterwards; and the order of the sets
decides the order of the outcome and nothing else.
-/

namespace CDelta

theorem Span.union_assoc (span other third : Span) :
    (span.union other).union third = span.union (other.union third) := by
  simp only [union, Span.mk.injEq]
  omega

namespace Footprint

/-- The footprint with another span united with its own. -/
def widen (footprint : Footprint) (span : Span) : Footprint :=
  { footprint with span := footprint.span.union span }

variable {known list : List Footprint} {footprint other : Footprint}

/-- Uniting two footprints of one name is uniting with both at once. -/
theorem unite_unite_of_name_eq (known : List Footprint) (hname : footprint.name = other.name) :
    unite (unite known footprint) other = unite known (footprint.widen other.span) := by
  induction known with
  | nil => simp [unite, widen, hname]
  | cons head rest ih =>
      have hwiden : (footprint.widen other.span).name = footprint.name := rfl
      by_cases hhead : head.name = footprint.name
      · rw [unite, unite, if_pos hhead, hwiden, if_pos hhead, unite, if_pos (hhead.trans hname)]
        simp only [widen, Span.union_assoc]
      · have hother : head.name ≠ other.name := hname ▸ hhead
        rw [unite, unite, if_neg hhead, hwiden, if_neg hhead, unite, if_neg hother, ih]

/-- A footprint of a name that is known can be united before or behind one of another name. -/
theorem unite_comm (hname : footprint.name ≠ other.name)
    (hknown : footprint.name ∈ known.map (·.name)) :
    unite (unite known other) footprint = unite (unite known footprint) other := by
  induction known with
  | nil => simp at hknown
  | cons head rest ih =>
      by_cases hhead : head.name = footprint.name
      · have hother : head.name ≠ other.name := hhead ▸ hname
        simp [unite, hhead, hname]
      · have hrest : footprint.name ∈ rest.map (·.name) := by
          simpa [Ne.symm hhead] using hknown
        by_cases hother : head.name = other.name
        · simp [unite, hother, Ne.symm hname]
        · simp [unite, hhead, hother, ih hrest]

theorem mem_map_name_unite (known : List Footprint) (footprint : Footprint) :
    footprint.name ∈ (unite known footprint).map (·.name) := by
  rw [map_name_unite]
  split
  next hknown => exact hknown
  next => simp

/-- Footprints of other names can be united before one of a name that is known, or behind it. -/
theorem foldl_unite_comm (hothers : footprint.name ∉ list.map (·.name))
    (hknown : footprint.name ∈ known.map (·.name)) :
    list.foldl unite (unite known footprint) = unite (list.foldl unite known) footprint := by
  induction list generalizing known with
  | nil => rfl
  | cons head rest ih =>
      rw [List.map_cons, List.mem_cons, not_or] at hothers
      have hstill : footprint.name ∈ (unite known head).map (·.name) := by
        rw [map_name_unite]
        split
        next => exact hknown
        next => exact List.mem_append_left _ hknown
      rw [List.foldl_cons, List.foldl_cons, ← unite_comm hothers.1 hknown, ih hothers.2 hstill]

/-- Uniting with a list to which a footprint was added is uniting with the list and then with the
footprint. -/
theorem foldl_unite_unite (hnodup : (list.map (·.name)).Nodup) (known : List Footprint)
    (footprint : Footprint) :
    (unite list footprint).foldl unite known = unite (list.foldl unite known) footprint := by
  induction list generalizing known with
  | nil => rfl
  | cons head rest ih =>
      obtain ⟨hnew, hrest⟩ := List.nodup_cons.mp hnodup
      by_cases hhead : head.name = footprint.name
      · have hothers : footprint.name ∉ rest.map (·.name) := hhead ▸ hnew
        have hmem := mem_map_name_unite known head
        rw [hhead] at hmem
        calc
          (unite (head :: rest) footprint).foldl unite known
            = rest.foldl unite (unite known (head.widen footprint.span)) := by
              rw [unite, if_pos hhead]
              rfl
          _ = rest.foldl unite (unite (unite known head) footprint) := by
              rw [unite_unite_of_name_eq known hhead]
          _ = unite (rest.foldl unite (unite known head)) footprint :=
              foldl_unite_comm hothers hmem
      · rw [unite, if_neg hhead, List.foldl_cons, List.foldl_cons, ih hrest]

theorem nodup_foldl_unite (footprints : List Footprint) :
    ((footprints.foldl unite []).map (·.name)).Nodup := by
  simpa [uniteAll] using nodup_uniteAll [footprints]

/-- United footprints can be united with others in the place of those they are made of. -/
theorem foldl_unite_foldl (footprints known : List Footprint) :
    (footprints.foldl unite []).foldl unite known = footprints.foldl unite known := by
  induction footprints using List.reverseRecOn with
  | nil => rfl
  | append_singleton front last ih =>
      simp only [List.foldl_append, List.foldl_cons, List.foldl_nil]
      rw [foldl_unite_unite (nodup_foldl_unite front), ih]

/-- The names of united footprints are the names that occur, in the order of their first
occurrences. -/
theorem map_name_foldl (footprints : List Footprint) :
    (footprints.foldl unite []).map (·.name) = (footprints.map (·.name)).eraseDups := by
  induction footprints using List.reverseRecOn with
  | nil => rfl
  | append_singleton front last ih =>
      rw [List.foldl_append, List.foldl_cons, List.foldl_nil, map_name_unite, ih, List.map_append,
        List.eraseDups_append]
      generalize front.map (·.name) = names
      by_cases hmem : last.name ∈ names
      · rw [if_pos (List.mem_eraseDups.mpr hmem)]
        simp [List.removeAll, hmem]
      · rw [if_neg fun hfound => hmem (List.mem_eraseDups.mp hfound)]
        simp [List.removeAll, hmem, List.eraseDups_cons]

/-- A footprint is made of those of its name: it holds them all, and begins and ends where some of
them do. -/
structure Unites (parts : List Footprint) (united : Footprint) : Prop where
  spans : united.Spans parts
  holds : ∀ part ∈ parts, part.name = united.name → united.span.contains part.span = true

theorem Unites.congr {parts others : List Footprint} {united : Footprint}
    (hunites : united.Unites parts) (hsame : ∀ part, part ∈ parts ↔ part ∈ others) :
    united.Unites others := by
  obtain ⟨⟨⟨low, hlow, hbegins⟩, high, hhigh, hends⟩, hholds⟩ := hunites
  exact ⟨⟨⟨low, (hsame low).mp hlow, hbegins⟩, high, (hsame high).mp hhigh, hends⟩,
    fun part hpart => hholds part ((hsame part).mpr hpart)⟩

/-- There is one footprint that those of a name make. -/
theorem Unites.eq {parts : List Footprint} {united other : Footprint}
    (hunited : united.Unites parts) (hother : other.Unites parts)
    (hname : united.name = other.name) : united = other := by
  have hcontains : ∀ {a b : Footprint}, a.Unites parts → b.Unites parts → a.name = b.name →
      a.span.first ≤ b.span.first ∧ b.span.last ≤ a.span.last := by
    intro a b ha hb hsame
    obtain ⟨⟨low, hlow, hlowName, hfirst⟩, high, hhigh, hhighName, hlast⟩ := hb.spans
    have hbegins := Span.contains_iff.mp (ha.holds low hlow (hlowName.trans hsame.symm))
    have hends := Span.contains_iff.mp (ha.holds high hhigh (hhighName.trans hsame.symm))
    omega
  have hforth := hcontains hunited hother hname
  have hback := hcontains hother hunited hname.symm
  obtain ⟨name, first, last⟩ := united
  obtain ⟨name', first', last'⟩ := other
  simp only at hname hforth hback
  rw [hname, show first = first' by omega, show last = last' by omega]

/-- The footprints that uniting gives are those that the footprints of some name make. -/
theorem mem_uniteAll_iff {sets : List (List Footprint)} {united : Footprint} :
    united ∈ uniteAll sets ↔ united.Unites sets.flatten := by
  have hforth : ∀ found ∈ uniteAll sets, found.Unites sets.flatten := fun found hfound =>
    ⟨spans_of_mem_uniteAll hfound, fun part hpart hname =>
      contains_of_mem_uniteAll hfound hpart hname⟩
  refine ⟨hforth united, fun hunites => ?_⟩
  obtain ⟨⟨low, hlow, hname, _⟩, _⟩ := hunites.spans
  obtain ⟨found, hfound, hsame, _⟩ := exists_holds_uniteAll hlow
  rw [hunites.eq (hforth found hfound) (hname.symm.trans hsame.symm)]
  exact hfound

theorem uniteAll_perm {sets others : List (List Footprint)} (hperm : sets.Perm others) :
    (uniteAll sets).Perm (uniteAll others) := by
  have hsame : ∀ part, part ∈ sets.flatten ↔ part ∈ others.flatten := fun part =>
    hperm.flatten.mem_iff
  rw [List.perm_ext_iff_of_nodup (nodup_uniteAll sets).of_map (nodup_uniteAll others).of_map]
  intro united
  rw [mem_uniteAll_iff, mem_uniteAll_iff]
  exact ⟨fun hunites => hunites.congr hsame, fun hunites => hunites.congr fun part =>
    (hsame part).symm⟩

/-- The least beginning and the greatest end of the footprints of a name. -/
theorem Unites.extremes {parts : List Footprint} {united : Footprint}
    (hunites : united.Unites parts) :
    ((parts.filter (·.name = united.name)).map (·.span.first)).min? = some united.span.first ∧
      ((parts.filter (·.name = united.name)).map (·.span.last)).max? =
        some united.span.last := by
  obtain ⟨⟨low, hlow, hlowName, hfirst⟩, high, hhigh, hhighName, hlast⟩ := hunites.spans
  rw [List.min?_eq_some_iff, List.max?_eq_some_iff]
  simp only [List.mem_map, List.mem_filter, decide_eq_true_eq, forall_exists_index, and_imp]
  refine ⟨⟨⟨low, ⟨hlow, hlowName⟩, hfirst⟩, ?_⟩, ⟨high, ⟨hhigh, hhighName⟩, hlast⟩, ?_⟩
  · rintro _ part hpart hname rfl
    exact (Span.contains_iff.mp (hunites.holds part hpart hname)).1
  · rintro _ part hpart hname rfl
    exact (Span.contains_iff.mp (hunites.holds part hpart hname)).2

end Footprint

/-- Uniting gives one footprint for each name, in the order in which the names first occur, from
the least beginning to the greatest end of the footprints of that name. Sets can be united in two
groups first and the groups afterwards, with the same outcome, and in another order, with the same
footprints. -/
theorem footprints_unite_in_any_grouping (sets : List (List Footprint)) :
    ((Footprint.uniteAll sets).map (·.name) = (sets.flatten.map (·.name)).eraseDups ∧
      ∀ united ∈ Footprint.uniteAll sets,
        let named := sets.flatten.filter (·.name = united.name)
        (named.map (·.span.first)).min? = some united.span.first ∧
          (named.map (·.span.last)).max? = some united.span.last) ∧
    (∀ more, Footprint.uniteAll (sets ++ more) =
      Footprint.uniteAll [Footprint.uniteAll sets, Footprint.uniteAll more]) ∧
    ∀ others, sets.Perm others → (Footprint.uniteAll sets).Perm (Footprint.uniteAll others) := by
  refine ⟨⟨Footprint.map_name_foldl sets.flatten, fun united hunited => ?_⟩, fun more => ?_,
    fun others => Footprint.uniteAll_perm⟩
  · exact (Footprint.mem_uniteAll_iff.mp hunited).extremes
  · have hself : (Footprint.uniteAll sets).foldl Footprint.unite [] = Footprint.uniteAll sets :=
      Footprint.foldl_unite_foldl sets.flatten []
    calc
      Footprint.uniteAll (sets ++ more)
        = more.flatten.foldl Footprint.unite (Footprint.uniteAll sets) :=
          Footprint.uniteAll_append sets more
      _ = (Footprint.uniteAll more).foldl Footprint.unite (Footprint.uniteAll sets) :=
          (Footprint.foldl_unite_foldl more.flatten _).symm
      _ = (Footprint.uniteAll more).foldl Footprint.unite
            ((Footprint.uniteAll sets).foldl Footprint.unite []) := by rw [hself]
      _ = Footprint.uniteAll [Footprint.uniteAll sets, Footprint.uniteAll more] := by
          rw [← List.foldl_append]
          simp [Footprint.uniteAll]

/-- A name that occurs twice in one set, and a set with ends in front of the text. -/
theorem footprints_unite_in_any_grouping_repeated :
    let sets : List (List Footprint) :=
      [[⟨"f", ⟨5, 9⟩⟩, ⟨"g", ⟨1, 2⟩⟩, ⟨"f", ⟨0, 3⟩⟩], [⟨"g", ⟨-4, 1⟩⟩]]
    let more : List (List Footprint) := [[⟨"h", ⟨2, 2⟩⟩, ⟨"g", ⟨0, 7⟩⟩]]
    let united : Footprint := ⟨"f", ⟨0, 9⟩⟩
    (united ∈ Footprint.uniteAll sets ∧ ([5, 0] : List Int).min? = some united.span.first) ∧
      (Footprint.uniteAll (sets ++ more) =
          Footprint.uniteAll [Footprint.uniteAll sets, Footprint.uniteAll more] ∧
        Footprint.uniteAll (sets ++ more) =
          [⟨"f", ⟨0, 9⟩⟩, ⟨"g", ⟨-4, 7⟩⟩, ⟨"h", ⟨2, 2⟩⟩]) ∧
      (Footprint.uniteAll sets).Perm (Footprint.uniteAll sets.reverse) ∧
      Footprint.uniteAll sets.reverse = [⟨"g", ⟨-4, 2⟩⟩, ⟨"f", ⟨0, 9⟩⟩] := by
  intro sets more united
  obtain ⟨⟨_, hextremes⟩, hgrouping, horder⟩ := footprints_unite_in_any_grouping sets
  have hunited : united ∈ Footprint.uniteAll sets := by decide
  have hreverse : sets.Perm sets.reverse := sets.reverse_perm.symm
  exact ⟨⟨hunited, (hextremes united hunited).1⟩, ⟨hgrouping more, by decide⟩,
    horder sets.reverse hreverse, by decide⟩

end CDelta

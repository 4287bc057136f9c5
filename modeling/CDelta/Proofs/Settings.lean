import CDelta.Proofs.Extent
import CDelta.Proofs.Verdict
import Mathlib.Data.List.Forall2

/-! # What the settings of a survey change

A text is prepared and read under its choices in the same way wherever functions begin, so the
two ways to begin a function give surveys that differ in the beginnings alone. A higher limit
tries further choices behind those tried already: it adds functions and widens the known ones,
and takes nothing back.
-/

namespace CDelta

namespace Settings

/-- The settings with another place for functions to begin. -/
def withStart (settings : Settings) (start : Start) : Settings :=
  { settings with start }

/-- The settings with a limit that is no lower. -/
def raiseLimit (settings : Settings) {limit : Nat} (hlimit : settings.choiceLimit ≤ limit) :
    Settings :=
  { settings with
    choiceLimit := limit
    choiceLimit_pos := Nat.lt_of_lt_of_le settings.choiceLimit_pos hlimit }

end Settings

namespace Footprint

/-- The same function, begun further on. -/
def Later (early late : Footprint) : Prop :=
  early.name = late.name ∧ early.span.last = late.span.last ∧ early.span.first < late.span.first

namespace Later

theorem union {early late early' late' : Footprint} (hfirst : early.Later late)
    (hsecond : early'.Later late') :
    Later { early with span := early.span.union early'.span }
      { late with span := late.span.union late'.span } := by
  obtain ⟨hname, hlast, hbegin⟩ := hfirst
  obtain ⟨_, hlast', hbegin'⟩ := hsecond
  refine ⟨hname, ?_, ?_⟩
  · simp only [Span.union, hlast, hlast']
  · simp only [Span.union]
    omega

/-- Uniting keeps functions in step with the same ones begun further on. -/
theorem unite {known known' : List Footprint} (hknown : List.Forall₂ Later known known')
    {early late : Footprint} (hlater : early.Later late) :
    List.Forall₂ Later (unite known early) (unite known' late) := by
  induction hknown with
  | nil => exact .cons hlater .nil
  | @cons head head' rest rest' hhead hrest ih =>
      have hsame : head.name = early.name ↔ head'.name = late.name := by rw [hhead.1, hlater.1]
      rw [Footprint.unite, Footprint.unite]
      by_cases hname : head.name = early.name
      · rw [if_pos hname, if_pos (hsame.mp hname)]
        exact .cons (hhead.union hlater) hrest
      · rw [if_neg hname, if_neg fun hname' => hname (hsame.mpr hname')]
        exact .cons hhead ih

theorem uniteAll {sets sets' : List (List Footprint)}
    (hsets : List.Forall₂ (List.Forall₂ Later) sets sets') :
    List.Forall₂ Later (uniteAll sets) (uniteAll sets') :=
  List.rel_foldl (P := List.Forall₂ Later) (R := Later)
    (fun _ _ hknown _ _ hlater => unite hknown hlater) .nil (List.rel_flatten hsets)

end Later

/-- Uniting further footprints adds names behind those known. -/
theorem map_name_prefix_foldl (footprints known : List Footprint) :
    known.map (·.name) <+: (footprints.foldl unite known).map (·.name) := by
  induction footprints generalizing known with
  | nil => exact List.prefix_refl _
  | cons head rest ih =>
      refine List.IsPrefix.trans ?_ (ih (unite known head))
      rw [map_name_unite]
      split
      next => exact List.prefix_refl _
      next => exact List.prefix_append _ _

end Footprint

namespace Attempt

/-- Under every choice a function begins with its declaration in front of its body. -/
theorem later_footprints (source working : Bytes) (layout : Layout) (choice : Nat) :
    List.Forall₂ Footprint.Later ((read source working layout choice).footprints .declaration)
      ((read source working layout choice).footprints .body) := by
  rw [footprints, footprints, List.forall₂_map_left_iff, List.forall₂_map_right_iff,
    List.forall₂_same]
  intro found hfound
  obtain ⟨hbody, _⟩ := (Outline.readFrom_of_mem_definitions hfound).ends
  exact ⟨rfl, rfl, Int.ofNat_lt.mpr hbody⟩

end Attempt

namespace Survey

variable {settings : Settings} {path : String} {source : Bytes}

/-- A survey fails in the same way wherever functions begin. -/
theorem ofSource_withStart_eq_error_iff {start : Start} {failure : SurveyError} :
    ofSource (settings.withStart start) path source = .error failure ↔
      ofSource settings path source = .error failure := by
  cases failure with
  | malformed fault =>
      rw [ofSource_eq_malformed_iff, ofSource_eq_malformed_iff]
      rfl
  | exhausted fault =>
      rw [ofSource_eq_exhausted_iff, ofSource_eq_exhausted_iff]
      rfl

/-- The functions of a survey that begin with their declarations are those that begin with their
bodies, begun before. -/
theorem later_functions (settings : Settings) (path : String) (source : Bytes)
    (marks : List Mark) (layout : Layout) :
    List.Forall₂ Footprint.Later
      (ofParts (settings.withStart .declaration) path source marks layout).functions
      (ofParts (settings.withStart .body) path source marks layout).functions := by
  rw [functions_ofParts, functions_ofParts, survivors_ofParts, survivors_ofParts]
  refine Footprint.Later.uniteAll ?_
  rw [List.map_map, List.map_map, List.forall₂_map_left_iff, List.forall₂_map_right_iff]
  exact List.forall₂_same.mpr fun choice _ => Attempt.later_footprints _ _ _ choice

/-- A higher limit tries further choices behind those tried already. -/
theorem attempts_prefix_raiseLimit {limit : Nat} (hlimit : settings.choiceLimit ≤ limit)
    (path : String) (source : Bytes) (marks : List Mark) (layout : Layout) :
    (ofParts settings path source marks layout).attempts <+:
      (ofParts (settings.raiseLimit hlimit) path source marks layout).attempts := by
  have htried : min layout.choices settings.choiceLimit ≤ min layout.choices limit := by omega
  refine List.IsPrefix.map _ ?_
  rw [List.prefix_iff_eq_take, List.take_range, List.length_range]
  exact congrArg List.range (Nat.min_eq_left htried).symm

/-- A survey whose attempts come first in another finds the first functions of the other, and
each is held by the one of its name. -/
theorem functions_of_attempts_prefix {few many : Survey} {start : Start}
    (hfew : few.functions = Footprint.uniteAll (few.survivors.map (·.footprints start)))
    (hmany : many.functions = Footprint.uniteAll (many.survivors.map (·.footprints start)))
    (hattempts : few.attempts <+: many.attempts) :
    few.functions.map (·.name) <+: many.functions.map (·.name) ∧
      ∀ function ∈ few.functions, ∃ wider, many.function? function.name = some wider ∧
        wider.span.contains function.span = true := by
  have hsets : few.survivors.map (·.footprints start) <+:
      many.survivors.map (·.footprints start) := (hattempts.filter _).map _
  obtain ⟨more, hmore⟩ := hsets
  have hnodup : (many.functions.map (·.name)).Nodup := hmany ▸ Footprint.nodup_uniteAll _
  have hfold : many.functions = more.flatten.foldl Footprint.unite few.functions := by
    rw [hmany, ← hmore, Footprint.uniteAll_append, hfew]
  refine ⟨hfold ▸ Footprint.map_name_prefix_foldl _ _, fun function hfunction => ?_⟩
  obtain ⟨wider, hwider, hname, hcontains⟩ := Footprint.exists_holds_foldl more.flatten
    few.functions function (List.mem_append_left _ hfunction)
  rw [← hfold] at hwider
  exact ⟨wider, hname ▸ Footprint.find?_name hnodup hwider, hcontains⟩

end Survey

/-- Where functions begin has no part in how a text is read. With declarations and with bodies
alone, a survey fails with the same error, or it tries and drops the same choices for the same
faults and finds the same functions in the same order with the same ends, and each begins with
its declaration strictly before its body. -/
theorem body_start_moves_only_beginnings (settings : Settings) (path : String) (source : Bytes) :
    (∃ failure,
      Survey.ofSource (settings.withStart .declaration) path source = .error failure ∧
      Survey.ofSource (settings.withStart .body) path source = .error failure) ∨
    ∃ whole bodies,
      Survey.ofSource (settings.withStart .declaration) path source = .ok whole ∧
      Survey.ofSource (settings.withStart .body) path source = .ok bodies ∧
      whole.survivors = bodies.survivors ∧ whole.failures = bodies.failures ∧
      List.Forall₂ (fun function body => function.name = body.name ∧
          function.span.last = body.span.last ∧ function.span.first < body.span.first)
        whole.functions bodies.functions := by
  cases hwhole : Survey.ofSource (settings.withStart .declaration) path source with
  | error failure =>
      rw [Survey.ofSource_withStart_eq_error_iff] at hwhole
      exact .inl ⟨failure, rfl, Survey.ofSource_withStart_eq_error_iff.mpr hwhole⟩
  | ok whole =>
      obtain ⟨marks, layout, hprepare, rfl, hsome⟩ := Survey.ofSource_eq_ok_iff.mp hwhole
      refine .inr ⟨_, _, rfl, Survey.ofSource_eq_ok_iff.mpr ⟨marks, layout, hprepare, rfl, hsome⟩,
        rfl, rfl, ?_⟩
      exact Survey.later_functions settings path source marks layout

/-- A higher limit on the choices only adds. A text that is surveyed still is; the names found
come first and in their order, each function is held by the one of its name, and the choices
dropped and the spans left out come first as well. -/
theorem raising_limit_only_adds {settings : Settings} {limit : Nat}
    (hlimit : settings.choiceLimit ≤ limit) {path : String} {source : Bytes} {few : Survey}
    (hfew : Survey.ofSource settings path source = .ok few) :
    ∃ many, Survey.ofSource (settings.raiseLimit hlimit) path source = .ok many ∧
      few.functions.map (·.name) <+: many.functions.map (·.name) ∧
      (∀ function ∈ few.functions, ∃ wider, many.function? function.name = some wider ∧
        wider.span.contains function.span = true) ∧
      few.failures <+: many.failures ∧ few.hiddenSpans <+: many.hiddenSpans := by
  obtain ⟨marks, layout, hprepare, rfl, hsome⟩ := Survey.ofSource_eq_ok_iff.mp hfew
  have hattempts := Survey.attempts_prefix_raiseLimit hlimit path source marks layout
  obtain ⟨hnames, hwider⟩ := Survey.functions_of_attempts_prefix
    (Survey.functions_ofParts settings path source marks layout)
    (Survey.functions_ofParts (settings.raiseLimit hlimit) path source marks layout) hattempts
  -- a choice that survives is still tried, and survives
  have hsurvivors := hattempts.filter (·.survives)
  have hsome' : (Survey.ofParts (settings.raiseLimit hlimit) path source marks
      layout).survivors ≠ [] := fun hnone => hsome (List.prefix_nil.mp (hnone ▸ hsurvivors))
  exact ⟨_, Survey.ofSource_eq_ok_iff.mpr ⟨marks, layout, hprepare, rfl, hsome'⟩, hnames, hwider,
    hattempts.filterMap _, hsurvivors.map _⟩

namespace Survey

/-- A function in the first and in the last branch of a conditional, another one in the last, and
parameters that are left open in the branch between. -/
def threeBranches : Bytes :=
  Bytes.ofChars ("#if A\nint f() \x7b\x7d\n#elif B\nint f( \x7b\x7d\n#else\n".toList ++
    "int f() \x7b\x7d\nint g() \x7b\x7d\n#endif\n".toList)

/-- Two choices are tried. -/
def twoChoices : Settings := { Settings.default with choiceLimit := 2, choiceLimit_pos := by decide }

end Survey

/-- The third choice widens the function found under the first and adds another one; the second
is dropped with either limit. -/
theorem raising_limit_only_adds_three_branches :
    ∃ few many, Survey.ofSource Survey.twoChoices "a.c" Survey.threeBranches = .ok few ∧
      few.functions = [⟨"f", ⟨6, 15⟩⟩] ∧ few.failures.map (·.1) = [1] ∧
      Survey.ofSource (Survey.twoChoices.raiseLimit (by decide : 2 ≤ 3)) "a.c"
        Survey.threeBranches = .ok many ∧
      ["f"] <+: many.functions.map (·.name) ∧
      (∃ wider, many.function? "f" = some wider ∧ wider.span.contains ⟨6, 15⟩ = true) ∧
      few.failures <+: many.failures ∧ few.hiddenSpans <+: many.hiddenSpans := by
  have hread : (Survey.ofSource Survey.twoChoices "a.c" Survey.threeBranches).toOption.map
      (fun survey => (survey.functions, survey.failures.map (·.1))) =
        some ([⟨"f", ⟨6, 15⟩⟩], [1]) := by
    unfold Survey.ofSource Survey.prepare Attempt.read
    simp only [Bytes.blankMarks_eq_mask, Bytes.blank_eq_mask]
    decide +kernel
  cases hfew : Survey.ofSource Survey.twoChoices "a.c" Survey.threeBranches with
  | error => simp [hfew, Except.toOption] at hread
  | ok few =>
      rw [hfew] at hread
      obtain ⟨hfunctions, hfailures⟩ := Prod.mk.inj (Option.some.inj hread)
      obtain ⟨many, hmany, hnames, hwider, hdropped, hhidden⟩ :=
        raising_limit_only_adds (by decide : Survey.twoChoices.choiceLimit ≤ 3) hfew
      rw [hfunctions] at hnames hwider
      exact ⟨few, many, rfl, hfunctions, hfailures, hmany, hnames,
        hwider _ (List.mem_singleton_self _), hdropped, hhidden⟩

end CDelta

import CDelta.Report
import CDelta.Proofs.Fingerprint
import CDelta.Proofs.Footprint

/-! # What is found of a function

Each function of the old file has one finding, under its own name. It is unchanged when the
new file has a function of that name which compares as the same.
-/

namespace CDelta

/-- Sides that show the same compare as the same, collapsed or not. -/
theorem Side.compare_eq_same {a b : Side}
    (hsame : a.view.fingerprint a.region [] = b.view.fingerprint b.region []) :
    a.compare b = .same := by
  unfold compare
  split
  next => rfl
  next => exact Outcome.ofRegions_eq_same_iff.mpr hsame

namespace Finding

/-- A function is compared with the one of its name. -/
theorem ofFunction_eq_ofOutcome {a b : Survey} {function other : Footprint}
    (hpaired : b.function? function.name = some other) :
    ofFunction a.side b.side function = ofOutcome a b function.name
      ((a.side.within function.span).compare (b.side.within other.span)) := by
  have hlookup : b.side.survey.function? function.name = some other := hpaired
  rw [ofFunction, hlookup]
  rfl

theorem ofFunction_eq_unchanged {a b : Survey} {function other : Footprint}
    (hpaired : b.function? function.name = some other)
    (hcompare : (a.side.within function.span).compare (b.side.within other.span) = .same) :
    ofFunction a.side b.side function = ⟨function.name, .unchanged, none, none⟩ := by
  rw [ofFunction_eq_ofOutcome hpaired, hcompare]
  rfl

theorem name_ofFunction (a b : Side) (function : Footprint) :
    (ofFunction a b function).name = function.name := by
  unfold ofFunction
  split
  next => rfl
  next other _ =>
    cases (a.within function.span).compare (b.within other.span) <;> rfl

/-- A file whose functions have the names of the old ones has no new functions. -/
theorem newFunctions_eq_nil {a b : Survey}
    (hnames : b.functions.map (·.name) = a.functions.map (·.name)) : newFunctions a b = [] := by
  rw [newFunctions, List.filter_eq_nil_iff]
  intro function hmem hnone
  have hname : function.name ∈ a.functions.map (·.name) := by
    rw [← hnames]
    exact List.mem_map_of_mem hmem
  obtain ⟨known, hknown, heq⟩ := List.mem_map.mp hname
  rw [Survey.function?, Footprint.find?, Option.isNone_iff_eq_none, List.find?_eq_none] at hnone
  exact hnone known hknown (by simp [heq])

/-- Where names do not repeat, one finding is made under the name of an old function. -/
theorem filter_functions {a b : Survey} (hnodup : (a.functions.map (·.name)).Nodup)
    {function : Footprint} (hmem : function ∈ a.functions) :
    (functions a b).filter (·.name = function.name) = [ofFunction a.side b.side function] := by
  have hnew : ((newFunctions a b).map (added b)).filter (·.name = function.name) = [] := by
    rw [List.filter_eq_nil_iff]
    intro finding hfinding hname
    obtain ⟨other, hother, rfl⟩ := List.mem_map.mp hfinding
    have hsame : other.name = function.name := of_decide_eq_true hname
    have hnone := (List.mem_filter.mp hother).2
    rw [hsame, Survey.function?, Footprint.find?_name hnodup hmem] at hnone
    cases hnone
  have hold : a.functions.filter ((fun finding : Finding => finding.name = function.name) ∘
      ofFunction a.side b.side) = [function] := by
    rw [← Footprint.filter_name hnodup hmem]
    refine List.filter_congr fun other _ => ?_
    rw [Function.comp_apply, name_ofFunction]
  rw [functions, List.filter_append, hnew, List.append_nil, List.filter_map, hold]
  rfl

end Finding

end CDelta

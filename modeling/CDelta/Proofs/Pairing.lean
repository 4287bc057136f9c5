import CDelta.Proofs.BracketLine
import CDelta.Proofs.Extent
import CDelta.Proofs.Finding

/-! # Pairing functions by name

The findings of two files go through the functions of the old file first and then through those
that only the new file has. So each name is found once, what becomes of it is decided by which of
the files have it, and with the files exchanged the functions that were deleted are those that
are added. A finding gives lines along with offsets, and the line of an offset is told by the
newlines in front of it.
-/

namespace CDelta

namespace Bytes

/-- The offsets in front of `offset` at which a newline stands. -/
def newlinesBefore (data : Bytes) (offset : Int) : List Nat :=
  (List.range offset.toNat).filter fun place => data[place]? = some Byte.newline

/-- The line of an offset is one more than the newlines in front of it. -/
theorem lineOf_eq_length_newlinesBefore (data : Bytes) (offset : Int) :
    data.lineOf offset = (data.newlinesBefore offset).length + 1 := by
  rw [lineOf, newlinesBefore]
  generalize offset.toNat = count
  induction count with
  | zero => rfl
  | succ count ih =>
      rw [lineAt_succ, ih, List.range_succ, List.filter_append, List.length_append]
      by_cases hbyte : data[count]? = some Byte.newline <;> simp [hbyte]

end Bytes

namespace Survey

/-- The names of the functions of a file, in order. -/
def names (survey : Survey) : List String :=
  survey.functions.map (·.name)

theorem function?_eq_none_iff {survey : Survey} {name : String} :
    survey.function? name = none ↔ name ∉ survey.names := by
  rw [function?, Footprint.find?, List.find?_eq_none, names, List.mem_map]
  simp only [decide_eq_true_eq, not_exists, not_and]

theorem mem_names_of_function? {survey : Survey} {name : String} {function : Footprint}
    (hfound : survey.function? name = some function) : name ∈ survey.names := by
  by_contra hnone
  rw [function?_eq_none_iff.mpr hnone] at hfound
  cases hfound

end Survey

/-- What a status is with the files exchanged. -/
def Status.swap : Status → Status
  | unchanged => unchanged
  | changed => changed
  | deleted => added
  | added => deleted

namespace Finding

variable {a b : Survey} {finding : Finding}

/-- What is found with the files exchanged, of a function that only one of them has. -/
def swap (finding : Finding) : Finding :=
  ⟨finding.name, finding.status.swap, finding.placeB, finding.placeA⟩

/-- The place is on the line that the newlines of a file in front of its offset tell. -/
def LineTold (survey : Survey) (place : Place) : Prop :=
  place.line = (survey.source.newlinesBefore place.offset).length + 1

theorem lineTold_place (survey : Survey) (offset : Int) :
    LineTold survey (survey.place offset) := by
  rw [LineTold, Survey.place, Bytes.lineOf_eq_length_newlinesBefore]
  rfl

/-- A finding is that of a function which the new file lacks, of one which both have, or of one
which the old file lacks. -/
theorem mem_functions_iff :
    finding ∈ functions a b ↔
      (∃ function ∈ a.functions, function.name ∉ b.names ∧ finding = deleted a function) ∨
      (∃ function ∈ a.functions, ∃ other, b.function? function.name = some other ∧
        finding = ofOutcome a b function.name
          ((a.side.within function.span).compare (b.side.within other.span))) ∨
      ∃ function ∈ b.functions, function.name ∉ a.names ∧ finding = added b function := by
  have hold : finding ∈ a.functions.map (ofFunction a.side b.side) ↔
      (∃ function ∈ a.functions, function.name ∉ b.names ∧ finding = deleted a function) ∨
      ∃ function ∈ a.functions, ∃ other, b.function? function.name = some other ∧
        finding = ofOutcome a b function.name
          ((a.side.within function.span).compare (b.side.within other.span)) := by
    rw [List.mem_map, ← exists_or]
    apply exists_congr
    intro function
    rw [← and_or_left]
    apply and_congr_right
    intro _
    cases hfound : b.function? function.name with
    | none =>
        have hlookup : b.side.survey.function? function.name = none := hfound
        have hnone := Survey.function?_eq_none_iff.mp hfound
        rw [ofFunction, hlookup]
        simp [hnone, eq_comm, Survey.side]
    | some other =>
        have hsome := Survey.mem_names_of_function? hfound
        rw [ofFunction_eq_ofOutcome hfound]
        simp [hsome, eq_comm]
  have hnew : finding ∈ (newFunctions a b).map (added b) ↔
      ∃ function ∈ b.functions, function.name ∉ a.names ∧ finding = added b function := by
    simp only [List.mem_map, newFunctions, List.mem_filter, Option.isNone_iff_eq_none,
      Survey.function?_eq_none_iff, and_assoc, eq_comm (b := finding)]
  rw [functions, List.mem_append, hold, hnew, or_assoc]

/-- A comparison finds a function neither deleted nor added. -/
theorem status_ofOutcome (a b : Survey) (name : String) (outcome : Outcome) :
    (ofOutcome a b name outcome).status ≠ .deleted ∧
      (ofOutcome a b name outcome).status ≠ .added := by
  cases outcome <;> simp [ofOutcome]

/-- The names of the findings: those of the old file, then those that only the new file has. -/
theorem map_name_functions (a b : Survey) :
    (functions a b).map (·.name) = a.names ++ b.names.filter (· ∉ a.names) := by
  have hold : (a.functions.map (ofFunction a.side b.side)).map (·.name) = a.names := by
    rw [List.map_map]
    exact List.map_congr_left fun function _ => name_ofFunction _ _ function
  have hnew : ((newFunctions a b).map (added b)).map (·.name) =
      b.names.filter (· ∉ a.names) := by
    rw [List.map_map, newFunctions, show b.names = b.functions.map (·.name) from rfl,
      List.filter_map]
    have hfilter : ∀ function ∈ b.functions,
        (a.function? function.name).isNone =
          ((fun name => decide (name ∉ a.names)) ∘ fun other : Footprint => other.name)
            function := by
      intro function _
      rw [Function.comp_apply, Bool.eq_iff_iff, Option.isNone_iff_eq_none,
        Survey.function?_eq_none_iff, decide_eq_true_eq]
    rw [List.filter_congr hfilter]
    rfl
  rw [functions, List.map_append, hold, hnew]

theorem nodup_names (ha : a.names.Nodup) (hb : b.names.Nodup) :
    ((functions a b).map (·.name)).Nodup := by
  rw [map_name_functions]
  apply List.Nodup.append ha (hb.filter _)
  intro name hold hnew
  simp [hold] at hnew

/-- What a finding says of two files: its status tells which of them have a function of its name,
a function that one of them lacks is found where it begins in the other, and its lines are those
of its offsets. -/
structure Tells (a b : Survey) (finding : Finding) : Prop where
  deleted_iff : finding.status = .deleted ↔ finding.name ∈ a.names ∧ finding.name ∉ b.names
  added_iff : finding.status = .added ↔ finding.name ∉ a.names ∧ finding.name ∈ b.names
  paired_iff : finding.status = .changed ∨ finding.status = .unchanged ↔
    finding.name ∈ a.names ∧ finding.name ∈ b.names
  deleted_at : finding.status = .deleted → ∃ function ∈ a.functions,
    function.name = finding.name ∧ finding.placeA = some (a.place function.span.first)
  added_at : finding.status = .added → ∃ function ∈ b.functions,
    function.name = finding.name ∧ finding.placeB = some (b.place function.span.first)
  lineA : ∀ place ∈ finding.placeA, LineTold a place
  lineB : ∀ place ∈ finding.placeB, LineTold b place

theorem tells_deleted {function : Footprint} (hmem : function ∈ a.functions)
    (hnone : function.name ∉ b.names) : (deleted a function).Tells a b := by
  have hname : function.name ∈ a.names := List.mem_map_of_mem hmem
  constructor
  case deleted_iff => exact iff_of_true rfl ⟨hname, hnone⟩
  case added_iff => exact iff_of_false (by simp [deleted]) fun hnew => hnew.1 hname
  case paired_iff => exact iff_of_false (by simp [deleted]) fun hboth => hnone hboth.2
  case deleted_at => exact fun _ => ⟨function, hmem, rfl, rfl⟩
  case added_at => simp [deleted]
  case lineA =>
    rintro _ ⟨⟩
    exact lineTold_place a _
  case lineB => simp [deleted]

theorem tells_added {function : Footprint} (hmem : function ∈ b.functions)
    (hnone : function.name ∉ a.names) : (added b function).Tells a b := by
  have hname : function.name ∈ b.names := List.mem_map_of_mem hmem
  constructor
  case deleted_iff => exact iff_of_false (by simp [added]) fun hold => hold.2 hname
  case added_iff => exact iff_of_true rfl ⟨hnone, hname⟩
  case paired_iff => exact iff_of_false (by simp [added]) fun hboth => hnone hboth.1
  case deleted_at => simp [added]
  case added_at => exact fun _ => ⟨function, hmem, rfl, rfl⟩
  case lineA => simp [added]
  case lineB =>
    rintro _ ⟨⟩
    exact lineTold_place b _

theorem tells_ofOutcome {name : String} (hold : name ∈ a.names) (hnew : name ∈ b.names)
    (outcome : Outcome) : (ofOutcome a b name outcome).Tells a b := by
  cases outcome with
  | same => constructor <;> simp [ofOutcome, hold, hnew]
  | differs offsetA offsetB =>
      constructor <;> simp [ofOutcome, hold, hnew, lineTold_place]

theorem tells_of_mem (hfinding : finding ∈ functions a b) : finding.Tells a b := by
  rcases mem_functions_iff.mp hfinding with
    ⟨function, hmem, hnone, rfl⟩ | ⟨function, hmem, other, hfound, rfl⟩ |
      ⟨function, hmem, hnone, rfl⟩
  · exact tells_deleted hmem hnone
  · exact tells_ofOutcome (List.mem_map_of_mem hmem) (Survey.mem_names_of_function? hfound) _
  · exact tells_added hmem hnone

theorem mem_functions_deleted_iff (hdeleted : finding.status = .deleted) :
    finding ∈ functions a b ↔
      ∃ function ∈ a.functions, function.name ∉ b.names ∧ finding = deleted a function := by
  refine ⟨fun hmem => ?_, fun hfound => mem_functions_iff.mpr (.inl hfound)⟩
  rcases mem_functions_iff.mp hmem with hfound | ⟨_, _, _, _, rfl⟩ | ⟨_, _, _, rfl⟩
  · exact hfound
  · exact absurd hdeleted (status_ofOutcome _ _ _ _).1
  · simp [added] at hdeleted

theorem deleted_mem_functions_iff {function : Footprint} (hmem : function ∈ a.functions) :
    deleted a function ∈ functions a b ↔ function.name ∉ b.names := by
  rw [mem_functions_deleted_iff rfl]
  constructor
  · rintro ⟨other, _, hnone, hsame⟩
    have hname : function.name = other.name := congrArg Finding.name hsame
    rwa [hname]
  · exact fun hnone => ⟨function, hmem, hnone, rfl⟩

theorem mem_functions_added_iff (hadded : finding.status = .added) :
    finding ∈ functions a b ↔
      ∃ function ∈ b.functions, function.name ∉ a.names ∧ finding = added b function := by
  refine ⟨fun hmem => ?_, fun hfound => mem_functions_iff.mpr (.inr (.inr hfound))⟩
  rcases mem_functions_iff.mp hmem with ⟨_, _, _, rfl⟩ | ⟨_, _, _, _, rfl⟩ | hfound
  · simp [deleted] at hadded
  · exact absurd hadded (status_ofOutcome _ _ _ _).2
  · exact hfound

/-- With the files exchanged, the functions that were deleted are those that are added. -/
theorem mem_functions_swap_iff (hdeleted : finding.status = .deleted) :
    finding ∈ functions a b ↔ finding.swap ∈ functions b a := by
  have hadded : finding.swap.status = .added := by rw [swap, hdeleted]; rfl
  have hmirror : ∀ function, finding = deleted a function ↔ finding.swap = added a function := by
    intro function
    obtain ⟨name, status, placeA, placeB⟩ := finding
    obtain rfl : status = .deleted := hdeleted
    simp [swap, Status.swap, deleted, added, and_comm]
  rw [mem_functions_deleted_iff hdeleted, mem_functions_added_iff hadded]
  simp only [hmirror]

end Finding

/-- Two files whose functions have different names each. The names found are those of the old file
in its order, then those that only the new file has in its order, each once. A function is deleted
exactly if only the old file has its name, added if only the new one has, and changed or unchanged
if both have. What is found deleted, at an offset and a line, is found added at the same offset and
line with the files exchanged. Each line is one more than the newlines in front of its offset. -/
theorem pairing_is_total_and_dual {a b : Survey} (ha : a.names.Nodup) (hb : b.names.Nodup) :
    ((Finding.functions a b).map (·.name) = a.names ++ b.names.filter (· ∉ a.names) ∧
      ((Finding.functions a b).map (·.name)).Nodup) ∧
    (∀ finding ∈ Finding.functions a b, finding.Tells a b) ∧
    ∀ finding : Finding, finding.status = .deleted →
      (finding ∈ Finding.functions a b ↔ finding.swap ∈ Finding.functions b a) :=
  ⟨⟨Finding.map_name_functions a b, Finding.nodup_names ha hb⟩,
    fun _ hfinding => Finding.tells_of_mem hfinding,
    fun _ hdeleted => Finding.mem_functions_swap_iff hdeleted⟩

/-- A function in both files, one behind it that only the old file has, and one that only the new
file has. -/
theorem pairing_is_total_and_dual_one_each :
    let old := Bytes.ofChars "f()\x7b\x7d\n\ng()\x7b\x7d\n".toList
    let new := Bytes.ofChars "h()\x7b\x7d f()\x7bx;\x7d".toList
    ∃ a b : Survey,
      Survey.ofSource Settings.default "a.c" old = .ok a ∧
      Survey.ofSource Settings.default "b.c" new = .ok b ∧
      (a.names.Nodup ∧ b.names.Nodup) ∧
      (Finding.functions a b).map (·.name) = ["f", "g", "h"] ∧
      ⟨"g", .deleted, some ⟨7, 3⟩, none⟩ ∈ Finding.functions a b ∧
      ⟨"g", .added, none, some ⟨7, 3⟩⟩ ∈ Finding.functions b a := by
  intro old new
  obtain ⟨a, ha, hfunctionsA⟩ : ∃ survey, Survey.ofSource Settings.default "a.c" old = .ok survey ∧
      survey.functions = [⟨"f", ⟨0, 4⟩⟩, ⟨"g", ⟨7, 11⟩⟩] := by
    apply Survey.exists_of_toOption
    unfold Survey.ofSource Survey.prepare Attempt.read
    simp only [Bytes.blankMarks_eq_mask, Bytes.blank_eq_mask]
    decide +kernel
  obtain ⟨b, hb, hfunctionsB⟩ : ∃ survey, Survey.ofSource Settings.default "b.c" new = .ok survey ∧
      survey.functions = [⟨"h", ⟨0, 4⟩⟩, ⟨"f", ⟨6, 12⟩⟩] := by
    apply Survey.exists_of_toOption
    unfold Survey.ofSource Survey.prepare Attempt.read
    simp only [Bytes.blankMarks_eq_mask, Bytes.blank_eq_mask]
    decide +kernel
  have hnodup : a.names.Nodup ∧ b.names.Nodup :=
    ⟨Survey.nodup_functions ha, Survey.nodup_functions hb⟩
  obtain ⟨⟨hnames, _⟩, _, hdual⟩ := pairing_is_total_and_dual hnodup.1 hnodup.2
  have hdeleted : ⟨"g", .deleted, some ⟨7, 3⟩, none⟩ ∈ Finding.functions a b := by
    apply Finding.mem_functions_iff.mpr
    refine .inl ⟨⟨"g", ⟨7, 11⟩⟩, by simp [hfunctionsA], ?_, ?_⟩
    · simp [Survey.names, hfunctionsB]
    · rw [Finding.deleted, Survey.place, Survey.source_eq ha]
      decide +kernel
  refine ⟨a, b, ha, hb, hnodup, ?_, hdeleted, (hdual _ rfl).mp hdeleted⟩
  rw [hnames, Survey.names, Survey.names, hfunctionsA, hfunctionsB]
  decide

end CDelta

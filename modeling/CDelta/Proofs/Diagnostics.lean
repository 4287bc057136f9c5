import CDelta.Proofs.Segment
import Mathlib.Data.List.Duplicate
import Mathlib.Data.List.FinRange

/-! # What a survey warns of

A survey warns when choices were left out, when one choice defines a name twice, and when two of
the united functions share an offset. The warnings list the names and the pairs that are meant, all
of them and no others. Without conditionals there is one choice, and unless that defines a name
twice, its functions are the united ones: these follow each other, so that no two of them meet.
-/

namespace CDelta

/-- The pairs of elements of a list, each element with those behind it, in order. -/
def orderedPairs {α : Type} : List α → List (α × α)
  | [] => []
  | first :: rest => rest.map (fun later => (first, later)) ++ orderedPairs rest

theorem orderedPairs_map {α β : Type} (f : α → β) (list : List α) :
    orderedPairs (list.map f) = (orderedPairs list).map (Prod.map f f) := by
  induction list with
  | nil => rfl
  | cons first rest ih =>
      rw [List.map_cons, orderedPairs, orderedPairs, ih, List.map_append, List.map_map,
        List.map_map]
      rfl

section Places

variable {count : Nat} {places : List (Fin count)}

theorem mem_orderedPairs_iff (hsorted : places.Pairwise (· < ·)) {i j : Fin count} :
    (i, j) ∈ orderedPairs places ↔ i ∈ places ∧ j ∈ places ∧ i < j := by
  induction places with
  | nil => simp [orderedPairs]
  | cons first rest ih =>
      obtain ⟨hfirst, hrest⟩ := List.pairwise_cons.mp hsorted
      simp only [orderedPairs, List.mem_append, List.mem_map, Prod.mk.injEq, ih hrest,
        List.mem_cons]
      constructor
      · rintro (⟨later, hlater, rfl, rfl⟩ | ⟨hi, hj, hlt⟩)
        · exact ⟨.inl rfl, .inr hlater, hfirst later hlater⟩
        · exact ⟨.inr hi, .inr hj, hlt⟩
      · rintro ⟨rfl | hi, rfl | hj, hlt⟩
        · exact absurd hlt (lt_irrefl _)
        · exact .inl ⟨j, hj, rfl, rfl⟩
        · exact absurd hlt (hfirst i hi).asymm
        · exact .inr ⟨hi, hj, hlt⟩

theorem pairwise_orderedPairs (hsorted : places.Pairwise (· < ·)) :
    (orderedPairs places).Pairwise (Prod.Lex (· < ·) (· < ·)) := by
  induction places with
  | nil => exact .nil
  | cons first rest ih =>
      obtain ⟨hfirst, hrest⟩ := List.pairwise_cons.mp hsorted
      rw [orderedPairs, List.pairwise_append, List.pairwise_map]
      refine ⟨hrest.imp fun hlt => .right _ hlt, ih hrest, ?_⟩
      rintro pair hpair ⟨i, j⟩ hbehind
      obtain ⟨later, _, rfl⟩ := List.mem_map.mp hpair
      exact .left _ _ (hfirst i ((mem_orderedPairs_iff hrest).mp hbehind).1)

end Places

namespace Footprint

/-- Two footprints have an offset in common. -/
def Shares (footprint other : Footprint) : Prop :=
  ∃ offset : Nat, footprint.span.has offset = true ∧ other.span.has offset = true

/-- An end of one footprint lies in the other exactly when they share an offset, also when one of
them holds the other. -/
theorem meets_iff_shares {footprint other : Footprint} (hfirst : 0 ≤ footprint.span.first)
    (hordered : footprint.span.first ≤ footprint.span.last) (hother : 0 ≤ other.span.first)
    (hotherOrdered : other.span.first ≤ other.span.last) :
    footprint.meets other = true ↔ footprint.Shares other := by
  simp only [meets, Span.endsIn, Bool.or_eq_true, Span.has_iff, Shares]
  constructor
  · intro hends
    -- the later one of the two beginnings is shared
    refine ⟨(max footprint.span.first other.span.first).toNat, ?_⟩
    omega
  · rintro ⟨offset, hshared⟩
    omega

/-- The places of two footprints that meet, in order. -/
def meetingPlaces (footprints : List Footprint) :
    List (Fin footprints.length × Fin footprints.length) :=
  (orderedPairs (List.finRange footprints.length)).filter fun places =>
    (footprints.get places.1).meets (footprints.get places.2)

theorem overlaps_eq_filter (footprints : List Footprint) :
    overlaps footprints = (orderedPairs footprints).filter fun pair => pair.1.meets pair.2 := by
  induction footprints with
  | nil => rfl
  | cons first rest ih =>
      rw [overlaps, orderedPairs, List.filter_append, ih, List.filter_map]
      rfl

theorem overlaps_eq_map (footprints : List Footprint) :
    overlaps footprints =
      (meetingPlaces footprints).map (Prod.map footprints.get footprints.get) := by
  calc
    overlaps footprints
      = (orderedPairs ((List.finRange footprints.length).map footprints.get)).filter
          (fun pair => pair.1.meets pair.2) := by
        rw [List.map_get_finRange, overlaps_eq_filter]
    _ = (meetingPlaces footprints).map (Prod.map footprints.get footprints.get) := by
        rw [orderedPairs_map, List.filter_map]
        rfl

theorem mem_repeated_iff {footprints : List Footprint} {name : String} :
    name ∈ repeated footprints ↔ List.Duplicate name (footprints.map (·.name)) := by
  rw [List.duplicate_iff_two_le_count, repeated, List.mem_filter, List.mem_eraseDups,
    decide_eq_true_eq]
  refine and_iff_right_of_imp fun htwice => ?_
  exact List.count_pos_iff.mp (Nat.zero_lt_of_lt htwice)

theorem mem_duplicates_iff {sets : List (List Footprint)} {name : String} :
    name ∈ duplicates sets ↔ ∃ set ∈ sets, List.Duplicate name (set.map (·.name)) := by
  simp only [duplicates, List.mem_eraseDups, List.mem_flatMap, mem_repeated_iff]

theorem unite_of_new {known : List Footprint} {footprint : Footprint}
    (hnew : footprint.name ∉ known.map (·.name)) :
    unite known footprint = known ++ [footprint] := by
  induction known with
  | nil => rfl
  | cons head rest ih =>
      rw [List.map_cons, List.mem_cons, not_or] at hnew
      rw [unite, if_neg (Ne.symm hnew.1), ih hnew.2, List.cons_append]

/-- A set in which no name repeats is united with itself. -/
theorem uniteAll_singleton {set : List Footprint} (hnodup : (set.map (·.name)).Nodup) :
    uniteAll [set] = set := by
  have hfold : ∀ list known : List Footprint, ((known ++ list).map (·.name)).Nodup →
      list.foldl unite known = known ++ list := by
    intro list
    induction list with
    | nil => simp
    | cons head rest ih =>
        intro known hnodup
        have hnew : head.name ∉ known.map (·.name) := by
          rw [List.map_append, List.map_cons] at hnodup
          exact fun hmem => List.disjoint_of_nodup_append hnodup hmem List.mem_cons_self
        rw [List.foldl_cons, unite_of_new hnew, ih _ (by simpa using hnodup), List.append_assoc]
        rfl
  simpa [uniteAll] using hfold set [] hnodup

end Footprint

/-- Two definitions that a choice finds have one name. -/
def Attempt.DefinesTwice (attempt : Attempt) (name : String) : Prop :=
  ∃ first second : Definition, [first, second].Sublist attempt.outline.definitions ∧
    Text.Utf8.decode first.name.text = name ∧ Text.Utf8.decode second.name.text = name

theorem Attempt.definesTwice_iff {attempt : Attempt} {name : String} (start : Start) :
    attempt.DefinesTwice name ↔
      List.Duplicate name ((attempt.footprints start).map (·.name)) := by
  rw [List.duplicate_iff_sublist, footprints, List.map_map, List.sublist_map_iff]
  constructor
  · rintro ⟨first, second, hsublist, rfl, hsecond⟩
    exact ⟨[first, second], hsublist, by simp [Definition.footprint, hsecond]⟩
  · rintro ⟨pair, hsublist, hnames⟩
    have hlength : pair.length = 2 := by simpa using (congrArg List.length hnames).symm
    obtain ⟨first, second, rfl⟩ := List.length_eq_two.mp hlength
    simp only [List.map_cons, List.map_nil, List.cons.injEq, and_true] at hnames
    exact ⟨first, second, hsublist, hnames.1.symm, hnames.2.symm⟩

/-- A file without conditionals has one choice. -/
theorem Layout.Reads.choices_eq_one {source working : Bytes} {layout : Layout}
    {blocks : List Piece} (hreads : layout.Reads source working blocks)
    (hplain : layout.isBranching = false) : layout.choices = 1 := by
  have hnone : layout.controls = [] := by simpa [isBranching] using hplain
  have htree : layout.tree.controls = [] := by
    rw [hreads.controls_tree, List.eq_nil_iff_forall_not_mem]
    intro control hcontrol
    obtain ⟨mark, hmem, hkind, _⟩ := Control.span_mem_of_mem_ofMarks hcontrol
    have hmark : mark ∈ layout.controls := List.mem_filter.mpr ⟨hmem, hkind⟩
    rw [hnone] at hmark
    cases hmark
  cases hsequence : layout.tree with
  | nil =>
      rw [choices, hsequence]
      rfl
  | cons first rest =>
      have hopener : first.opener ∈ layout.tree.controls := by
        rw [hsequence]
        exact List.mem_append_left _ first.opener_mem_controls
      rw [htree] at hopener
      cases hopener

namespace Survey

/-- A warning that lists some entries; there is none when there are no entries. -/
def listing? (about path : String) (entries : List String) (advice : String) : Option String :=
  if entries = [] then none
  else some (about ++ path ++ " (" ++ ", ".intercalate entries ++ "): " ++ advice)

theorem listing?_isSome_iff {about path advice : String} {entries : List String} :
    (listing? about path entries advice).isSome = true ↔ ∃ entry, entry ∈ entries := by
  cases entries <;> simp [listing?]

theorem duplicateWarning?_eq (survey : Survey) :
    survey.duplicateWarning? =
      listing? "duplicate function names found in " survey.path
        (Footprint.duplicates survey.sets) "RESULTS CAN BE INCORRECT" := by
  unfold duplicateWarning?
  split
  next hnone => rw [hnone]; rfl
  next names hsome =>
    have hadvice : "): RESULTS CAN BE INCORRECT" = "): " ++ "RESULTS CAN BE INCORRECT" := by decide
    rw [listing?, if_neg hsome]
    change some (_ ++ "): RESULTS CAN BE INCORRECT") = _
    rw [hadvice, ← String.append_assoc]
    rfl

theorem overlapWarning?_eq (survey : Survey) :
    survey.overlapWarning? =
      listing? "function declarations overlapped in " survey.path
        ((Footprint.overlaps survey.functions).map fun pair => pair.1.name ++ "/" ++ pair.2.name)
        "RESULTS can show more changed functions than necessary" := by
  unfold overlapWarning?
  split
  next hnone => rw [hnone]; rfl
  next pairs hsome =>
    have hsomeNames : (Footprint.overlaps survey.functions).map
        (fun pair => pair.1.name ++ "/" ++ pair.2.name) ≠ [] := by simpa using hsome
    rw [listing?, if_neg hsomeNames]
    rfl

variable {settings : Settings} {path : String} {source : Bytes} {survey : Survey}

/-- The warnings of a survey, exactly: the truncation warning tells that choices were left out, the
duplicate warning lists the names that some choice defines twice, each once, and the overlap
warning lists the functions at the pairs of places that share an offset, in the order of the
places. -/
structure Diagnosed (survey : Survey) (names : List String)
    (pairs : List (Fin survey.functions.length × Fin survey.functions.length)) : Prop where
  order : survey.warnings = survey.truncationWarning?.toList ++
    survey.duplicateWarning?.toList ++ survey.overlapWarning?.toList
  truncation_iff : survey.truncationWarning?.isSome = true ↔
    survey.choicesTried < survey.choicesTotal
  names_nodup : names.Nodup
  mem_names_iff : ∀ name, name ∈ names ↔ ∃ attempt ∈ survey.survivors, attempt.DefinesTwice name
  duplicate_eq : survey.duplicateWarning? =
    listing? "duplicate function names found in " survey.path names "RESULTS CAN BE INCORRECT"
  pairs_sorted : pairs.Pairwise (Prod.Lex (· < ·) (· < ·))
  mem_pairs_iff : ∀ i j, (i, j) ∈ pairs ↔
    i < j ∧ (survey.functions.get i).Shares (survey.functions.get j)
  overlap_eq : survey.overlapWarning? =
    listing? "function declarations overlapped in " survey.path
      (pairs.map fun pair =>
        (survey.functions.get pair.1).name ++ "/" ++ (survey.functions.get pair.2).name)
      "RESULTS can show more changed functions than necessary"

theorem warnings_eq (hsurvey : ofSource settings path source = .ok survey) :
    survey.warnings = survey.truncationWarning?.toList ++ survey.duplicateWarning?.toList ++
      survey.overlapWarning?.toList := by
  have hmissing : survey.missingWarning? = none := by
    obtain ⟨_, _, _, rfl, _⟩ := ofSource_eq_ok_iff.mp hsurvey
    rfl
  rw [warnings, hmissing]
  cases survey.truncationWarning? <;> cases survey.duplicateWarning? <;>
    cases survey.overlapWarning? <;> rfl

theorem shares_iff (hsurvey : ofSource settings path source = .ok survey)
    (i j : Fin survey.functions.length) :
    (survey.functions.get i).meets (survey.functions.get j) = true ↔
      (survey.functions.get i).Shares (survey.functions.get j) := by
  have hfirst := delimits_of_mem_functions hsurvey (List.get_mem survey.functions i)
  have hsecond := delimits_of_mem_functions hsurvey (List.get_mem survey.functions j)
  exact Footprint.meets_iff_shares hfirst.nonneg hfirst.ordered.le hsecond.nonneg
    hsecond.ordered.le

theorem diagnosed (hsurvey : ofSource settings path source = .ok survey) :
    survey.Diagnosed (Footprint.duplicates survey.sets)
      (Footprint.meetingPlaces survey.functions) := by
  have hsorted := List.pairwise_lt_finRange survey.functions.length
  constructor
  case order => exact warnings_eq hsurvey
  case truncation_iff =>
    unfold truncationWarning? isTruncated
    simp
  case names_nodup => exact nodup_eraseDups _
  case mem_names_iff =>
    intro name
    rw [sets_eq hsurvey, Footprint.mem_duplicates_iff]
    simp only [List.mem_map, exists_exists_and_eq_and, ← Attempt.definesTwice_iff]
  case duplicate_eq => exact survey.duplicateWarning?_eq
  case pairs_sorted => exact (pairwise_orderedPairs hsorted).filter _
  case mem_pairs_iff =>
    intro i j
    rw [Footprint.meetingPlaces, List.mem_filter, mem_orderedPairs_iff hsorted,
      shares_iff hsurvey]
    simp [List.mem_finRange]
  case overlap_eq =>
    rw [overlapWarning?_eq, Footprint.overlaps_eq_map, List.map_map]
    rfl

/-- A file without conditionals is read once. -/
theorem exists_survivors_eq (hsurvey : ofSource settings path source = .ok survey)
    (hplain : survey.layout.isBranching = false) :
    ∃ attempt, survey.survivors = [attempt] := by
  obtain ⟨marks, layout, hprepare, rfl, hsome⟩ := ofSource_eq_ok_iff.mp hsurvey
  obtain ⟨_, _, hparts⟩ := exists_parts hprepare
  have htried : (ofParts settings path source marks layout).attempts.length = 1 := by
    have hlimit := settings.choiceLimit_pos
    simp only [ofParts, List.length_map, List.length_range,
      hparts.reads.choices_eq_one hplain]
    omega
  obtain ⟨attempt, hattempt⟩ := List.length_eq_one_iff.mp htried
  refine ⟨attempt, ?_⟩
  rw [survivors, hattempt] at hsome ⊢
  cases hsurvives : attempt.survives with
  | true => simp [hsurvives]
  | false => simp [hsurvives] at hsome

theorem exists_scratch (hsurvey : ofSource settings path source = .ok survey) {attempt : Attempt}
    (hattempt : attempt ∈ survey.survivors) :
    ∃ scratch : Bytes, attempt.outline = Outline.ofTokens scratch.tokens := by
  obtain ⟨_, _, _, rfl, _⟩ := ofSource_eq_ok_iff.mp hsurvey
  rw [survivors_ofParts] at hattempt
  obtain ⟨_, _, rfl⟩ := List.mem_map.mp hattempt
  exact ⟨_, rfl⟩

/-- Without conditionals, and with no name defined twice, each function ends in front of those
behind it. -/
theorem pairwise_functions (hsurvey : ofSource settings path source = .ok survey)
    (hplain : survey.layout.isBranching = false)
    (honce : ∀ attempt ∈ survey.survivors, ∀ name, ¬ attempt.DefinesTwice name) :
    survey.functions.Pairwise (·.span.last < ·.span.first) := by
  obtain ⟨attempt, hsurvivors⟩ := exists_survivors_eq hsurvey hplain
  have hnodup : ((attempt.footprints settings.start).map (·.name)).Nodup := by
    rw [List.nodup_iff_forall_not_duplicate]
    intro name hname
    exact honce attempt (by simp [hsurvivors]) name ((Attempt.definesTwice_iff _).mpr hname)
  have hfunctions : survey.functions = attempt.footprints settings.start := by
    obtain ⟨_, _, _, rfl, _⟩ := ofSource_eq_ok_iff.mp hsurvey
    rw [functions_ofParts, hsurvivors, List.map_singleton, Footprint.uniteAll_singleton hnodup]
  obtain ⟨scratch, hscratch⟩ :=
    exists_scratch hsurvey (hsurvivors ▸ List.mem_singleton_self attempt)
  rw [hfunctions, Attempt.footprints, hscratch, List.pairwise_map]
  apply (Outline.pairwise_definitions (Token.ascending_scan 0 scratch) settings.start).imp
  exact fun hlt => Int.ofNat_lt.mpr hlt

theorem overlapWarning?_eq_none (hsurvey : ofSource settings path source = .ok survey)
    (hordered : survey.functions.Pairwise (·.span.last < ·.span.first)) :
    survey.overlapWarning? = none := by
  rw [← Option.not_isSome_iff_eq_none, (diagnosed hsurvey).overlap_eq, listing?_isSome_iff]
  rintro ⟨_, hentry⟩
  obtain ⟨⟨i, j⟩, hpair, _⟩ := List.mem_map.mp hentry
  obtain ⟨hlt, offset, hfirst, hsecond⟩ := ((diagnosed hsurvey).mem_pairs_iff i j).mp hpair
  have hapart := List.pairwise_iff_get.mp hordered i j hlt
  rw [Span.has_iff] at hfirst hsecond
  omega

end Survey

/-- The warnings of a survey list what they are about, all of it and nothing else. There is one about
duplicates exactly if a surviving choice defines a name twice, and one about overlaps exactly if two
functions share an offset. Without conditionals and without duplicates no two functions do: they
follow each other. -/
theorem diagnostics_are_exact {settings : Settings} {path : String} {source : Bytes}
    {survey : Survey} (hsurvey : Survey.ofSource settings path source = .ok survey) :
    (∃ names pairs, survey.Diagnosed names pairs) ∧
    (survey.duplicateWarning?.isSome = true ↔
      ∃ attempt ∈ survey.survivors, ∃ name, attempt.DefinesTwice name) ∧
    (survey.overlapWarning?.isSome = true ↔ ∃ i j : Fin survey.functions.length,
      i < j ∧ (survey.functions.get i).Shares (survey.functions.get j)) ∧
    (survey.layout.isBranching = false →
      (∀ attempt ∈ survey.survivors, ∀ name, ¬ attempt.DefinesTwice name) →
      survey.overlapWarning? = none ∧
        survey.functions.Pairwise (·.span.last < ·.span.first)) := by
  have hdiagnosed := Survey.diagnosed hsurvey
  refine ⟨⟨_, _, hdiagnosed⟩, ?_, ?_, fun hplain honce => ?_⟩
  · rw [hdiagnosed.duplicate_eq, Survey.listing?_isSome_iff]
    simp only [hdiagnosed.mem_names_iff]
    constructor
    · rintro ⟨name, attempt, hattempt, htwice⟩
      exact ⟨attempt, hattempt, name, htwice⟩
    · rintro ⟨attempt, hattempt, name, htwice⟩
      exact ⟨name, attempt, hattempt, htwice⟩
  · rw [hdiagnosed.overlap_eq, Survey.listing?_isSome_iff]
    constructor
    · rintro ⟨_, hentry⟩
      obtain ⟨⟨i, j⟩, hpair, _⟩ := List.mem_map.mp hentry
      exact ⟨i, j, (hdiagnosed.mem_pairs_iff i j).mp hpair⟩
    · rintro ⟨i, j, hshares⟩
      exact ⟨_, List.mem_map_of_mem ((hdiagnosed.mem_pairs_iff i j).mpr hshares)⟩
  · have hordered := Survey.pairwise_functions hsurvey hplain honce
    exact ⟨Survey.overlapWarning?_eq_none hsurvey hordered, hordered⟩

/-- A function between two definitions of one name, so that it lies in the united one, and a file
in which two functions follow each other. -/
theorem diagnostics_are_exact_held_function :
    let source := Bytes.ofChars "d()\x7b\x7de()\x7b\x7dd()\x7b\x7d".toList
    let plain := Bytes.ofChars "f()\x7b\x7dg()\x7b\x7d".toList
    (∃ survey, Survey.ofSource Settings.default "a.c" source = .ok survey ∧
      survey.functions = [⟨"d", ⟨0, 14⟩⟩, ⟨"e", ⟨5, 9⟩⟩] ∧
      (∃ attempt ∈ survey.survivors, ∃ name, attempt.DefinesTwice name) ∧
      survey.overlapWarning?.isSome = true) ∧
    ∃ survey, Survey.ofSource Settings.default "a.c" plain = .ok survey ∧
      (survey.layout.isBranching = false ∧
        ∀ attempt ∈ survey.survivors, ∀ name, ¬ attempt.DefinesTwice name) ∧
      survey.overlapWarning? = none ∧
      survey.functions.Pairwise (·.span.last < ·.span.first) := by
  intro source plain
  constructor
  · obtain ⟨survey, hsurvey, hread⟩ : ∃ survey,
        Survey.ofSource Settings.default "a.c" source = .ok survey ∧
          (survey.functions, survey.duplicateWarning?.isSome) =
            ([⟨"d", ⟨0, 14⟩⟩, ⟨"e", ⟨5, 9⟩⟩], true) := by
      apply Survey.exists_of_toOption
      unfold Survey.ofSource Survey.prepare Attempt.read
      simp only [Bytes.blankMarks_eq_mask, Bytes.blank_eq_mask]
      decide +kernel
    obtain ⟨hfunctions, hwarned⟩ := Prod.mk.inj hread
    obtain ⟨_, hduplicate, hoverlap, _⟩ := diagnostics_are_exact hsurvey
    have hlength : survey.functions.length = 2 := by rw [hfunctions]; rfl
    refine ⟨survey, hsurvey, hfunctions, hduplicate.mp hwarned, hoverlap.mpr ?_⟩
    refine ⟨⟨0, by omega⟩, ⟨1, by omega⟩, Nat.zero_lt_one, 5, ?_⟩
    simp [hfunctions]
  · obtain ⟨survey, hsurvey, hread⟩ : ∃ survey,
        Survey.ofSource Settings.default "a.c" plain = .ok survey ∧
          (survey.layout.isBranching, survey.duplicateWarning?.isSome) = (false, false) := by
      apply Survey.exists_of_toOption
      unfold Survey.ofSource Survey.prepare Attempt.read
      simp only [Bytes.blankMarks_eq_mask, Bytes.blank_eq_mask]
      decide +kernel
    obtain ⟨hplain, hquiet⟩ := Prod.mk.inj hread
    obtain ⟨_, hduplicate, _, hordered⟩ := diagnostics_are_exact hsurvey
    have honce : ∀ attempt ∈ survey.survivors, ∀ name, ¬ attempt.DefinesTwice name := by
      intro attempt hattempt name htwice
      rw [hduplicate.mpr ⟨attempt, hattempt, name, htwice⟩] at hquiet
      cases hquiet
    exact ⟨survey, hsurvey, ⟨hplain, honce⟩, hordered hplain honce⟩

end CDelta

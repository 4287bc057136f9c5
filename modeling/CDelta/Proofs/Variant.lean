import CDelta.Variant
import CDelta.Proofs.Comparison
import CDelta.Proofs.Extent

/-! # What the variants of a region leave out

A variant names only what it hides inside of its region: directives that do not reach into the
region are dropped, and so are the parts of unselected branches outside of it. Choices that leave
out the same parts make one variant. Nothing that is seen is lost by this, since a byte is seen
by its own offset and a literal by that of its first byte, and both lie in the region.
-/

namespace CDelta

namespace Span

variable {span region : Span} {offset : Int}

theorem meets_of_has (hspan : span.has offset = true) (hregion : region.has offset = true) :
    span.meets region = true := by
  rw [has_iff] at hspan hregion
  simp only [meets, Bool.and_eq_true, decide_eq_true_eq]
  omega

/-- Spans that do not reach into a region cover nothing of it. -/
theorem cover_filter_meets {offset : Nat} (hregion : region.has offset = true)
    (spans : List Span) : cover (spans.filter (·.meets region)) offset = cover spans offset := by
  rw [Bool.eq_iff_iff, cover_iff, cover_iff]
  constructor
  · rintro ⟨span, hspan, hhas⟩
    exact ⟨span, (List.mem_filter.mp hspan).1, hhas⟩
  · rintro ⟨span, hspan, hhas⟩
    exact ⟨span, List.mem_filter.mpr ⟨hspan, meets_of_has hhas hregion⟩, hhas⟩

end Span

namespace Side

theorem cover_clipped (side : Side) (spans : List Span) {offset : Nat}
    (hregion : side.region.has offset = true) :
    Span.cover (side.clipped spans) offset = Span.cover spans offset := by
  rw [← Span.cover_filter_meets hregion spans, clipped, Span.cover, List.any_map, Span.cover]
  congr 1
  funext span
  exact Span.has_clip hregion

/-- Inside of the region a variant hides what the directives and the choice do. -/
theorem cover_variant (side : Side) (spans : List Span) {offset : Nat}
    (hregion : side.region.has offset = true) :
    Span.cover (side.controls ++ side.clipped spans) offset =
      Span.cover (side.survey.controlSpans ++ spans) offset := by
  rw [Span.cover_append, Span.cover_append, side.cover_clipped spans hregion, controls,
    Span.cover_filter_meets hregion]

end Side

namespace View

variable {rule : CommentRule} {source : Bytes} {excluded : List Span} {view : View}

/-- What is seen of a region depends on the offsets of the region that are hidden, and on no
others. -/
theorem fingerprint_congr (hview : ofSource rule source excluded = .ok view) {region : Span}
    {hidden other : List Span}
    (hsame : ∀ offset : Nat, region.has offset = true →
      Span.cover hidden offset = Span.cover other offset) :
    view.fingerprint region hidden = view.fingerprint region other := by
  have hliterals : (view.literalsIn region).filter (fun mark => !hidden.any (·.has mark.first)) =
      (view.literalsIn region).filter (fun mark => !other.any (·.has mark.first)) := by
    apply List.filter_congr
    intro mark hmark
    obtain ⟨hnonneg, _⟩ := bounds_of_mem_literals hview (List.mem_filter.mp hmark).1
    have hfirst := hsame mark.first.toNat
    simp only [Span.cover, Int.toNat_of_nonneg hnonneg] at hfirst
    rw [hfirst (has_of_mem_literalsIn hview hmark)]
  have hbytes : (view.significantIn region).filter
        (fun element => !hidden.any (·.has (element.2 : Int))) =
      (view.significantIn region).filter (fun element => !other.any (·.has (element.2 : Int))) := by
    apply List.filter_congr
    intro element helement
    exact congrArg not (hsame element.2 (has_of_mem_significantIn helement))
  exact congrArg₂ Fingerprint.mk (congrArg (List.map view.literalKey) hliterals)
    (congrArg (List.map (·.1)) hbytes)

end View

namespace Side

/-- A variant is seen as the choice it comes from, with all directives and all that the choice
leaves out hidden. -/
theorem fingerprint_variant {side : Side} {rule : CommentRule} {source : Bytes}
    {excluded : List Span} (hview : View.ofSource rule source excluded = .ok side.view)
    (spans : List Span) :
    side.view.fingerprint side.region (side.controls ++ side.clipped spans) =
      side.view.fingerprint side.region (side.survey.controlSpans ++ spans) :=
  View.fingerprint_congr hview fun _ hregion => side.cover_variant spans hregion

theorem mem_variants_iff {side : Side} {hidden : List Span} :
    hidden ∈ side.variants ↔
      ∃ attempt ∈ side.survey.survivors, side.controls ++ side.clipped attempt.hidden = hidden := by
  simp [variants, Survey.hiddenSpans]

end Side

/-- Nothing is lost by naming only what is hidden inside of a region, and by naming it once.
Among the variants of any region of a surveyed file, seen in any way, are the fingerprints of
all surviving choices with nothing clipped or left out, and no others. The variants differ in
what they leave out besides the directives, and there is at least one. -/
theorem variants_lose_nothing {settings : Settings} {path : String} {source : Bytes}
    {survey : Survey} (hsurvey : Survey.ofSource settings path source = .ok survey)
    {rule : CommentRule} {excluded : List Span} {view : View}
    (hview : View.ofSource rule source excluded = .ok view) (region : Span) :
    let side : Side := ⟨survey, view, region⟩
    (∀ print,
      (∃ hidden ∈ side.variants, view.fingerprint region hidden = print) ↔
        ∃ attempt ∈ survey.survivors,
          view.fingerprint region (survey.controlSpans ++ attempt.hidden) = print) ∧
    (∃ clippings : List (List Span), side.variants = clippings.map (side.controls ++ ·) ∧
      clippings.Nodup ∧
      ∀ clipping, clipping ∈ clippings ↔
        ∃ attempt ∈ survey.survivors, side.clipped attempt.hidden = clipping) ∧
    side.variants ≠ [] := by
  intro side
  obtain ⟨_, _, _, _, hsurvivors⟩ := Survey.ofSource_eq_ok_iff.mp hsurvey
  refine ⟨fun print => ?_, ⟨_, rfl, nodup_eraseDups _, fun clipping => ?_⟩, ?_⟩
  · constructor
    · rintro ⟨hidden, hhidden, rfl⟩
      obtain ⟨attempt, hattempt, rfl⟩ := Side.mem_variants_iff.mp hhidden
      exact ⟨attempt, hattempt, (side.fingerprint_variant hview attempt.hidden).symm⟩
    · rintro ⟨attempt, hattempt, rfl⟩
      exact ⟨_, Side.mem_variants_iff.mpr ⟨attempt, hattempt, rfl⟩,
        side.fingerprint_variant hview attempt.hidden⟩
  · simp [side, Survey.hiddenSpans]
  · obtain ⟨attempt, hattempt⟩ := List.exists_mem_of_ne_nil _ hsurvivors
    exact List.ne_nil_of_mem (Side.mem_variants_iff.mpr ⟨attempt, hattempt, rfl⟩)

/-- A region from the middle of one branch to the middle of the other: each choice is clipped at
one end of it, and of the directives only the one between the branches is named. -/
theorem variants_lose_nothing_across_branches :
    ∃ survey view, Survey.ofSource Settings.default "a.c" Survey.twoHeads = .ok survey ∧
      View.ofSource .flat Survey.twoHeads [⟨31, 32⟩] = .ok view ∧
      survey.controlSpans = [⟨15, 20⟩, ⟨36, 41⟩, ⟨58, 64⟩] ∧
      survey.hiddenSpans = [[⟨36, 57⟩], [⟨15, 35⟩]] ∧
      (⟨survey, view, ⟨30, 45⟩⟩ : Side).variants =
        [[⟨36, 41⟩, ⟨36, 45⟩], [⟨36, 41⟩, ⟨30, 35⟩]] ∧
      ∀ print,
        (∃ hidden ∈ (⟨survey, view, ⟨30, 45⟩⟩ : Side).variants,
          view.fingerprint ⟨30, 45⟩ hidden = print) ↔
        ∃ attempt ∈ survey.survivors,
          view.fingerprint ⟨30, 45⟩ (survey.controlSpans ++ attempt.hidden) = print := by
  have hread : (Survey.ofSource Settings.default "a.c" Survey.twoHeads).toOption.map
      (fun survey => (survey.controlSpans, survey.hiddenSpans)) =
        some ([⟨15, 20⟩, ⟨36, 41⟩, ⟨58, 64⟩], [[⟨36, 57⟩], [⟨15, 35⟩]]) := by
    unfold Survey.ofSource Survey.prepare Attempt.read
    simp only [Bytes.blankMarks_eq_mask, Bytes.blank_eq_mask]
    decide +kernel
  let marks : List Mark :=
    [⟨⟨10, 12⟩, .string⟩, ⟨⟨74, 76⟩, .character⟩, ⟨⟨79, 85⟩, .comment⟩]
  have hmarks : Survey.twoHeads.marks .flat .everything = .ok marks := by decide +kernel
  have hview : View.ofSource .flat Survey.twoHeads [⟨31, 32⟩] =
      .ok (View.ofMarks Survey.twoHeads marks [⟨31, 32⟩]) :=
    View.ofSource_eq_ok_iff.mpr ⟨marks, hmarks, rfl⟩
  cases hsurvey : Survey.ofSource Settings.default "a.c" Survey.twoHeads with
  | error => simp [hsurvey, Except.toOption] at hread
  | ok survey =>
      rw [hsurvey] at hread
      obtain ⟨hcontrols, hhidden⟩ := Prod.mk.inj (Option.some.inj hread)
      refine ⟨survey, _, rfl, hview, hcontrols, hhidden, ?_,
        (variants_lose_nothing hsurvey hview ⟨30, 45⟩).1⟩
      simp only [Side.variants, Side.controls, hcontrols, hhidden, List.map_cons, List.map_nil,
        Side.clipped]
      decide

end CDelta

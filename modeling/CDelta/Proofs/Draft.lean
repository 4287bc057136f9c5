import CDelta.Draft
import CDelta.Proofs.Mask
import Mathlib.Data.List.DropRight
import Mathlib.Data.List.Induction

/-! # Blanking moves nothing

Whatever is done to a draft, the bytes of its copies stay where they are. A copy is the text with
the bytes of some spans overwritten, and only which spans these are matters: for the working copy
all that were blanked in it, for the scratch copy those that were blanked in the working copy
before it was taken and in itself since then.
-/

namespace CDelta

namespace Bytes

/-- The text with one span overwritten by spaces, as far as the span lies in the text. -/
def overwrite (data : Bytes) (span : Span) : Bytes :=
  let inside := span.clip (Span.whole data)
  if inside.isEmpty then data
  else
    data.take inside.first.toNat ++
      (List.replicate inside.length.toNat Byte.space ++ data.drop (inside.last + 1).toNat)

/-- The copy is as long as the text, has a space at every offset of the spans, and the byte of the
text at every other one. -/
structure ShownAs (data : Bytes) (spans : List Span) (copy : Bytes) : Prop where
  length_eq : copy.length = data.length
  blanked : ∀ offset : Nat, offset < data.length → (∃ span ∈ spans, span.has offset = true) →
    copy[offset]? = some Byte.space
  kept : ∀ offset : Nat, (∀ span ∈ spans, span.has offset = false) → copy[offset]? = data[offset]?

theorem shownAs_blank (data : Bytes) (spans : List Span) :
    data.ShownAs spans (data.blank spans) := by
  constructor
  case length_eq => exact length_blank spans data
  case blanked =>
    intro offset hoffset hspan
    rw [getElem?_blank, List.getElem?_eq_getElem hoffset, List.any_eq_true.mpr hspan]
    rfl
  case kept =>
    intro offset hnone
    have hany : spans.any (·.has offset) = false := by
      rw [List.any_eq_false]
      intro span hspan
      rw [hnone span hspan]
      exact Bool.false_ne_true
    rw [getElem?_blank, hany]
    simp

theorem overwrite_eq_blank (data : Bytes) (span : Span) :
    data.overwrite span = data.blank [span] := by
  have hbounds : 0 ≤ (span.clip (Span.whole data)).first ∧
      (span.clip (Span.whole data)).last < data.length := by
    simp only [Span.clip, Span.whole]
    omega
  have hcover : ∀ index < data.length, Span.cover [span] index = true ↔
      (span.clip (Span.whole data)).has index = true := by
    intro index hindex
    have hwhole : (Span.whole data).has index = true := by
      rw [Span.has_iff]
      simp only [Span.whole]
      omega
    rw [Span.cover, List.any_cons, List.any_nil, Bool.or_false, Span.has_clip hwhole]
  rw [blank_eq_mask, overwrite]
  generalize span.clip (Span.whole data) = inside at hbounds hcover
  by_cases hempty : inside.isEmpty = true
  · refine (if_pos hempty).trans (mask_of_shown fun index hindex => ?_).symm
    rw [Nat.zero_add, Bool.eq_false_iff, Ne, hcover index hindex,
      Span.isEmpty_iff_forall_not_has.mp hempty]
    exact Bool.false_ne_true
  · have hcount : (inside.last + 1).toNat = inside.first.toNat + inside.length.toNat := by
      simp only [Span.isEmpty, decide_eq_true_eq] at hempty
      simp only [Span.length, Span.extent]
      omega
    refine (if_neg hempty).trans (hcount ▸ (mask_between ?_ fun index hindex => ?_).symm)
    · omega
    · rw [hcover index hindex, Span.has_iff]
      omega

/-- Blanking by spans overwrites them one after the other. -/
theorem blank_eq_foldl_overwrite (spans : List Span) (data : Bytes) :
    data.blank spans = spans.foldl overwrite data := by
  induction spans generalizing data with
  | nil => exact blank_nil data
  | cons span spans ih =>
      rw [List.foldl_cons, ← ih, overwrite_eq_blank, blank_blank, List.singleton_append]

/-- Only which spans are blanked matters. -/
theorem blank_congr {spans others : List Span} (hsame : ∀ span, span ∈ spans ↔ span ∈ others)
    (data : Bytes) : data.blank spans = data.blank others := by
  have hcover : Span.cover spans = Span.cover others := by
    funext offset
    rw [Bool.eq_iff_iff, Span.cover_iff, Span.cover_iff]
    simp only [hsame]
  rw [blank_eq_mask, blank_eq_mask, hcover]

end Bytes

namespace DraftStep

/-- The spans that a step blanks in the working copy. -/
def inWorking : DraftStep → List Span
  | .blank spans => spans
  | _ => []

/-- The spans that a step blanks in the scratch copy. -/
def inScratch : DraftStep → List Span
  | .blankScratch spans => spans
  | _ => []

end DraftStep

namespace Draft

/-- The spans that steps blank in the working copy. -/
def workingSpans (steps : List DraftStep) : List Span :=
  steps.flatMap (·.inWorking)

/-- The spans that steps blank in the working copy before the last scratch copy is taken, and in
the scratch copy since then. -/
def scratchSpans (steps : List DraftStep) : List Span :=
  workingSpans (steps.rdropWhile (· ≠ .copy)) ++
    (steps.rtakeWhile (· ≠ .copy)).flatMap (·.inScratch)

theorem run_concat (draft : Draft) (steps : List DraftStep) (step : DraftStep) :
    draft.run (steps ++ [step]) = (draft.run steps).step step :=
  List.foldl_concat _ _ _ _

theorem workingSpans_concat (steps : List DraftStep) (step : DraftStep) :
    workingSpans (steps ++ [step]) = workingSpans steps ++ step.inWorking := by
  simp [workingSpans]

theorem scratchSpans_copy (steps : List DraftStep) :
    scratchSpans (steps ++ [.copy]) = workingSpans steps := by
  simp [scratchSpans, workingSpans_concat, DraftStep.inWorking]

theorem scratchSpans_concat (steps : List DraftStep) {step : DraftStep} (hstep : step ≠ .copy) :
    scratchSpans (steps ++ [step]) = scratchSpans steps ++ step.inScratch := by
  simp [scratchSpans, hstep]

/-- A run blanks in each copy the spans that count for it. -/
theorem run_ofSource (source : Bytes) (steps : List DraftStep) :
    (ofSource source).run steps =
      ⟨source, source.blank (workingSpans steps), source.blank (scratchSpans steps)⟩ := by
  induction steps using List.reverseRecOn with
  | nil => simp [run, ofSource, workingSpans, scratchSpans]
  | append_singleton steps step ih =>
      rw [run_concat, ih, workingSpans_concat]
      cases step with
      | blank spans =>
          rw [scratchSpans_concat _ (by simp), ← Bytes.blank_blank, ← Bytes.blank_blank]
          simp [Draft.step, DraftStep.inWorking, DraftStep.inScratch]
      | copy =>
          rw [scratchSpans_copy]
          simp [Draft.step, DraftStep.inWorking]
      | blankScratch spans =>
          rw [scratchSpans_concat _ (by simp), ← Bytes.blank_blank, ← Bytes.blank_blank]
          simp [Draft.step, DraftStep.inWorking, DraftStep.inScratch]

end Draft

/-- After any steps on a draft its text is what it was. The working copy shows it without the spans
blanked so far, the scratch copy without those blanked before it was taken or in it since then.
Blanking overwrites spans one after the other in one copy alone; in which order, and how often,
makes no difference. -/
theorem blanking_moves_no_byte (source : Bytes) (steps : List DraftStep) :
    let draft := (Draft.ofSource source).run steps
    draft.source = source ∧
      source.ShownAs (Draft.workingSpans steps) draft.working ∧
      source.ShownAs (Draft.scratchSpans steps) draft.scratch ∧
      (∀ spans, draft.step (.blank spans) =
          ⟨source, spans.foldl Bytes.overwrite draft.working, draft.scratch⟩ ∧
        draft.step (.blankScratch spans) =
          ⟨source, draft.working, spans.foldl Bytes.overwrite draft.scratch⟩) ∧
      ∀ others,
        ((∀ span, span ∈ Draft.workingSpans others ↔ span ∈ Draft.workingSpans steps) →
          ((Draft.ofSource source).run others).working = draft.working) ∧
        ((∀ span, span ∈ Draft.scratchSpans others ↔ span ∈ Draft.scratchSpans steps) →
          ((Draft.ofSource source).run others).scratch = draft.scratch) := by
  intro draft
  have hdraft : draft = ⟨source, source.blank (Draft.workingSpans steps),
      source.blank (Draft.scratchSpans steps)⟩ := Draft.run_ofSource source steps
  rw [hdraft]
  refine ⟨rfl, source.shownAs_blank _, source.shownAs_blank _, fun spans => ?_, fun others => ?_⟩
  · rw [← Bytes.blank_eq_foldl_overwrite, ← Bytes.blank_eq_foldl_overwrite]
    exact ⟨rfl, rfl⟩
  · rw [Draft.run_ofSource]
    exact ⟨fun hsame => Bytes.blank_congr hsame source, fun hsame => Bytes.blank_congr hsame source⟩

/-- Spans that begin in front of the text, hold nothing, reach past its end and overlap. What was
blanked in the working copy behind the scratch copy does not show there, and the same spans in
another order, one of them twice, give the same working copy. -/
theorem blanking_moves_no_byte_overlapping :
    let source := Bytes.ofChars "abcdef".toList
    let steps : List DraftStep :=
      [.blank [⟨-2, 0⟩, ⟨1, 0⟩], .copy, .blank [⟨3, 9⟩], .blankScratch [⟨2, 3⟩, ⟨3, 3⟩]]
    let others : List DraftStep := [.blank [⟨3, 9⟩, ⟨1, 0⟩], .copy, .blank [⟨-2, 0⟩, ⟨3, 9⟩]]
    let draft := (Draft.ofSource source).run steps
    draft = ⟨source, Bytes.ofChars " bc   ".toList, Bytes.ofChars " b  ef".toList⟩ ∧
      (∀ span, span ∈ Draft.workingSpans others ↔ span ∈ Draft.workingSpans steps) ∧
      ((Draft.ofSource source).run others).working = draft.working := by
  intro source steps others draft
  have hdraft : draft = ⟨source, Bytes.ofChars " bc   ".toList, Bytes.ofChars " b  ef".toList⟩ := by
    simp only [draft, Draft.run_ofSource, Bytes.blank_eq_mask]
    decide +kernel
  have hsame : ∀ span, span ∈ Draft.workingSpans others ↔ span ∈ Draft.workingSpans steps := by
    intro span
    simp only [others, steps, Draft.workingSpans, DraftStep.inWorking, List.flatMap_cons,
      List.flatMap_nil, List.mem_append, List.mem_cons, List.not_mem_nil]
    tauto
  exact ⟨hdraft, hsame, ((blanking_moves_no_byte source steps).2.2.2.2 others).1 hsame⟩

end CDelta

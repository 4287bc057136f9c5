import CDelta.Outcome

/-! # Branch variants

A region that holds conditionals has one variant for each way its branches are chosen.
Regions that differ as written still count as the same when only one of them shows
directives that shape conditionals and every variant of the new one is a variant of the old
one: a conditional has been collapsed, and nothing else.
-/

namespace CDelta

/-- One side of a comparison: a file, how it is seen, and the region that is compared. -/
structure Side where
  survey : Survey
  view : View
  region : Span

namespace Side

/-- The side with another region. -/
def within (side : Side) (region : Span) : Side :=
  { side with region := region }

/-- A directive that shapes conditionals shows in the region. -/
def showsControls (side : Side) : Bool :=
  side.survey.controlSpans.any fun span => span.meets side.region && side.view.shows span

/-- The directives that shape conditionals and reach into the region. -/
def controls (side : Side) : List Span :=
  side.survey.controlSpans.filter (·.meets side.region)

/-- The parts of spans that lie in the region. -/
def clipped (side : Side) (spans : List Span) : List Span :=
  (spans.filter (·.meets side.region)).map (·.clip side.region)

/-- The spans hidden by each variant of the region: its directives, and what a surviving
choice leaves out in it. Choices that differ outside of the region only make one variant. -/
def variants (side : Side) : List (List Span) :=
  (side.survey.hiddenSpans.map side.clipped).eraseDups.map (side.controls ++ ·)

/-- What is seen of each variant. -/
def fingerprints (side : Side) : List Fingerprint :=
  side.variants.map (side.view.fingerprint side.region)

/-- Every variant of `b` is one of `a`. -/
def covers (a b : Side) : Bool :=
  let known := a.fingerprints
  b.fingerprints.all known.contains

/-- Compares two sides as written. -/
def compareAsWritten (a b : Side) : Outcome :=
  Outcome.ofRegions a.view a.region b.view b.region

/-- The sides differ as written, and by a collapsed conditional only. -/
def isCollapse (a b : Side) : Bool :=
  (a.compareAsWritten b).isChange && a.showsControls != b.showsControls && a.covers b

/-- Compares two sides and forgives a collapsed conditional. -/
def compare (a b : Side) : Outcome :=
  if a.isCollapse b then .same else a.compareAsWritten b

end Side

end CDelta

import CDelta.Conditional.Listing
import CDelta.Report

/-! # Debug traces

A trace tells what a comparison comes upon, record by record, in the order in which it does.
It is a function of the same values that the comparison works on and has no part in it.
-/

namespace CDelta

/-- The part of a comparison that a record is about. -/
inductive TraceOrigin where
  | brackets
  | literals
  | directives
  | functions
  | regions
  | files
  | run
deriving DecidableEq, Repr

namespace TraceOrigin

/-- The name of a part in records. -/
def name : TraceOrigin → String
  | brackets => "adiff.analysis.brackets"
  | literals => "adiff.analysis.literals"
  | directives => "adiff.analysis.directives"
  | functions => "adiff.analysis.c_parser"
  | regions => "adiff.tools.differ"
  | files => "adiff.pipelines.function_diff"
  | run => "adiff.orchestration.main"

end TraceOrigin

/-- One record of a trace. -/
structure TraceRecord where
  origin : TraceOrigin
  message : String
deriving DecidableEq, Repr

namespace TraceRecord

/-- The text of a record. -/
def text (record : TraceRecord) : String :=
  let origin := record.origin.name
  let message := record.message
  s!"DEBUG {origin}: {message}\n"

end TraceRecord

namespace Trace

/-- A group has closed. -/
def group (bracket : Bracket) (first last : Int) : TraceRecord :=
  let opening := bracket.opening.latin
  let closing := bracket.closing.latin
  ⟨.brackets, s!"Matched b'{opening}'..b'{closing}' at offsets [{first}, {last}]"⟩

/-- The comments that were matched by counting brackets. -/
def comments (rule : CommentRule) (marks : List Mark) : List TraceRecord :=
  match rule with
  | .flat => []
  | .nested =>
    (marks.filter (·.kind = .comment)).map fun mark =>
      group .comment mark.first (mark.last - 1)

/-- The marks of a text have been recorded. -/
def classified (count size : Nat) : TraceRecord :=
  ⟨.literals, s!"Classified {count} comment/literal/escape item(s) in {size} bytes"⟩

/-- The pass that marks a text. -/
def marking (rule : CommentRule) (recorded : Recorded) (source : Bytes) : List TraceRecord :=
  let marking := source.marking rule
  comments rule marking.marks ++
  match marking.openComment with
  | some _ => []
  | none =>
    [classified (marking.marks.filter (recorded.wants ·.kind)).length source.length]

/-- The layout of a text. -/
def layout (source : Bytes) (layout : Layout) : List TraceRecord :=
  let directives := layout.directives.length
  let controls := layout.controls.length
  let depth := layout.tree.shape.depth
  let width := layout.tree.shape.width
  let choices := layout.choices
  (if layout.isBranching then
    [⟨.directives, "Directive tree:\n" ++ layout.tree.listing source⟩] else []) ++
  [⟨.directives, s!"Found {directives} directive(s), {controls} branching; " ++
    s!"depth={depth} width={width} choices={choices}"⟩]

/-- An event of an outline. -/
def event (start : Start) (source : Bytes) : OutlineEvent → TraceRecord
  | .group bracket first last => group bracket first last
  | .definition definition =>
    let footprint := definition.footprint start
    let name := footprint.name
    let first := source.lineOf footprint.span.first
    let last := source.lineOf footprint.span.last
    ⟨.functions, s!"Found function '{name}' in lines {first} ... {last}"⟩

/-- The digits of a choice. -/
def digits (layout : Layout) (choice : Nat) : List TraceRecord :=
  let digits := ", ".intercalate ((layout.tree.shape.digits choice).map toString)
  if layout.isBranching then [⟨.directives, s!"Choice {choice}: selectors [{digits}]"⟩] else []

/-- The reading of a text under one choice. -/
def attempt (start : Start) (path : String) (source : Bytes) (layout : Layout)
    (attempt : Attempt) : List TraceRecord :=
  let choice := attempt.choice
  digits layout choice ++ attempt.outline.events.map (event start source) ++
  match attempt.fault with
  | none => []
  | some fault =>
    let message := fault.message
    [⟨.functions, s!"Parse error in branch choice {choice} of {path}: {message}"⟩]

/-- The survey of a text. -/
def survey (settings : Settings) (path : String) (source : Bytes) : List TraceRecord :=
  marking settings.comments .everything source ++
  match Survey.prepare settings.comments source with
  | .error _ => []
  | .ok (marks, found) =>
    let working := (source.blankMarks marks).blankMarks found.directives
    let limit := min found.choices settings.choiceLimit
    let attempts := (List.range limit).map (Attempt.read source working found)
    layout source found ++
    attempts.flatMap (attempt settings.start path source found) ++
    match Survey.ofSource settings path source with
    | .error _ => []
    | .ok survey =>
      let functions := survey.functions.length
      let survivors := survey.survivors.length
      [⟨.functions,
        s!"{path}: {functions} function(s) from {survivors}/{limit} branch choice(s)"⟩]

/-- The text of an outcome. -/
def outcome : Outcome → String
  | .same => "DiffOutcome(changed=False, offset_a=None, offset_b=None)"
  | .differs a b => s!"DiffOutcome(changed=True, offset_a={a}, offset_b={b})"

/-- The text of a region. -/
def region (region : Span) : String :=
  let first := region.first
  let last := region.last
  s!"SourceRange(begin={first}, end={last})"

/-- The comparison of two sides. -/
def sides (a b : Side) : List TraceRecord :=
  let regionA := region a.region
  let regionB := region b.region
  (match Outcome.literalDifference a.view a.region b.view b.region with
  | none => []
  | some (some markA, some markB) =>
    let first := markA.first
    let second := markB.first
    [⟨.regions, s!"Literal mismatch at {first}/{second}"⟩]
  | some _ =>
    let first := (a.view.literalsIn a.region).length
    let second := (b.view.literalsIn b.region).length
    [⟨.regions, s!"Literal count mismatch: {first} vs {second}"⟩]) ++
  (if a.isCollapse b then
    [⟨.regions, s!"Regions {regionA} / {regionB} differ only by a collapsed conditional"⟩]
  else [])

/-- The comparison of one function. -/
def function (a b : Side) (function : Footprint) : List TraceRecord :=
  match b.survey.function? function.name with
  | none => []
  | some other =>
    let sideA := a.within function.span
    let sideB := b.within other.span
    let name := function.name
    let found := outcome (sideA.compare sideB)
    sides sideA sideB ++ [⟨.regions, s!"Function '{name}': {found}"⟩]

/-- The comparison of two surveyed files. -/
def report (rule : CommentRule) (a b : Survey) : List TraceRecord :=
  let views := marking rule .visible a.source ++ marking rule .visible b.source
  let sideA := a.side
  let sideB := b.side
  let residue := outcome (a.residueSide.compare b.residueSide)
  let found := FileReport.ofSurveys a b
  let pathA := found.pathA
  let pathB := found.pathB
  let count := found.functions.length
  let status := found.residue.status.name
  views ++ a.functions.flatMap (function sideA sideB) ++
  views ++ sides a.residueSide b.residueSide ++
  [⟨.regions, s!"Residue: {residue}"⟩,
    ⟨.files, s!"{pathA} vs {pathB}: {count} function result(s), residue {status}"⟩]

end Trace

end CDelta

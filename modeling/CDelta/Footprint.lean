import CDelta.Outline
import CDelta.Span

/-! # Footprints

The footprint of a function is its name and the span it takes up. Footprints found under
several branch choices unite by name: the united span runs from the earliest beginning to
the latest end, and functions keep the order in which they were first found.
-/

namespace CDelta

/-- A function's name and the span it takes up. -/
structure Footprint where
  name : String
  span : Span
deriving DecidableEq, Repr

/-- Where a function begins. -/
inductive Start where
  /-- With its declaration. -/
  | declaration
  /-- With the opening brace of its body. -/
  | body
deriving DecidableEq, Repr

namespace Definition

/-- The first offset of a definition. -/
def first (definition : Definition) : Start → Nat
  | .declaration => definition.start
  | .body => definition.brace

/-- The footprint of a definition. -/
def footprint (start : Start) (definition : Definition) : Footprint :=
  ⟨Text.Utf8.decode definition.name.text, ⟨definition.first start, definition.last⟩⟩

end Definition

namespace Footprint

/-- Two footprints share an offset: an end of one lies in the other. -/
def meets (a b : Footprint) : Bool :=
  a.span.endsIn b.span || b.span.endsIn a.span

/-- Adds a footprint, united with the one of its name if there is one. -/
def unite : List Footprint → Footprint → List Footprint
  | [], footprint => [footprint]
  | known :: rest, footprint =>
    if known.name = footprint.name then
      { known with span := known.span.union footprint.span } :: rest
    else
      known :: unite rest footprint

/-- One footprint for each name, over all sets. -/
def uniteAll (sets : List (List Footprint)) : List Footprint :=
  sets.flatten.foldl unite []

/-- The names that occur more than once in a set, in the order they occur first. -/
def repeated (footprints : List Footprint) : List String :=
  let names := footprints.map (·.name)
  names.eraseDups.filter fun name => 1 < names.count name

/-- The names that occur more than once in some set. -/
def duplicates (sets : List (List Footprint)) : List String :=
  (sets.flatMap repeated).eraseDups

/-- The pairs of footprints that share an offset, in order. -/
def overlaps : List Footprint → List (Footprint × Footprint)
  | [] => []
  | footprint :: rest =>
    (rest.filter footprint.meets).map (fun other => (footprint, other)) ++ overlaps rest

/-- The footprint with a name. -/
def find? (footprints : List Footprint) (name : String) : Option Footprint :=
  List.find? (·.name = name) footprints

end Footprint

end CDelta

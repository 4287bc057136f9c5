import CDelta.Span

/-! # Drafts

A draft holds a text, a working copy of it and a scratch copy of the working copy. Spans
are blanked in either copy and no offset ever moves. The scratch copy is taken anew on
demand, so that one pass can hide what the next one needs.
-/

namespace CDelta

/-- A text with its working copy and its scratch copy. -/
structure Draft where
  source : Bytes
  working : Bytes
  scratch : Bytes
deriving DecidableEq, Repr

/-- A change to the copies of a draft. -/
inductive DraftStep where
  /-- Blanks spans of the working copy. -/
  | blank (spans : List Span)
  /-- Takes a new scratch copy. -/
  | copy
  /-- Blanks spans of the scratch copy. -/
  | blankScratch (spans : List Span)
deriving DecidableEq, Repr

namespace Draft

/-- A draft in which nothing is blanked. -/
def ofSource (source : Bytes) : Draft := ⟨source, source, source⟩

/-- The draft after one step. -/
def step (draft : Draft) : DraftStep → Draft
  | .blank spans => { draft with working := draft.working.blank spans }
  | .copy => { draft with scratch := draft.working }
  | .blankScratch spans => { draft with scratch := draft.scratch.blank spans }

/-- The draft after some steps. -/
def run (draft : Draft) (steps : List DraftStep) : Draft :=
  steps.foldl step draft

@[simp]
theorem source_step (draft : Draft) (step : DraftStep) :
    (draft.step step).source = draft.source := by
  cases step <;> rfl

end Draft

end CDelta

import CDelta.Outline
import CDelta.Proofs.Token

/-! # Outlines and offsets

The reading of an outline looks at the texts of tokens only. When the offsets of all tokens
are moved, those of the outline move along, and every offset of a definition is the first one
of a token: the token that begins the declaration and the two braces of the body, in order.
-/

namespace CDelta

/-- The definition with its offsets moved. -/
def Definition.relocate (place : Nat → Nat) (definition : Definition) : Definition :=
  ⟨definition.name.relocate place, place definition.start, place definition.brace,
    place definition.last⟩

/-- The heading with its offsets moved. -/
def Heading.relocate (place : Nat → Nat) (heading : Heading) : Heading :=
  ⟨heading.name.relocate place, place heading.start⟩

/-- The event with its offsets moved. -/
def OutlineEvent.relocate (place : Nat → Nat) : OutlineEvent → OutlineEvent
  | group bracket first last => group bracket (place first) (place last)
  | .definition found => .definition (found.relocate place)

/-- The flaw with its offsets moved. -/
def Flaw.relocate (place : Nat → Nat) : Flaw → Flaw
  | unmatched bracket offset => unmatched bracket (place offset)
  | missingBody name => missingBody (name.relocate place)

/-- The outline with its offsets moved. -/
def Outline.relocate (place : Nat → Nat) (outline : Outline) : Outline :=
  ⟨outline.events.map (·.relocate place), outline.flaw.map (·.relocate place)⟩

/-- The stage with its offsets moved. -/
def OutlineStage.relocate (place : Nat → Nat) : OutlineStage → OutlineStage
  | between => between
  | inGroup bracket opener depth heading =>
    inGroup bracket (opener.relocate place) depth (heading.map (·.relocate place))
  | afterParameters heading => afterParameters (heading.relocate place)
  | beforeBody heading => beforeBody (heading.relocate place)
  | inBody heading brace depth => inBody (heading.relocate place) (brace.relocate place) depth

/-- Three of the tokens, in their order, are the first of the definition's declaration and the
braces around its body. -/
def Definition.ReadFrom (tokens : List Token) (definition : Definition) : Prop :=
  ∃ head brace last : Token, [head, brace, last].Sublist tokens ∧
    brace.text = Bracket.curly.opening ∧ last.text = Bracket.curly.closing ∧
    definition.start = head.first ∧ definition.brace = brace.first ∧
    definition.last = last.first

/-- An offset is where one of the tokens begins. -/
def Token.AtFirst (tokens : List Token) (offset : Nat) : Prop :=
  ∃ token ∈ tokens, offset = token.first

/-- What a stage remembers comes from the tokens, in their order. -/
def OutlineStage.ReadFrom (tokens : List Token) : OutlineStage → Prop
  | between => True
  | inGroup _ _ _ heading => ∀ found ∈ heading, Token.AtFirst tokens found.start
  | afterParameters heading => Token.AtFirst tokens heading.start
  | beforeBody heading => Token.AtFirst tokens heading.start
  | inBody heading brace depth => 0 < depth ∧ brace.text = Bracket.curly.opening ∧
    ∃ head : Token, [head, brace].Sublist tokens ∧ heading.start = head.first

namespace OutlineReader

/-- The reading with its offsets moved. -/
def relocate (place : Nat → Nat) (reader : OutlineReader) : OutlineReader :=
  ⟨reader.stage.relocate place, reader.previous.map (·.relocate place),
    reader.start.map place, reader.events.map (·.relocate place)⟩

variable (place : Nat → Nat)

theorem note_relocate (reader : OutlineReader) (token : Token) :
    (reader.relocate place).note (token.relocate place) = (reader.note token).relocate place := by
  obtain ⟨stage, previous, start, events⟩ := reader
  cases start <;> simp [note, relocate, Token.relocate, apply_ite]

theorem heading?_relocate (reader : OutlineReader) (bracket : Bracket) :
    (reader.relocate place).heading? bracket =
      (reader.heading? bracket).map (·.relocate place) := by
  obtain ⟨stage, previous, start, events⟩ := reader
  cases previous with
  | none => cases start <;> rfl
  | some name =>
      cases start with
      | none => rfl
      | some start =>
          simp only [heading?, relocate, Option.map_some, Token.relocate]
          split <;> rfl

theorem seekBody_relocate (reader : OutlineReader) (heading : Heading) (token : Token) :
    (reader.relocate place).seekBody (heading.relocate place) (token.relocate place) =
      (reader.seekBody heading token).relocate place := by
  by_cases hbrace : token.text = Bracket.curly.opening
  · simp [seekBody, Token.relocate, hbrace, relocate, OutlineStage.relocate]
  · simp [seekBody, Token.relocate, hbrace, relocate, OutlineStage.relocate]

/-- A step moves along with the offsets. -/
theorem step_relocate (reader : OutlineReader) (token : Token) :
    (reader.relocate place).step (token.relocate place) = (reader.step token).relocate place := by
  have htext : (token.relocate place).text = token.text := rfl
  have hmoved : (reader.relocate place).stage = reader.stage.relocate place := rfl
  unfold step
  rw [hmoved]
  cases hstage : reader.stage with
  | between =>
      simp only [OutlineStage.relocate, htext]
      cases Bracket.openedBy? token.text with
      | none => exact note_relocate place reader token
      | some bracket =>
          simp only [note_relocate, heading?_relocate]
          rfl
  | inGroup bracket opener depth heading =>
      simp only [OutlineStage.relocate, htext]
      cases bracket.depthAfter depth token.text with
      | zero =>
          simp only [note_relocate]
          cases heading <;> rfl
      | succ inner =>
          simp only [note_relocate]
          rfl
  | afterParameters heading =>
      simp only [OutlineStage.relocate, htext]
      split
      · simp only [note_relocate]
        rfl
      · exact seekBody_relocate place reader heading token
  | beforeBody heading => exact seekBody_relocate place reader heading token
  | inBody heading brace depth =>
      simp only [OutlineStage.relocate, htext]
      cases Bracket.curly.depthAfter depth token.text <;> rfl

theorem run_relocate (reader : OutlineReader) (tokens : List Token) :
    (reader.relocate place).run (tokens.map (·.relocate place)) =
      (reader.run tokens).relocate place := by
  induction tokens generalizing reader with
  | nil => rfl
  | cons token rest ih => rw [List.map_cons, run_cons, run_cons, step_relocate, ih]

/-- What each step keeps of a reading and the tokens behind it, a run over further tokens keeps. -/
theorem run_invariant {Holds : List Token → OutlineReader → Prop}
    (hstep : ∀ tokens reader token, Holds tokens reader →
      Holds (tokens ++ [token]) (reader.step token))
    {tokens : List Token} {reader : OutlineReader} (hreader : Holds tokens reader)
    (later : List Token) : Holds (tokens ++ later) (reader.run later) := by
  induction later generalizing reader tokens with
  | nil => simpa using hreader
  | cons token rest ih => simpa using ih (hstep tokens reader token hreader)

theorem flaw?_relocate (reader : OutlineReader) :
    (reader.relocate place).flaw? = reader.flaw?.map (·.relocate place) := by
  obtain ⟨stage, previous, start, events⟩ := reader
  cases stage <;> rfl

/-- What a reading remembers comes from the tokens that have been read. -/
structure ReadFrom (tokens : List Token) (reader : OutlineReader) : Prop where
  stage : reader.stage.ReadFrom tokens
  start : ∀ start ∈ reader.start, Token.AtFirst tokens start
  events : ∀ found, .definition found ∈ reader.events → found.ReadFrom tokens

namespace ReadFrom

variable {reader : OutlineReader} {tokens : List Token} {token : Token}

theorem mono (hreader : reader.ReadFrom tokens) (later : List Token) :
    reader.ReadFrom (tokens ++ later) := by
  have hsublist : tokens.Sublist (tokens ++ later) := List.sublist_append_left _ _
  have hfirst : ∀ offset, Token.AtFirst tokens offset → Token.AtFirst (tokens ++ later) offset :=
    fun offset ⟨token, hmem, hoffset⟩ => ⟨token, hsublist.mem hmem, hoffset⟩
  refine ⟨?_, fun start hstart => hfirst start (hreader.start start hstart), ?_⟩
  · have hstage := hreader.stage
    cases hhere : reader.stage with
    | between => trivial
    | inGroup bracket opener depth heading =>
        rw [hhere] at hstage
        exact fun found hfound => hfirst _ (hstage found hfound)
    | afterParameters heading =>
        rw [hhere] at hstage
        exact hfirst _ hstage
    | beforeBody heading =>
        rw [hhere] at hstage
        exact hfirst _ hstage
    | inBody heading brace depth =>
        rw [hhere] at hstage
        obtain ⟨hdepth, htext, head, hbefore, hstart⟩ := hstage
        exact ⟨hdepth, htext, head, hbefore.trans hsublist, hstart⟩
  · intro found hfound
    obtain ⟨head, brace, last, hbefore, hfacts⟩ := hreader.events found hfound
    exact ⟨head, brace, last, hbefore.trans hsublist, hfacts⟩

theorem start_note (hreader : reader.ReadFrom tokens) (hmem : token ∈ tokens) :
    ∀ start ∈ (reader.note token).start, Token.AtFirst tokens start := by
  intro start hstart
  simp only [note] at hstart
  split at hstart
  · simp at hstart
  · cases hbefore : reader.start with
    | none =>
        obtain rfl : token.first = start := by simpa [hbefore] using hstart
        exact ⟨token, hmem, rfl⟩
    | some before =>
        obtain rfl : before = start := by simpa [hbefore] using hstart
        exact hreader.start before hbefore

theorem start_heading (hreader : reader.ReadFrom tokens) (bracket : Bracket) :
    ∀ found ∈ reader.heading? bracket, Token.AtFirst tokens found.start := by
  intro found hfound
  unfold heading? at hfound
  split at hfound
  next start _ hstart =>
    split at hfound
    · obtain rfl : _ = found := Option.some.inj hfound
      exact hreader.start _ hstart
    · simp at hfound
  next => simp at hfound

theorem seekBody (hreader : reader.ReadFrom tokens) {heading : Heading}
    (hheading : Token.AtFirst tokens heading.start) :
    (reader.seekBody heading token).ReadFrom (tokens ++ [token]) := by
  have hlater := hreader.mono [token]
  obtain ⟨head, hmem, hstart⟩ := hheading
  unfold OutlineReader.seekBody
  split
  next htext =>
    have hpair : [head, token].Sublist (tokens ++ [token]) :=
      (List.singleton_sublist.mpr hmem).append (List.Sublist.refl [token])
    exact ⟨⟨Nat.one_pos, htext, head, hpair, hstart⟩, hlater.start, hlater.events⟩
  next =>
    exact ⟨⟨head, List.mem_append_left _ hmem, hstart⟩, hlater.start, hlater.events⟩

/-- A step remembers at most the token it reads besides what was remembered before. A
definition is complete at the brace that closes its body. -/
theorem step (hreader : reader.ReadFrom tokens) (token : Token) :
    (reader.step token).ReadFrom (tokens ++ [token]) := by
  have hlater := hreader.mono [token]
  have hnote := hlater.start_note (List.mem_append_right tokens (List.mem_singleton_self token))
  have hbefore := hreader.stage
  have hhere := hlater.stage
  unfold OutlineReader.step
  cases hstage : reader.stage with
  | between =>
      cases Bracket.openedBy? token.text with
      | none =>
          refine ⟨?_, hnote, hlater.events⟩
          rw [note, hstage]
          trivial
      | some bracket => exact ⟨hlater.start_heading bracket, hnote, hlater.events⟩
  | inGroup bracket opener depth heading =>
      rw [hstage] at hhere
      cases hdepth : bracket.depthAfter depth token.text with
      | zero =>
          simp only [hdepth]
          refine ⟨?_, hnote, fun found hmem => hlater.events found ?_⟩
          · cases heading with
            | none => trivial
            | some found => exact hhere found rfl
          · simpa using hmem
      | succ inner =>
          simp only [hdepth]
          exact ⟨hhere, hnote, hlater.events⟩
  | afterParameters heading =>
      rw [hstage] at hbefore
      simp only
      split
      · exact ⟨trivial, hnote, hlater.events⟩
      · exact hreader.seekBody hbefore
  | beforeBody heading =>
      rw [hstage] at hbefore
      exact hreader.seekBody hbefore
  | inBody heading brace depth =>
      rw [hstage] at hbefore hhere
      obtain ⟨hpositive, hopening, head, hpair, hstart⟩ := hbefore
      cases hdepth : Bracket.curly.depthAfter depth token.text with
      | zero =>
          simp only [hdepth]
          refine ⟨trivial, by simp, fun found hmem => ?_⟩
          rcases List.mem_cons.mp hmem with heq | hmem
          · -- the depth was positive, so only a closing brace takes it to zero
            obtain rfl := OutlineEvent.definition.inj heq
            obtain ⟨outer, rfl⟩ := Nat.exists_eq_add_one.mpr hpositive
            have htriple : [head, brace, token].Sublist (tokens ++ [token]) :=
              hpair.append (List.Sublist.refl [token])
            exact ⟨head, brace, token, htriple, hopening,
              Bracket.text_of_depthAfter_eq_zero hdepth, hstart, rfl, rfl⟩
          · exact hlater.events found (by simpa using hmem)
      | succ inner =>
          simp only [hdepth]
          exact ⟨⟨Nat.succ_pos inner, hhere.2⟩, hlater.start, hlater.events⟩

theorem run (hreader : reader.ReadFrom tokens) (later : List Token) :
    (reader.run later).ReadFrom (tokens ++ later) :=
  run_invariant (fun _ _ token hbefore => hbefore.step token) hreader later

end ReadFrom

end OutlineReader

namespace Outline

/-- The outline of moved tokens is the outline moved. -/
theorem ofTokens_relocate (place : Nat → Nat) (tokens : List Token) :
    ofTokens (tokens.map (·.relocate place)) = (ofTokens tokens).relocate place := by
  have hrun := OutlineReader.run_relocate place .initial tokens
  have hinitial : OutlineReader.initial.relocate place = .initial := rfl
  rw [hinitial] at hrun
  simp only [ofTokens, hrun, OutlineReader.flaw?_relocate, relocate]
  rw [OutlineReader.relocate, List.map_reverse]

theorem definitions_relocate (place : Nat → Nat) (outline : Outline) :
    (outline.relocate place).definitions = outline.definitions.map (·.relocate place) := by
  rw [definitions, definitions, relocate, List.filterMap_map, List.map_filterMap]
  congr 1
  funext event
  cases event <;> rfl

theorem mem_definitions_iff {tokens : List Token} {found : Definition} :
    found ∈ (ofTokens tokens).definitions ↔
      .definition found ∈ (OutlineReader.initial.run tokens).events := by
  simp only [definitions, ofTokens, List.mem_filterMap, List.mem_reverse]
  constructor
  · rintro ⟨event, hevent, hfound⟩
    cases event with
    | group bracket first last => cases hfound
    | definition other =>
        obtain rfl : other = found := Option.some.inj hfound
        exact hevent
  · exact fun hmem => ⟨_, hmem, rfl⟩

/-- A definition is made of tokens that stand in order. -/
theorem readFrom_of_mem_definitions {tokens : List Token} {found : Definition}
    (hmem : found ∈ (ofTokens tokens).definitions) : found.ReadFrom tokens := by
  have hinitial : OutlineReader.initial.ReadFrom [] :=
    ⟨trivial, by simp [OutlineReader.initial], by simp [OutlineReader.initial]⟩
  exact (hinitial.run tokens).events found (mem_definitions_iff.mp hmem)

end Outline

end CDelta

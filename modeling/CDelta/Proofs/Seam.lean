import CDelta.Proofs.Segment

/-! # Two texts side by side

Behind a semicolon outside of all groups, and behind a definition, a reading remembers nothing of
what it has read but the events. It goes on like one that begins there. So the functions of two
texts side by side are those of the first and then those of the second, as long as the first one
ends in such a place, and an edit of one function does not move the extent of another.
-/

namespace CDelta

/-- A text ends where nothing is under way: it has no token, or its last one is a semicolon or the
brace that ends the last of its functions. -/
inductive Bytes.EndsAtRest (functions : List Footprint) (data : Bytes) : Prop
  | blank (hnone : data.tokens = [])
  | semicolon {token : Token} (hlast : data.tokens.getLast? = some token)
      (htext : token.text = OutlineReader.semicolon)
  | function {token : Token} {function : Footprint} (hlast : data.tokens.getLast? = some token)
      (hfunction : functions.getLast? = some function) (hends : function.span.last = token.first)

namespace OutlineReader

/-- One reading is where another one is, but has come upon further events before. -/
structure Resumes (before : List OutlineEvent) (fresh reader : OutlineReader) : Prop where
  stage : reader.stage = fresh.stage
  start : reader.start = fresh.start
  /-- Nobody asks for the token in front of a declaration. -/
  previous : fresh.start ≠ none → reader.previous = fresh.previous
  events : reader.events = fresh.events ++ before

namespace Resumes

variable {before : List OutlineEvent} {fresh reader : OutlineReader}

theorem note (hresumes : Resumes before fresh reader) (token : Token) :
    Resumes before (fresh.note token) (reader.note token) := by
  refine ⟨hresumes.stage, ?_, fun _ => rfl, hresumes.events⟩
  simp only [OutlineReader.note, hresumes.start]

theorem heading?_eq (hresumes : Resumes before fresh reader) (bracket : Bracket) :
    reader.heading? bracket = fresh.heading? bracket := by
  unfold heading?
  rw [hresumes.start]
  cases hstart : fresh.start with
  | none => cases reader.previous <;> cases fresh.previous <;> rfl
  | some start => rw [hresumes.previous (by simp [hstart])]

theorem seekBody (hresumes : Resumes before fresh reader) (heading : Heading) (token : Token) :
    Resumes before (fresh.seekBody heading token) (reader.seekBody heading token) := by
  unfold OutlineReader.seekBody
  split <;> exact ⟨rfl, hresumes.start, hresumes.previous, hresumes.events⟩

/-- A step leaves the two readings where they are to each other. -/
theorem step (hresumes : Resumes before fresh reader) (token : Token) :
    Resumes before (fresh.step token) (reader.step token) := by
  have hnote := hresumes.note token
  unfold OutlineReader.step
  rw [hresumes.stage]
  cases hstage : fresh.stage with
  | between =>
      cases Bracket.openedBy? token.text with
      | none => exact hnote
      | some bracket =>
          have hheading := hresumes.heading?_eq bracket
          exact ⟨congrArg (OutlineStage.inGroup bracket token 1) hheading, hnote.start,
            hnote.previous, hnote.events⟩
  | inGroup bracket opener depth heading =>
      cases hdepth : bracket.depthAfter depth token.text with
      | zero =>
          simp only [hdepth]
          exact ⟨rfl, hnote.start, hnote.previous, by simp [hresumes.events]⟩
      | succ inner =>
          simp only [hdepth]
          exact ⟨rfl, hnote.start, hnote.previous, hnote.events⟩
  | afterParameters heading =>
      simp only
      split
      · exact ⟨rfl, hnote.start, hnote.previous, hnote.events⟩
      · exact hresumes.seekBody heading token
  | beforeBody heading => exact hresumes.seekBody heading token
  | inBody heading brace depth =>
      cases hdepth : Bracket.curly.depthAfter depth token.text with
      | zero =>
          simp only [hdepth]
          exact ⟨rfl, rfl, fun _ => rfl, by simp [hresumes.events]⟩
      | succ inner =>
          simp only [hdepth]
          exact ⟨rfl, hresumes.start, hresumes.previous, hresumes.events⟩

theorem run (hresumes : Resumes before fresh reader) (tokens : List Token) :
    Resumes before (fresh.run tokens) (reader.run tokens) := by
  induction tokens generalizing fresh reader with
  | nil => exact hresumes
  | cons token rest ih => exact ih (hresumes.step token)

theorem definitions_eq (hresumes : Resumes before fresh reader) :
    reader.definitions = Outline.definitions ⟨before.reverse, none⟩ ++ fresh.definitions := by
  simp [definitions, Outline.definitions, hresumes.events]

theorem flaw?_eq (hresumes : Resumes before fresh reader) : reader.flaw? = fresh.flaw? := by
  unfold flaw?
  rw [hresumes.stage]

end Resumes

/-- Nothing is under way. -/
structure AtRest (reader : OutlineReader) : Prop where
  stage : reader.stage = .between
  start : reader.start = none

theorem AtRest.resumes {reader : OutlineReader} (hrest : reader.AtRest) :
    Resumes reader.events initial reader :=
  ⟨hrest.stage, hrest.start, fun hsome => absurd rfl hsome, rfl⟩

end OutlineReader

namespace Outline

/-- Behind a place where nothing is under way an outline goes on as one that begins there. -/
theorem ofTokens_append {front : List Token}
    (hrest : (OutlineReader.initial.run front).AtRest) (back : List Token) :
    (ofTokens (front ++ back)).flaw = (ofTokens back).flaw ∧
      (ofTokens (front ++ back)).definitions =
        (ofTokens front).definitions ++ (ofTokens back).definitions := by
  have hresumes := hrest.resumes.run back
  rw [← OutlineReader.run_append] at hresumes
  exact ⟨hresumes.flaw?_eq, hresumes.definitions_eq⟩

theorem stage_of_flaw_eq_none {tokens : List Token} (hflaw : (ofTokens tokens).flaw = none) :
    (OutlineReader.initial.run tokens).stage = .between := by
  simp only [ofTokens, OutlineReader.flaw?] at hflaw
  cases hstage : (OutlineReader.initial.run tokens).stage with
  | between => rfl
  | _ => simp [hstage] at hflaw

end Outline

theorem OutlineReader.Since.notes {current : List Token} {reader : OutlineReader}
    (hsince : reader.Since current) (hstage : reader.stage = .between) : reader.Notes current := by
  cases hsince with
  | between _ hnotes => exact hnotes
  | inGroup _ hnotes => exact hnotes
  | afterParameters _ hnotes => exact hnotes
  | beforeBody hother => simp [hstage] at hother
  | inBody hother => simp [hstage] at hother

/-- A token is told by where it begins. -/
theorem Token.eq_of_first_eq {data : Bytes} {token other : Token} (htoken : token ∈ data.tokens)
    (hother : other ∈ data.tokens) (hfirst : token.first = other.first) : token = other := by
  have hnodup : (data.tokens.map (·.first)).Nodup :=
    List.pairwise_map.mpr ((Token.ascending_scan 0 data).imp Nat.ne_of_lt)
  exact List.inj_on_of_nodup_map hnodup htoken hother hfirst

/-- The token that a definition ends at is a closing brace of the segments. -/
theorem Definition.closer_mem_segments {data : Bytes} {segments : List (List Token)}
    {current : List Token} (hsplit : data.tokens = segments.flatten ++ current)
    {definitions : List Definition} (hfills : List.Forall₂ Fills segments definitions)
    {found : Definition} (hfound : found ∈ definitions) {token : Token}
    (htoken : token ∈ data.tokens) (hlast : found.last = token.first) :
    token ∈ segments.flatten ∧ token.text = Bracket.curly.closing := by
  obtain ⟨segment, hsegment, head, body, brace, closer, rfl, _, _, htext, _, hend⟩ :=
    exists_fills_of_mem hfills hfound
  have hmem : closer ∈ segments.flatten := List.mem_flatten.mpr ⟨_, hsegment, by simp⟩
  have hcloser : closer ∈ data.tokens := by
    rw [hsplit]
    exact List.mem_append_left _ hmem
  obtain rfl := Token.eq_of_first_eq htoken hcloser (hlast.symm.trans hend)
  exact ⟨hmem, htext⟩

namespace Bytes.EndsAtRest

variable {start : Start} {source data : Bytes} {functions : List Footprint}

/-- Behind such a text nothing is under way, and its last token stands alone. -/
theorem atRest (hends : data.EndsAtRest functions)
    (hfunctions : Footprint.ofScratch start source data = .ok functions) :
    (OutlineReader.initial.run data.tokens).AtRest ∧
      ∀ token ∈ data.tokens.getLast?, ∃ byte, Token.Solitary byte ∧ token.text = [byte] := by
  obtain ⟨hflaw, rfl⟩ := Footprint.ofScratch_eq_ok_iff.mp hfunctions
  have hstage := Outline.stage_of_flaw_eq_none hflaw
  obtain ⟨segments, current, hsplit, hfills, hsince⟩ := OutlineReader.segmented_run data.tokens
  have hstart := (hsince.notes hstage).start
  have hcurrent : ∀ token, data.tokens.getLast? = some token →
      current = [] ∨ ∃ front, current = front ++ [token] := by
    intro token hlast
    rcases List.eq_nil_or_concat' current with hnil | ⟨front, last, rfl⟩
    · exact .inl hnil
    · rw [hsplit, ← List.append_assoc, List.getLast?_concat] at hlast
      exact .inr ⟨front, by rw [Option.some.inj hlast]⟩
  cases hends with
  | blank hnone =>
      rw [hnone]
      exact ⟨⟨rfl, rfl⟩, by simp⟩
  | @semicolon token hlast htext =>
      refine ⟨⟨hstage, ?_⟩, fun other hother => ?_⟩
      · rw [hstart]
        rcases hcurrent token hlast with rfl | ⟨front, rfl⟩
        · rfl
        · rw [Token.declarationStart?_concat, if_pos htext]
      · obtain rfl := Option.some.inj (hlast.symm.trans hother)
        exact ⟨_, Token.solitary_semicolon, htext⟩
  | @function token function hlast hfunction hend =>
      obtain ⟨found, hfound, rfl⟩ := List.mem_map.mp (List.mem_of_getLast? hfunction)
      have htoken : token ∈ data.tokens := List.mem_of_getLast? hlast
      obtain ⟨hmem, htext⟩ := Definition.closer_mem_segments hsplit hfills hfound htoken
        (Int.ofNat_inj.mp hend)
      -- a token behind the segments would stand behind the last one
      have hnone : current = [] := by
        rcases hcurrent token hlast with hnil | ⟨front, rfl⟩
        · exact hnil
        · have hascending : data.tokens.Pairwise (·.first < ·.first) :=
            Token.ascending_scan 0 data
          rw [hsplit, List.pairwise_append] at hascending
          exact absurd (hascending.2.2 token hmem token (by simp)) (Nat.lt_irrefl _)
      refine ⟨⟨hstage, ?_⟩, fun other hother => ?_⟩
      · rw [hstart, hnone]
        rfl
      · obtain rfl := Option.some.inj (hlast.symm.trans hother)
        exact ⟨_, Token.solitary_brace, htext⟩

end Bytes.EndsAtRest

/-- The tokens of two texts side by side are those of each where the last one of the first stands
alone. -/
theorem Bytes.tokens_append {front : Bytes}
    (hlast : ∀ token ∈ front.tokens.getLast?, ∃ byte, Token.Solitary byte ∧ token.text = [byte])
    (back : Bytes) :
    Bytes.tokens (front ++ back) =
      front.tokens ++ back.tokens.map (·.relocate (· + front.length)) := by
  rw [tokens, Token.scan_append_of_solitary hlast, Token.scan_shift]
  rfl

/-- Reading functions is compositional. Where the first of two texts ends with nothing under way,
the two side by side can be read exactly when the second one can, and their functions are those of
the first and then those of the second, moved behind it. The sources only count lines in faults. -/
theorem functions_side_by_side {start : Start} {source front : Bytes}
    {functions : List Footprint}
    (hfunctions : Footprint.ofScratch start source front = .ok functions)
    (hends : front.EndsAtRest functions) (source' source'' back : Bytes) :
    ((∃ fault, Footprint.ofScratch start source' (front ++ back) = .error fault) ↔
      ∃ fault, Footprint.ofScratch start source'' back = .error fault) ∧
    ∀ later, Footprint.ofScratch start source'' back = .ok later →
      Footprint.ofScratch start source' (front ++ back) =
        .ok (functions ++ later.map (·.relocate (· + front.length))) := by
  obtain ⟨hrest, hlast⟩ := hends.atRest hfunctions
  obtain ⟨_, rfl⟩ := Footprint.ofScratch_eq_ok_iff.mp hfunctions
  obtain ⟨hflaw, hdefinitions⟩ :=
    Outline.ofTokens_append hrest (back.tokens.map (·.relocate (· + front.length)))
  rw [← Bytes.tokens_append hlast, Outline.ofTokens_relocate] at hflaw hdefinitions
  constructor
  · simp only [Footprint.ofScratch_eq_error_iff, hflaw, Outline.relocate]
    cases (Outline.ofTokens back.tokens).flaw <;> simp
  · intro later hlater
    obtain ⟨hnone, rfl⟩ := Footprint.ofScratch_eq_ok_iff.mp hlater
    refine Footprint.ofScratch_eq_ok_iff.mpr ⟨by rw [hflaw, Outline.relocate, hnone]; rfl, ?_⟩
    rw [hdefinitions, Outline.definitions_relocate, List.map_append, List.map_map, List.map_map]
    congr 1
    refine List.map_congr_left fun found _ => ?_
    rw [Function.comp_apply, Function.comp_apply, found.footprint_relocate]
    exact fun offset => Int.natCast_add offset front.length

/-- A function, a blank behind it, and a text with a declaration and a function. -/
theorem functions_side_by_side_behind_function :
    let front := Bytes.ofChars "int f(a)\x7bb;\x7d\n".toList
    let back := Bytes.ofChars "x;g()\x7b\x7d".toList
    Footprint.ofScratch .declaration front front = .ok [⟨"f", ⟨0, 11⟩⟩] ∧
      front.EndsAtRest [⟨"f", ⟨0, 11⟩⟩] ∧
      Footprint.ofScratch .declaration back back = .ok [⟨"g", ⟨2, 6⟩⟩] ∧
      Footprint.ofScratch .declaration (front ++ back) (front ++ back) =
        .ok [⟨"f", ⟨0, 11⟩⟩, ⟨"g", ⟨15, 19⟩⟩] := by
  intro front back
  have hfront : Footprint.ofScratch .declaration front front = .ok [⟨"f", ⟨0, 11⟩⟩] := by
    decide +kernel
  have hback : Footprint.ofScratch .declaration back back = .ok [⟨"g", ⟨2, 6⟩⟩] := by
    decide +kernel
  have hlast : front.tokens.getLast? = some ⟨11, 11, Bytes.ofChars ['\x7d']⟩ := by decide +kernel
  have hends : front.EndsAtRest [⟨"f", ⟨0, 11⟩⟩] := .function hlast rfl rfl
  exact ⟨hfront, hends, hback, (functions_side_by_side hfront hends _ _ back).2 _ hback⟩

end CDelta

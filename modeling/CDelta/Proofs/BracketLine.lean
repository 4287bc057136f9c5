import CDelta.Proofs.Mask
import CDelta.Proofs.Verdict

/-! # The line of an open bracket

A reading that ends inside of a group blames the token that opened the group, and no token
behind it closes the group. The line of that token is counted in the scratch copy of the
choice, in which the newlines of comments, literals, escapes, directives and branches left out
are spaces. So the line falls short of the one in the source by the newlines hidden in front of
the bracket, and it is right exactly when there are none.
-/

namespace CDelta

namespace Bytes

/-- The offsets in front of `offset` at which a newline is hidden. -/
def hiddenNewlines (source : Bytes) (hidden : Nat → Bool) (offset : Nat) : List Nat :=
  (List.range offset).filter fun index => hidden index && source[index]? == some Byte.newline

theorem lineAt_succ (data : Bytes) (offset : Nat) :
    data.lineAt (offset + 1) =
      data.lineAt offset + if data[offset]? = some Byte.newline then 1 else 0 := by
  rw [lineAt_eq_count, lineAt_eq_count, List.take_add_one, List.count_append]
  cases data[offset]? with
  | none => simp
  | some byte =>
      simp only [Option.toList_some, List.count_singleton, beq_iff_eq, Option.some.injEq]
      omega

theorem length_hiddenNewlines_succ (source : Bytes) (hidden : Nat → Bool) (offset : Nat) :
    (source.hiddenNewlines hidden (offset + 1)).length =
      (source.hiddenNewlines hidden offset).length +
        if hidden offset = true ∧ source[offset]? = some Byte.newline then 1 else 0 := by
  rw [hiddenNewlines, List.range_succ, List.filter_append, List.length_append, hiddenNewlines]
  congr 1
  by_cases hhere : hidden offset = true ∧ source[offset]? = some Byte.newline
  · simp [hhere.1, hhere.2]
  · rw [if_neg hhere]
    simpa using hhere

/-- A line counted in a blanked text falls short by the newlines that are hidden. -/
theorem lineAt_mask (hidden : Nat → Bool) (source : Bytes) (offset : Nat) :
    (mask hidden 0 source).lineAt offset + (source.hiddenNewlines hidden offset).length =
      source.lineAt offset := by
  induction offset with
  | zero => rfl
  | succ offset ih =>
      -- a space is no newline, so a newline counts on one side only
      have hshown : (mask hidden 0 source)[offset]? = some Byte.newline ↔
          source[offset]? = some Byte.newline ∧ hidden offset = false := by
        rw [getElem?_mask_eq_some_iff (by decide), Nat.zero_add]
      rw [lineAt_succ, lineAt_succ, length_hiddenNewlines_succ, ← ih]
      simp only [hshown]
      cases hidden offset <;> by_cases hbyte : source[offset]? = some Byte.newline <;>
        simp [hbyte] <;> omega

theorem hiddenNewlines_eq_nil_iff {source : Bytes} {hidden : Nat → Bool} {offset : Nat} :
    source.hiddenNewlines hidden offset = [] ↔
      ∀ index < offset, source[index]? = some Byte.newline → hidden index = false := by
  simp only [hiddenNewlines, List.filter_eq_nil_iff, List.mem_range, Bool.and_eq_true,
    beq_iff_eq, not_and]
  refine forall₂_congr fun index _ => ?_
  rw [Bool.eq_false_iff]
  exact imp_not_comm

end Bytes

namespace Bracket

/-- No token behind the opener closes the group it opens. -/
def Unmatched (bracket : Bracket) (tokens : List Token) (opener : Token) : Prop :=
  opener.text = bracket.opening ∧
    ∃ before inside, tokens = before ++ opener :: inside ∧ bracket.closer? 1 inside = none

/-- A group that began with the opener is `depth` groups deep behind the tokens: what closes it
is what brings that depth to zero. -/
def OpenSince (bracket : Bracket) (depth : Nat) (tokens : List Token) (opener : Token) : Prop :=
  opener.text = bracket.opening ∧
    ∃ before inside, tokens = before ++ opener :: inside ∧
      ∀ later, bracket.closer? 1 (inside ++ later) = bracket.closer? depth later

namespace OpenSince

variable {bracket : Bracket} {depth : Nat} {tokens : List Token} {opener : Token}

theorem opened (htext : opener.text = bracket.opening) (before : List Token) :
    bracket.OpenSince 1 (before ++ [opener]) opener :=
  ⟨htext, before, [], rfl, fun _ => rfl⟩

theorem step (hopen : bracket.OpenSince depth tokens opener) {token : Token} {inner : Nat}
    (hdepth : bracket.depthAfter depth token.text = inner + 1) :
    bracket.OpenSince (inner + 1) (tokens ++ [token]) opener := by
  obtain ⟨htext, before, inside, rfl, hcloser⟩ := hopen
  refine ⟨htext, before, inside ++ [token], by simp, fun later => ?_⟩
  rw [List.append_assoc, List.singleton_append, hcloser, closer?, hdepth]

theorem unmatched (hopen : bracket.OpenSince depth tokens opener) :
    bracket.Unmatched tokens opener := by
  obtain ⟨htext, before, inside, hsplit, hcloser⟩ := hopen
  refine ⟨htext, before, inside, hsplit, ?_⟩
  rw [← List.append_nil inside, hcloser, closer?]

end OpenSince

theorem opening_of_openedBy? {text : Bytes} {bracket : Bracket}
    (hopened : openedBy? text = some bracket) :
    bracket ∈ [round, square, curly] ∧ text = bracket.opening := by
  have htext := List.find?_some hopened
  exact ⟨List.mem_of_find?_eq_some hopened, (of_decide_eq_true htext).symm⟩

end Bracket

namespace OutlineReader

/-- The group that the reading is in, or the body, has been open since its first token. -/
structure OpenSince (tokens : List Token) (reader : OutlineReader) : Prop where
  group : ∀ bracket opener depth heading,
    reader.stage = .inGroup bracket opener depth heading →
      bracket ∈ [Bracket.round, .square, .curly] ∧ bracket.OpenSince depth tokens opener
  body : ∀ heading brace depth, reader.stage = .inBody heading brace depth →
    Bracket.curly.OpenSince depth tokens brace

namespace OpenSince

variable {tokens : List Token} {reader : OutlineReader}

theorem outside
    (hgroup : ∀ bracket opener depth heading, reader.stage ≠ .inGroup bracket opener depth heading)
    (hbody : ∀ heading brace depth, reader.stage ≠ .inBody heading brace depth) :
    reader.OpenSince tokens :=
  ⟨fun _ _ _ _ hstage => absurd hstage (hgroup _ _ _ _),
    fun _ _ _ hstage => absurd hstage (hbody _ _ _)⟩

theorem seekBody (reader : OutlineReader) (heading : Heading) (tokens : List Token)
    (token : Token) : (reader.seekBody heading token).OpenSince (tokens ++ [token]) := by
  unfold OutlineReader.seekBody
  split
  next htext =>
    refine ⟨by simp, fun _ _ _ hstage => ?_⟩
    obtain ⟨_, rfl, rfl⟩ := OutlineStage.inBody.inj hstage
    exact .opened htext tokens
  next => exact outside (by simp) (by simp)

/-- A step opens a group at the token it reads, or takes it into the group that is open. -/
theorem step (hreader : reader.OpenSince tokens) (token : Token) :
    (reader.step token).OpenSince (tokens ++ [token]) := by
  unfold OutlineReader.step
  cases hstage : reader.stage with
  | between =>
      cases hopened : Bracket.openedBy? token.text with
      | none => exact outside (by simp [note, hstage]) (by simp [note, hstage])
      | some bracket =>
          obtain ⟨hmem, htext⟩ := Bracket.opening_of_openedBy? hopened
          refine ⟨fun _ _ _ _ hnext => ?_, by simp⟩
          obtain ⟨rfl, rfl, rfl, _⟩ := OutlineStage.inGroup.inj hnext
          exact ⟨hmem, .opened htext tokens⟩
  | inGroup bracket opener depth heading =>
      obtain ⟨hmem, hopen⟩ := hreader.group bracket opener depth heading hstage
      cases hdepth : bracket.depthAfter depth token.text with
      | zero =>
          simp only [hdepth]
          cases heading <;> exact outside (by simp [stageAfterGroup]) (by simp [stageAfterGroup])
      | succ inner =>
          simp only [hdepth]
          refine ⟨fun _ _ _ _ hnext => ?_, by simp⟩
          obtain ⟨rfl, rfl, rfl, _⟩ := OutlineStage.inGroup.inj hnext
          exact ⟨hmem, hopen.step hdepth⟩
  | afterParameters heading =>
      simp only
      split
      · exact outside (by simp) (by simp)
      · exact seekBody reader heading tokens token
  | beforeBody heading => exact seekBody reader heading tokens token
  | inBody heading brace depth =>
      have hopen := hreader.body heading brace depth hstage
      cases hdepth : Bracket.curly.depthAfter depth token.text with
      | zero =>
          simp only [hdepth]
          exact outside (by simp) (by simp)
      | succ inner =>
          simp only [hdepth]
          refine ⟨by simp, fun _ _ _ hnext => ?_⟩
          obtain ⟨_, rfl, rfl⟩ := OutlineStage.inBody.inj hnext
          exact hopen.step hdepth

theorem run (hreader : reader.OpenSince tokens) (later : List Token) :
    (reader.run later).OpenSince (tokens ++ later) :=
  run_invariant (fun _ _ token hbefore => hbefore.step token) hreader later

end OpenSince

end OutlineReader

namespace Outline

/-- An outline that ends inside of a group blames an opening bracket that is unmatched. -/
theorem exists_unmatched_of_flaw {tokens : List Token} {bracket : Bracket} {offset : Nat}
    (hflaw : (ofTokens tokens).flaw = some (.unmatched bracket offset)) :
    bracket ∈ [Bracket.round, .square, .curly] ∧
      ∃ opener : Token, opener.first = offset ∧ bracket.Unmatched tokens opener := by
  have hinitial : OutlineReader.initial.OpenSince [] :=
    .outside (by simp [OutlineReader.initial]) (by simp [OutlineReader.initial])
  have hopen := hinitial.run tokens
  simp only [ofTokens, OutlineReader.flaw?] at hflaw
  cases hstage : (OutlineReader.initial.run tokens).stage with
  | inGroup other opener depth heading =>
      obtain ⟨hmem, hgroup⟩ := hopen.group other opener depth heading hstage
      obtain ⟨rfl, rfl⟩ : other = bracket ∧ opener.first = offset := by simpa [hstage] using hflaw
      exact ⟨hmem, opener, rfl, hgroup.unmatched⟩
  | inBody heading brace depth =>
      have hbody := hopen.body heading brace depth hstage
      obtain ⟨rfl, rfl⟩ : Bracket.curly = bracket ∧ brace.first = offset := by
        simpa [hstage] using hflaw
      exact ⟨by simp, brace, rfl, hbody.unmatched⟩
  | _ => simp [hstage] at hflaw

end Outline

namespace Layout

/-- The spans that are blank in the scratch copy of a choice. -/
def hiddenUnder (layout : Layout) (marks : List Mark) (choice : Nat) : List Span :=
  marks.map (·.toSpan) ++ layout.blanked choice

/-- The scratch copy of a choice. -/
def scratch (layout : Layout) (source : Bytes) (marks : List Mark) (choice : Nat) : Bytes :=
  ((source.blankMarks marks).blankMarks layout.directives).blank (layout.unselected choice)

theorem scratch_eq_mask (layout : Layout) (source : Bytes) (marks : List Mark) (choice : Nat) :
    layout.scratch source marks choice =
      source.mask (Span.cover (layout.hiddenUnder marks choice)) 0 := by
  rw [scratch, Bytes.blankMarks, Bytes.blankMarks, Bytes.blank_blank, Bytes.blank_blank,
    Bytes.blank_eq_mask, hiddenUnder, blanked]

/-- A fault with a bracket says which bracket the choice leaves open, and on which line it
stands but for the newlines that are hidden in front of it. -/
structure BlamesBracket (layout : Layout) (source : Bytes) (marks : List Mark) (choice : Nat)
    (fault : Fault) (bracket : Bracket) (opener : Token) (line : Nat) : Prop where
  kind : bracket ∈ [Bracket.round, .square, .curly]
  unmatched : bracket.Unmatched (layout.scratch source marks choice).tokens opener
  fault_eq : fault = .unmatched bracket.opening line none
  message : fault.message = "Cannot find token matching '" ++ bracket.opening.latin ++
    "' opened at line " ++ toString line
  short : line + (source.hiddenNewlines (Span.cover (layout.hiddenUnder marks choice))
    opener.first).length = source.lineAt opener.first
  right_iff : line = source.lineAt opener.first ↔
    ∀ index < opener.first, source[index]? = some Byte.newline →
      Span.cover (layout.hiddenUnder marks choice) index = false

theorem exists_blamesBracket {layout : Layout} {source : Bytes} {marks : List Mark}
    {choice : Nat} {opening : Bytes} {line : Nat} {found : Option Bytes}
    (hfault : layout.faultUnder source ((source.blankMarks marks).blankMarks layout.directives)
      choice = some (.unmatched opening line found)) :
    ∃ bracket opener, layout.BlamesBracket source marks choice (.unmatched opening line found)
      bracket opener line := by
  obtain ⟨flaw, hflaw, heq⟩ := Option.map_eq_some_iff.mp hfault
  cases flaw with
  | missingBody name => cases heq
  | unmatched bracket offset =>
      obtain ⟨rfl, rfl, rfl⟩ := Fault.unmatched.inj heq
      obtain ⟨hkind, opener, rfl, hunmatched⟩ := Outline.exists_unmatched_of_flaw hflaw
      have hshort := source.lineAt_mask (Span.cover (layout.hiddenUnder marks choice)) opener.first
      rw [← scratch_eq_mask] at hshort
      refine ⟨bracket, opener, hkind, hunmatched, rfl, rfl, hshort, ?_⟩
      rw [← Bytes.hiddenNewlines_eq_nil_iff, ← List.length_eq_zero_iff, ← hshort]
      exact Nat.left_eq_add

end Layout

/-- A choice that fails with a bracket blames one that no token closes. Both its own fault and
the one that a survey is given up with name the line of that bracket in the source exactly when
no newline in front of it is hidden in the scratch copy; else the line is too small by the number
of hidden newlines. -/
theorem bracket_line_right_iff_none_hidden {settings : Settings} {source : Bytes}
    {marks : List Mark} {layout : Layout}
    (hprepare : Survey.prepare settings.comments source = .ok (marks, layout)) :
    let working := (source.blankMarks marks).blankMarks layout.directives
    let tried := min layout.choices settings.choiceLimit
    (∀ choice < tried, ∀ opening line found,
      layout.faultUnder source working choice = some (.unmatched opening line found) →
      ∃ bracket opener, layout.BlamesBracket source marks choice
        (.unmatched opening line found) bracket opener line) ∧
    ∀ path opening line found,
      Survey.ofSource settings path source =
        .error (.exhausted (.unmatched opening line found)) →
      ∃ bracket opener, layout.BlamesBracket source marks (tried - 1)
        (.unmatched opening line found) bracket opener line := by
  refine ⟨fun choice _ opening line found => Layout.exists_blamesBracket, ?_⟩
  intro path opening line found hexhausted
  obtain ⟨_, _, hother, _, hlast⟩ := Survey.ofSource_eq_exhausted_iff.mp hexhausted
  obtain ⟨rfl, rfl⟩ := Prod.mk.inj (Except.ok.inj (hprepare.symm.trans hother))
  exact Layout.exists_blamesBracket hlast

namespace Survey

/-- A subscript that is left open in one branch of a conditional, behind a comment of two lines. -/
def openSubscript : Bytes :=
  Bytes.ofChars "/* a\n b */\n#if A\nint x;\n#else\nint y[2;\n#endif\n".toList

end Survey

/-- The bracket stands on the sixth line, and four newlines are hidden in front of it: one in the
comment, those of the two directives, and one in the branch that is left out. -/
theorem bracket_line_right_iff_none_hidden_in_branch :
    ∃ marks layout, Survey.prepare Settings.default.comments Survey.openSubscript =
        .ok (marks, layout) ∧
      ∃ bracket opener, layout.BlamesBracket Survey.openSubscript marks 1
        (.unmatched (Bytes.ofChars ['[']) 2 none) bracket opener 2 := by
  have hread : (Survey.prepare Settings.default.comments Survey.openSubscript).toOption.map
      (fun found => (decide (1 < min found.2.choices Settings.default.choiceLimit),
        found.2.faultUnder Survey.openSubscript ((Survey.openSubscript.blankMarks
          found.1).blankMarks found.2.directives) 1)) =
        some (true, some (.unmatched (Bytes.ofChars ['[']) 2 none)) := by
    unfold Survey.prepare Layout.faultUnder
    simp only [Bytes.blankMarks_eq_mask, Bytes.blank_eq_mask]
    decide +kernel
  cases hprepare : Survey.prepare Settings.default.comments Survey.openSubscript with
  | error => simp [hprepare, Except.toOption] at hread
  | ok found =>
      obtain ⟨marks, layout⟩ := found
      rw [hprepare] at hread
      obtain ⟨htried, hfault⟩ := Prod.mk.inj (Option.some.inj hread)
      refine ⟨marks, layout, rfl, ?_⟩
      exact (bracket_line_right_iff_none_hidden hprepare).1 1 (of_decide_eq_true htried) _ _ _ hfault

/-- A directive in front of a bracket is enough: the bracket at offset 17 stands on the second
line, and the error of the survey puts it on the first. -/
theorem directive_hides_line_of_bracket :
    let source := Bytes.ofChars "#define N 4\nint a[N;\n".toList
    Survey.ofSource Settings.default "a.c" source =
        .error (.exhausted (.unmatched (Bytes.ofChars ['[']) 1 none)) ∧
      source.lineAt 17 = 2 ∧
      ∃ marks layout, Survey.prepare Settings.default.comments source = .ok (marks, layout) ∧
        layout.choices = 1 ∧
        Bracket.square.Unmatched (layout.scratch source marks 0).tokens
          ⟨17, 17, Bytes.ofChars ['[']⟩ := by
  intro source
  have hread : (Survey.prepare Settings.default.comments source).toOption.map
      (fun found => (found.2.choices, (found.2.scratch source found.1 0).tokens,
        found.2.faultUnder source ((source.blankMarks found.1).blankMarks found.2.directives) 0)) =
        some (1, [⟨12, 14, Bytes.ofChars ['i', 'n', 't']⟩, ⟨16, 16, Bytes.ofChars ['a']⟩] ++
          ⟨17, 17, Bytes.ofChars ['[']⟩ ::
            [⟨18, 18, Bytes.ofChars ['N']⟩, ⟨19, 19, Bytes.ofChars [';']⟩],
          some (.unmatched (Bytes.ofChars ['[']) 1 none)) := by
    unfold Survey.prepare Layout.faultUnder Layout.scratch
    simp only [Bytes.blankMarks_eq_mask, Bytes.blank_eq_mask]
    decide +kernel
  cases hprepare : Survey.prepare Settings.default.comments source with
  | error => simp [hprepare, Except.toOption] at hread
  | ok found =>
      obtain ⟨marks, layout⟩ := found
      rw [hprepare] at hread
      obtain ⟨hchoices, hrest⟩ := Prod.mk.inj (Option.some.inj hread)
      obtain ⟨htokens, hfault⟩ := Prod.mk.inj hrest
      refine ⟨?_, by decide, marks, layout, rfl, hchoices, by decide, ?_⟩
      · refine Survey.ofSource_eq_exhausted_iff.mpr ⟨marks, layout, hprepare, ?_⟩
        have htried : min layout.choices Settings.default.choiceLimit = 1 := by
          rw [hchoices]
          rfl
        simp only [htried]
        refine ⟨fun choice hchoice => ?_, hfault⟩
        obtain rfl : choice = 0 := by omega
        simp [hfault]
      · exact ⟨_, _, htokens, by decide⟩

end CDelta

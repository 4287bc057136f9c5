import CDelta.Proofs.BracketLine
import CDelta.Proofs.Extent
import CDelta.Proofs.Extraction
import CDelta.Proofs.Solitary
import Mathlib.Data.List.DropRight

/-! # Functions one behind the other

Each definition takes up a segment of the tokens: from behind the previous definition to the
brace that ends its own body. All that a reading remembers is read off the tokens since the last
definition, so the segments follow each other and what is left belongs to none. In a segment the
declaration begins behind the last semicolon in front of the parameters, and since a semicolon is
always a token, none of its bytes stands between the two.
-/

namespace CDelta

namespace Token

/-- The tokens behind the last semicolon. -/
def declaration (tokens : List Token) : List Token :=
  tokens.rtakeWhile fun token => token.text ≠ OutlineReader.semicolon

/-- Where the declaration under way begins, if it has begun. -/
def declarationStart? (tokens : List Token) : Option Nat :=
  (declaration tokens).head?.map (·.first)

theorem declarationStart?_concat (tokens : List Token) (token : Token) :
    declarationStart? (tokens ++ [token]) =
      if token.text = OutlineReader.semicolon then none
      else (declarationStart? tokens).or (some token.first) := by
  rw [declarationStart?, declaration, List.rtakeWhile_concat]
  by_cases htext : token.text = OutlineReader.semicolon
  · simp [htext]
  · rw [if_pos (by simpa using htext), if_neg htext, List.head?_append, Option.map_or]
    rfl

end Token

/-- The name of a heading is the last of some tokens, and its declaration the one under way. -/
structure Heading.Ends (lead : List Token) (heading : Heading) : Prop where
  name : lead.getLast? = some heading.name
  word : Token.isWord heading.name.text = true
  start : Token.declarationStart? lead = some heading.start

/-- Parentheses have opened right behind a heading. -/
def Heading.OpensIn (tokens : List Token) (heading : Heading) : Prop :=
  ∃ lead paren within, tokens = lead ++ paren :: within ∧ heading.Ends lead ∧
    paren.text = Bracket.round.opening

theorem Heading.OpensIn.mono {tokens : List Token} {heading : Heading}
    (hopens : heading.OpensIn tokens) (later : List Token) : heading.OpensIn (tokens ++ later) := by
  obtain ⟨lead, paren, within, rfl, hends, hparen⟩ := hopens
  exact ⟨lead, paren, within ++ later, by simp, hends, hparen⟩

/-- A definition takes up a segment: a heading, a body in braces, and nothing behind it. -/
def Definition.Fills (segment : List Token) (definition : Definition) : Prop :=
  ∃ (head body : List Token) (brace last : Token), segment = head ++ brace :: (body ++ [last]) ∧
    Heading.OpensIn head ⟨definition.name, definition.start⟩ ∧
    brace.text = Bracket.curly.opening ∧ last.text = Bracket.curly.closing ∧
    definition.brace = brace.first ∧ definition.last = last.first

namespace OutlineReader

/-- The definitions that are complete. -/
def definitions (reader : OutlineReader) : List Definition :=
  Outline.definitions ⟨reader.events.reverse, none⟩

theorem definitions_of_events_eq {reader other : OutlineReader}
    (hevents : reader.events = other.events) : reader.definitions = other.definitions := by
  rw [definitions, definitions, hevents]

/-- A group that closes is no definition. -/
theorem definitions_of_group {reader other : OutlineReader} {bracket : Bracket} {first last : Nat}
    (hevents : reader.events = .group bracket first last :: other.events) :
    reader.definitions = other.definitions := by
  simp [definitions, Outline.definitions, hevents]

theorem definitions_of_definition {reader other : OutlineReader} {found : Definition}
    {bracket : Bracket} {first last : Nat}
    (hevents : reader.events = .definition found :: .group bracket first last :: other.events) :
    reader.definitions = other.definitions ++ [found] := by
  simp [definitions, Outline.definitions, hevents]

/-- The reading remembers the last token and where the declaration under way begins. -/
structure Notes (current : List Token) (reader : OutlineReader) : Prop where
  previous : reader.previous = current.getLast?
  start : reader.start = Token.declarationStart? current

theorem Notes.note {current : List Token} {reader : OutlineReader} (hnotes : reader.Notes current)
    (token : Token) : (reader.note token).Notes (current ++ [token]) := by
  refine ⟨List.getLast?_concat.symm, ?_⟩
  rw [Token.declarationStart?_concat, ← hnotes.start]
  rfl

/-- Parentheses behind a word open its parameters. -/
theorem Notes.opensIn {current : List Token} {reader : OutlineReader}
    (hnotes : reader.Notes current) {bracket : Bracket} {token : Token}
    (hopened : Bracket.openedBy? token.text = some bracket) :
    ∀ found ∈ reader.heading? bracket, found.OpensIn (current ++ [token]) := by
  intro found hfound
  unfold heading? at hfound
  split at hfound
  next name start hname hstart =>
    split at hfound
    next hword =>
      obtain rfl : _ = found := Option.some.inj hfound
      obtain ⟨hround, hword⟩ := Bool.and_eq_true_iff.mp hword
      obtain rfl := of_decide_eq_true hround
      exact ⟨current, token, [], rfl, ⟨hnotes.previous ▸ hname, hword, hnotes.start ▸ hstart⟩,
        (Bracket.opening_of_openedBy? hopened).2⟩
    next => simp at hfound
  next => simp at hfound

/-- Where a reading stands is said by the tokens since the last definition, one case for each
stage. On the way to a body and inside of it only the heading is remembered. -/
inductive Since (current : List Token) (reader : OutlineReader) : Prop
  | between (hstage : reader.stage = .between) (hnotes : reader.Notes current)
  | inGroup {bracket : Bracket} {opener : Token} {depth : Nat} {heading : Option Heading}
      (hstage : reader.stage = .inGroup bracket opener depth heading)
      (hnotes : reader.Notes current) (hheading : ∀ found ∈ heading, found.OpensIn current)
  | afterParameters {heading : Heading} (hstage : reader.stage = .afterParameters heading)
      (hnotes : reader.Notes current) (hheading : heading.OpensIn current)
  | beforeBody {heading : Heading} (hstage : reader.stage = .beforeBody heading)
      (hheading : heading.OpensIn current)
  | inBody {heading : Heading} {brace : Token} {depth : Nat} {head body : List Token}
      (hstage : reader.stage = .inBody heading brace depth) (hdepth : 0 < depth)
      (hbrace : brace.text = Bracket.curly.opening) (hcurrent : current = head ++ brace :: body)
      (hheading : heading.OpensIn head)

namespace Since

variable {current : List Token} {reader : OutlineReader}

theorem initial : OutlineReader.initial.Since [] :=
  .between rfl ⟨rfl, rfl⟩

theorem seekBody (reader : OutlineReader) {heading : Heading} (hheading : heading.OpensIn current)
    (token : Token) : (reader.seekBody heading token).Since (current ++ [token]) := by
  unfold OutlineReader.seekBody
  split
  next hbrace => exact .inBody rfl Nat.one_pos hbrace rfl hheading
  next => exact .beforeBody rfl (hheading.mono [token])

theorem events_seekBody (reader : OutlineReader) (heading : Heading) (token : Token) :
    (reader.seekBody heading token).events = reader.events := by
  unfold OutlineReader.seekBody
  split <;> rfl

/-- A token joins those since the last definition, or it completes one, and then none are left. -/
theorem step (hreader : reader.Since current) (token : Token) :
    ((reader.step token).Since (current ++ [token]) ∧
        (reader.step token).definitions = reader.definitions) ∨
      ∃ found : Definition, found.Fills (current ++ [token]) ∧ (reader.step token).Since [] ∧
        (reader.step token).definitions = reader.definitions ++ [found] := by
  unfold OutlineReader.step
  cases hreader with
  | between hstage hnotes =>
      rw [hstage]
      cases hopened : Bracket.openedBy? token.text with
      | none => exact .inl ⟨.between hstage (hnotes.note token), definitions_of_events_eq rfl⟩
      | some bracket =>
          have hnext := hnotes.note token
          exact .inl ⟨.inGroup rfl ⟨hnext.previous, hnext.start⟩ (hnotes.opensIn hopened),
            definitions_of_events_eq rfl⟩
  | @inGroup bracket opener depth heading hstage hnotes hheading =>
      have hnext := hnotes.note token
      rw [hstage]
      cases hdepth : bracket.depthAfter depth token.text with
      | zero =>
          simp only [hdepth]
          refine .inl ⟨?_, definitions_of_group rfl⟩
          cases heading with
          | none => exact .between rfl ⟨hnext.previous, hnext.start⟩
          | some found =>
              exact .afterParameters rfl ⟨hnext.previous, hnext.start⟩
                ((hheading found rfl).mono [token])
      | succ inner =>
          simp only [hdepth]
          exact .inl ⟨.inGroup rfl ⟨hnext.previous, hnext.start⟩ fun found hfound =>
            (hheading found hfound).mono [token], definitions_of_events_eq rfl⟩
  | afterParameters hstage hnotes hheading =>
      have hnext := hnotes.note token
      simp only [hstage]
      split
      · exact .inl ⟨.between rfl ⟨hnext.previous, hnext.start⟩, definitions_of_events_eq rfl⟩
      · exact .inl ⟨seekBody reader hheading token,
          definitions_of_events_eq (events_seekBody reader _ token)⟩
  | beforeBody hstage hheading =>
      simp only [hstage]
      exact .inl ⟨seekBody reader hheading token,
        definitions_of_events_eq (events_seekBody reader _ token)⟩
  | @inBody heading brace depth head body hstage hdepth hbrace hcurrent hheading =>
      rw [hstage]
      obtain ⟨outer, rfl⟩ := Nat.exists_eq_add_one.mpr hdepth
      cases hafter : Bracket.curly.depthAfter (outer + 1) token.text with
      | zero =>
          simp only [hafter]
          refine .inr ⟨⟨heading.name, heading.start, brace.first, token.first⟩, ?_,
            .between rfl ⟨rfl, rfl⟩, definitions_of_definition rfl⟩
          exact ⟨head, body, brace, token, by simp [hcurrent], hheading, hbrace,
            Bracket.text_of_depthAfter_eq_zero hafter, rfl, rfl⟩
      | succ inner =>
          simp only [hafter]
          refine .inl ⟨?_, definitions_of_events_eq rfl⟩
          exact .inBody rfl (Nat.succ_pos inner) hbrace
            (by rw [hcurrent, List.append_assoc, List.cons_append]) hheading

end Since

/-- The tokens are the segments of the complete definitions and those since the last of them. -/
def Segmented (tokens : List Token) (reader : OutlineReader) : Prop :=
  ∃ segments current, tokens = segments.flatten ++ current ∧
    List.Forall₂ Definition.Fills segments reader.definitions ∧ reader.Since current

theorem Segmented.step {tokens : List Token} {reader : OutlineReader}
    (hreader : reader.Segmented tokens) (token : Token) :
    (reader.step token).Segmented (tokens ++ [token]) := by
  obtain ⟨segments, current, rfl, hfills, hsince⟩ := hreader
  rcases hsince.step token with ⟨hnext, hsame⟩ | ⟨found, hfound, hnext, hmore⟩
  · exact ⟨segments, current ++ [token], by simp, hsame ▸ hfills, hnext⟩
  · refine ⟨segments ++ [current ++ [token]], [], by simp, ?_, hnext⟩
    rw [hmore]
    exact List.rel_append hfills (.cons hfound .nil)

theorem segmented_run (tokens : List Token) : (initial.run tokens).Segmented tokens := by
  have hinitial : initial.Segmented [] := ⟨[], [], rfl, .nil, .initial⟩
  exact run_invariant (fun _ _ token hbefore => hbefore.step token) hinitial tokens

end OutlineReader

namespace Definition.Fills

variable {segment : List Token} {definition : Definition}

/-- A definition begins at one token of its segment and ends at another. -/
theorem atFirst (hfills : definition.Fills segment) (start : Start) :
    Token.AtFirst segment (definition.first start) ∧ Token.AtFirst segment definition.last := by
  obtain ⟨_, body, brace, last, rfl, ⟨lead, paren, within, rfl, hends, _⟩, _, _, hbrace, hlast⟩ :=
    hfills
  refine ⟨?_, last, by simp, hlast⟩
  cases start with
  | declaration =>
      obtain ⟨first, hfirst, hstart⟩ := Option.map_eq_some_iff.mp hends.start
      have hmem : first ∈ lead :=
        (List.rtakeWhile_suffix _ lead).subset (List.mem_of_mem_head? hfirst)
      exact ⟨first, by simp [hmem], hstart.symm⟩
  | body => exact ⟨brace, by simp, hbrace⟩

/-- The tokens in front of the declaration, those of the declaration up to its name, and the
parentheses behind them. -/
theorem exists_split (hfills : definition.Fills segment) :
    ∃ outside first more paren rest, segment = outside ++ (first :: more ++ paren :: rest) ∧
      first.first = definition.start ∧ (first :: more).getLast? = some definition.name ∧
      (∀ token ∈ first :: more, token.text ≠ OutlineReader.semicolon) ∧
      paren.text = Bracket.round.opening ∧ Token.AtFirst rest definition.brace := by
  obtain ⟨_, body, brace, last, rfl, ⟨lead, paren, within, rfl, hends, hparen⟩, _, _, hbrace, _⟩ :=
    hfills
  obtain ⟨first, hfirst, hstart⟩ := Option.map_eq_some_iff.mp hends.start
  obtain ⟨more, hmore⟩ := List.head?_eq_some_iff.mp hfirst
  have hsuffix : Token.declaration lead <:+ lead := List.rtakeWhile_suffix _ lead
  rw [hmore] at hsuffix
  obtain ⟨outside, hlead⟩ := hsuffix
  have hname : (first :: more).getLast? = some definition.name := by
    rw [← hends.name, ← hlead, List.getLast?_append_cons]
  refine ⟨outside, first, more, paren, within ++ brace :: (body ++ [last]), ?_, hstart, hname, ?_,
    hparen, brace, by simp, hbrace⟩
  · rw [← List.append_assoc, hlead]
    simp
  · intro token htoken
    rw [← hmore] at htoken
    simpa using List.mem_rtakeWhile_imp htoken

/-- Parentheses open right behind the name, and no semicolon stands between them and the
beginning of the declaration. -/
theorem exists_paren {data : Bytes} (hfills : definition.Fills segment)
    (hsegment : segment <:+: data.tokens) :
    ∃ paren : Token, [definition.name, paren] <:+: data.tokens ∧
      paren.text = Bracket.round.opening ∧ paren.first < definition.brace ∧
      ∀ offset, definition.start ≤ offset → offset < paren.first →
        data[offset]? ≠ some ';'.toUInt8 := by
  obtain ⟨outside, first, more, paren, rest, hsplit, hstart, hname, hnone, hparen, brace, hbrace,
    hfirst⟩ := hfills.exists_split
  have hinfix : first :: more ++ paren :: rest <:+: data.tokens :=
    .trans ⟨outside, [], by simp [hsplit]⟩ hsegment
  obtain ⟨before, behind, hinfix⟩ := hinfix
  have hdata : data.tokens = before ++ (first :: more ++ (paren :: (rest ++ behind))) := by
    simp [← hinfix]
  obtain ⟨front, hfront⟩ := List.getLast?_eq_some_iff.mp hname
  have hascending : data.tokens.Pairwise (·.first < ·.first) := Token.ascending_scan 0 data
  rw [hdata, List.pairwise_append, List.pairwise_append, List.pairwise_cons (a := paren)]
    at hascending
  obtain ⟨_, ⟨_, ⟨hafter, _⟩, _⟩, hbefore⟩ := hascending
  refine ⟨paren, ⟨before ++ front, rest ++ behind, ?_⟩, hparen, ?_, ?_⟩
  · rw [hdata, hfront]
    simp
  · rw [hfirst]
    exact hafter brace (List.mem_append_left _ hbrace)
  · -- the semicolon is a token: in front of the declaration, in it, or from the parentheses on
    intro offset hle hlt hbyte
    have hmem := Token.solitary_semicolon.mem_scan 0 hbyte
    rw [Nat.zero_add, ← Bytes.tokens, hdata, List.mem_append, List.mem_append,
      List.mem_cons (b := paren)] at hmem
    rcases hmem with hmem | hmem | heq | hmem
    · have hfar := hbefore _ hmem first (by simp)
      simp only at hfar
      omega
    · exact hnone _ hmem rfl
    · rw [← heq] at hlt
      simp at hlt
    · have hfar := hafter _ hmem
      simp only at hfar
      omega

end Definition.Fills

theorem Definition.exists_fills_of_mem {segments : List (List Token)}
    {definitions : List Definition} (hfills : List.Forall₂ Fills segments definitions)
    {found : Definition} (hmem : found ∈ definitions) :
    ∃ segment ∈ segments, found.Fills segment := by
  induction hfills with
  | nil => simp at hmem
  | cons hfirst _ ih =>
      rcases List.mem_cons.mp hmem with rfl | hmem
      · exact ⟨_, List.mem_cons_self, hfirst⟩
      · obtain ⟨segment, hsegment, hfound⟩ := ih hmem
        exact ⟨segment, List.mem_cons_of_mem _ hsegment, hfound⟩

namespace Outline

/-- The definitions of an outline take up segments that follow each other. -/
theorem exists_segments (tokens : List Token) :
    ∃ segments, segments.flatten <+: tokens ∧
      List.Forall₂ Definition.Fills segments (ofTokens tokens).definitions := by
  obtain ⟨segments, current, hsplit, hfills, _⟩ := OutlineReader.segmented_run tokens
  exact ⟨segments, ⟨current, hsplit.symm⟩, hfills⟩

/-- Each definition ends in front of those behind it. -/
theorem pairwise_definitions {tokens : List Token}
    (hascending : tokens.Pairwise (·.first < ·.first)) (start : Start) :
    (ofTokens tokens).definitions.Pairwise fun found later => found.last < later.first start := by
  obtain ⟨segments, hprefix, hfills⟩ := exists_segments tokens
  have hordered := (List.pairwise_flatten.mp (hascending.sublist hprefix.sublist)).2
  generalize (ofTokens tokens).definitions = definitions at hfills
  clear hprefix
  induction hfills with
  | nil => exact .nil
  | cons hfirst hrest ih =>
      obtain ⟨hbefore, hordered⟩ := List.pairwise_cons.mp hordered
      refine List.pairwise_cons.mpr ⟨fun later hlater => ?_, ih hordered⟩
      obtain ⟨segment, hsegment, hfills⟩ := Definition.exists_fills_of_mem hrest hlater
      obtain ⟨last, hlast, hend⟩ := (hfirst.atFirst start).2
      obtain ⟨first, hfirst, hbegin⟩ := (hfills.atFirst start).1
      rw [hend, hbegin]
      exact hbefore segment hsegment last hlast first hfirst

/-- Every definition has parentheses right behind its name, and no semicolon between them and the
beginning of its declaration. -/
theorem exists_paren {data : Bytes} {found : Definition}
    (hmem : found ∈ (ofTokens data.tokens).definitions) :
    ∃ paren : Token, [found.name, paren] <:+: data.tokens ∧
      paren.text = Bracket.round.opening ∧ paren.first < found.brace ∧
      ∀ offset, found.start ≤ offset → offset < paren.first →
        data[offset]? ≠ some ';'.toUInt8 := by
  obtain ⟨segments, hprefix, hfills⟩ := exists_segments data.tokens
  obtain ⟨segment, hsegment, hfound⟩ := Definition.exists_fills_of_mem hfills hmem
  exact hfound.exists_paren ((List.infix_of_mem_flatten hsegment).trans hprefix.isInfix)

end Outline

/-- The functions of a text stand in it one behind the other. Where they begin with their
declarations, each is that of a definition whose name is followed by parentheses, with no semicolon
between the beginning of the function and them. -/
structure Footprint.InOrder (start : Start) (data : Bytes) (functions : List Footprint) : Prop where
  ordered : ∀ function ∈ functions, 0 ≤ function.span.first ∧
    function.span.first < function.span.last ∧ function.span.last < data.length
  apart : functions.Pairwise (·.span.last < ·.span.first)
  closed : ∀ function ∈ functions, data[function.span.last.toNat]? = some '}'.toUInt8
  headed : start = .declaration → ∀ function ∈ functions,
    ∃ found ∈ (Outline.ofTokens data.tokens).definitions, function = found.footprint start ∧
      ∃ paren : Token, [found.name, paren] <:+: data.tokens ∧
        paren.text = Bracket.round.opening ∧ paren.first < function.span.last ∧
        ∀ offset : Nat, function.span.first ≤ offset → offset < paren.first →
          data[offset]? ≠ some ';'.toUInt8

/-- The functions found in a scratch copy are ordered and disjoint: each begins behind the end of
the one before it and ends at a closing brace of the text. A function that begins with its
declaration has no semicolon between its beginning and the parentheses behind its name. -/
theorem functions_in_order {start : Start} {source scratch : Bytes} {functions : List Footprint}
    (hfunctions : Footprint.ofScratch start source scratch = .ok functions) :
    Footprint.InOrder start scratch functions := by
  obtain ⟨_, rfl⟩ := Footprint.ofScratch_eq_ok_iff.mp hfunctions
  have hends : ∀ found ∈ (Outline.ofTokens scratch.tokens).definitions,
      found.first start < found.last ∧ found.brace < found.last ∧
        scratch[found.last]? = some '}'.toUInt8 := by
    intro found hfound
    obtain ⟨hbody, hlast, _, _, hbrace⟩ := (Outline.readFrom_of_mem_definitions hfound).ends
    refine ⟨?_, hlast, hbrace⟩
    cases start with
    | declaration => exact hbody.trans hlast
    | body => exact hlast
  constructor
  case apart =>
    rw [List.pairwise_map]
    refine (Outline.pairwise_definitions (Token.ascending_scan 0 scratch) start).imp ?_
    exact fun hlt => Int.ofNat_lt.mpr hlt
  all_goals simp only [List.forall_mem_map]
  case ordered =>
    intro found hfound
    obtain ⟨hfirst, _, hbrace⟩ := hends found hfound
    have hlength := (List.getElem?_eq_some_iff.mp hbrace).1
    exact ⟨Int.natCast_nonneg _, Int.ofNat_lt.mpr hfirst, Int.ofNat_lt.mpr hlength⟩
  case closed => exact fun found hfound => (hends found hfound).2.2
  case headed =>
    rintro rfl found hfound
    obtain ⟨paren, hname, hparen, hbody, hnone⟩ := Outline.exists_paren hfound
    refine ⟨found, hfound, rfl, paren, hname, hparen, ?_, fun offset hle hlt => ?_⟩
    · exact Int.ofNat_lt.mpr (hbody.trans (hends found hfound).2.1)
    · exact hnone offset (Int.ofNat_le.mp hle) hlt

/-- A prototype in front, a declaration of a parameter between a head and its body, and a function
right behind another. -/
theorem functions_in_order_two_functions :
    let scratch := Bytes.ofChars "int p(k);int f(a)int a;\x7bx();\x7dt g()\x7b\x7d".toList
    let functions : List Footprint := [⟨"f", ⟨9, 28⟩⟩, ⟨"g", ⟨29, 35⟩⟩]
    Footprint.ofScratch .declaration scratch scratch = .ok functions ∧
      Footprint.InOrder .declaration scratch functions := by
  intro scratch functions
  have hfunctions : Footprint.ofScratch .declaration scratch scratch = .ok functions := by
    decide +kernel
  exact ⟨hfunctions, functions_in_order hfunctions⟩

end CDelta

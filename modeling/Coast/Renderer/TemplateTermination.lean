import Coast.Base.ImportReturns
import Coast.Renderer.TemplateProgress

/-!
# Parsing a template ends

The loops of `ParseAnything` and `DoParse`, the parsers for the body of a
tag, and what is left to return then: the imports.
-/

namespace Coast.TemplateParser

open TurnLoop List

theorem htmlTurn_readsOn (endChar : Byte) :
    ReadsOn (htmlTurn endChar) Prod.snd (fun s => s.2.2) := by
  rintro ⟨result, p⟩
  rw [htmlTurn]
  dsimp only
  split
  · exact error_reads _ _
  · rename_i good
    have consumes := get_consumes (p := p) (by simpa using good)
    split
    · split
      · split
        · split
          · exact consumes.toReads.trans ((peek_reads _).trans
              ((get_reads _).trans (isEmptyOrWd_reads _)))
          · exact consumes.trans ((peek_reads _).trans ((get_reads _).trans (isEmptyOrWd_reads _)))
        · exact consumes.trans (peek_reads _)
      · exact consumes
    · exact consumes.toReads.trans (error_reads _ _)

theorem readHTMLAsString_reads (endChar : Byte) (p : TemplateParser) :
    Reads p (readHTMLAsString endChar p).2.2 :=
  (htmlTurn_readsOn endChar).reads (fun s => (endChar, s)) ([], p)

theorem skipStringTurn_readsOn : ReadsOn skipStringTurn SkipScan.parser SkipScan.parser := by
  intro s
  rw [skipStringTurn]
  dsimp only
  split
  · exact .refl _
  · rename_i good
    have consumes := get_consumes (p := s.parser) (by simpa using good)
    split
    · exact consumes.toReads
    · split
      · exact consumes.trans (get_reads _)
      · exact consumes

theorem skipLineTurn_readsOn : ReadsOn skipLineTurn SkipScan.parser SkipScan.parser := by
  intro s
  rw [skipLineTurn]
  dsimp only
  split
  · exact .refl _
  · rename_i good
    have consumes := get_consumes (p := s.parser) (by simpa using good)
    split
    · exact consumes.toReads
    · exact consumes

theorem collectChar_reads (s : AnythingScan) (c : Option Byte)
    (p : TemplateParser) : Reads p (collectChar s c p).parser := by
  rw [collectChar]
  dsimp only
  split
  · exact .refl p
  · split
    · exact .refl p
    · split
      · exact skipStringTurn_readsOn.reads (fun s => s) (SkipScan.append ⟨c, s.collectany, p⟩)
      · split
        · exact skipLineTurn_readsOn.reads (fun s => s) (SkipScan.append ⟨c, s.collectany, p⟩)
        · exact .refl p

theorem anythingTurn_readsOn : ReadsOn anythingTurn AnythingScan.parser Prod.snd := by
  intro s
  rw [anythingTurn]
  dsimp only
  split
  · exact .refl _
  · rename_i good
    have consumes := get_consumes (p := s.parser) (by simpa using good)
    split
    · exact consumes.toReads
    · split
      · split
        · have closed := consumes.trans ((peek_reads _).trans (get_reads _))
          split
          · exact closed.toReads
          · split
            · exact closed.trans (readHTMLAsString_reads _ _)
            · exact closed.toReads.trans (error_reads _ _)
        · exact consumes.trans ((peek_reads _).trans (collectChar_reads s _ _))
      · exact consumes.trans (collectChar_reads s _ _)

@[simp]
theorem reader_store (p : TemplateParser) (spec : Anything) : (p.store spec).reader = p.reader := by
  cases spec <;> rfl

theorem store_reads (p : TemplateParser) (spec : Anything) : Reads p (p.store spec) :=
  .of_reader (reader_store p spec)

theorem parseAnything_reads (env : TemplateEnv) (endChar : Byte)
    (p : TemplateParser) : Reads p (parseAnything env endChar p) := by
  have loop := anythingTurn_readsOn.reads
    (fun s => (s.collectany, s.parser)) ⟨0, endChar, lit "\x7b", p⟩
  rw [parseAnything]
  apply Reads.trans loop
  exact .of_reader (reader_store _ _)

private theorem length_endOpen : (lit "</").length = 2 := rfl

theorem endTagTurn_collectsOn (tagName : Bytes) : CollectsOn (endTagTurn tagName) := by
  rintro ⟨result, p⟩
  rw [endTagTurn]
  dsimp only
  split
  · exact .same (error_reads _ _)
  · rename_i good
    have first := get_consumes (p := p) (by simpa using good)
    split
    · exact .same (first.toReads.trans (error_reads _ _))
    · split
      · split
        · rename_i slash
          have second := peek_get_consumes slash (by decide)
          have name := parseName_left p.get.2.peek.2.get.2
          have ahead := peek_reads p.get.2.peek.2.get.2.parseName.2
          have all := first.trans (second.toReads.trans (parseName_reads _))
          have three := first.left_lt
          have two := second.left_lt
          have one := ahead.left_le
          split
          · split
            · exact .same (all.toReads.trans (ahead.trans (get_reads _)))
            · refine ⟨all.trans ahead, ?_⟩
              simp only [length_append, length_endOpen]
              omega
          · refine ⟨all, ?_⟩
            simp only [length_append, length_endOpen]
            omega
        · have one := (peek_reads p.get.2).left_le
          have two := first.left_lt
          exact .added (first.trans (peek_reads _)) (by rw [length_singleton]; omega)
      · have two := first.left_lt
        exact .added first (by rw [length_singleton]; omega)

theorem parseAsStringUpToEndTag_reads (tagName : Bytes) (p : TemplateParser) :
    Reads p (parseAsStringUpToEndTag tagName p).2 :=
  (endTagTurn_collectsOn tagName).readsOn.reads (fun s => s) ([], p)

theorem parseAsStringUpToEndTag_left (tagName : Bytes) (p : TemplateParser) :
    (parseAsStringUpToEndTag tagName p).1.length +
      (parseAsStringUpToEndTag tagName p).2.left ≤ p.left :=
  (endTagTurn_collectsOn tagName).left_le p

/-! ## The main loops -/

/-- The functions of a parser leave an end of the text in front. -/
def SpecialTags.Reads (special : SpecialTags) : Prop :=
  ∀ tagName tagAttributes mustrender p, TemplateParser.Reads p
    (special.processSpecialTag tagName tagAttributes mustrender p).2

theorem formTags_reads : formTags.Reads := by
  intro tagName tagAttributes mustrender p
  cases mustrender <;> exact .refl p

theorem templateTags_reads (env : TemplateEnv) : (templateTags env).Reads := by
  intro tagName tagAttributes mustrender p
  have body := parseAsStringUpToEndTag_reads (tagName.map StringRep.tolower) p
  rw [templateTags]
  dsimp only
  apply Reads.trans body
  split
  · exact .of_reader rfl
  · exact .of_reader rfl

section DoParse

variable (env : TemplateEnv) {special : SpecialTags}

theorem parseTagIn_reads (reads : special.Reads) (p : TemplateParser) :
    Reads p (parseTagIn env special p) := by
  have tag := (parseName_reads p).trans (parseTag_reads env p)
  rw [parseTagIn]
  dsimp only
  apply Reads.trans tag
  split
  · exact (reads _ _ _ _).trans (store_reads _ _)
  · split
    · exact store_reads _ _
    · exact store_reads _ _

theorem isEmptyOrWd_putBack {p : TemplateParser} {c : Byte}
    (seen : p.peek.1 = some c) (notNul : c ≠ 0) (no : p.peek.2.get.2.isEmptyOrWd.1 = false) :
    Reads p (p.peek.2.get.2.isEmptyOrWd.2.putBack c) := by
  rcases peek_some seen notNul with ⟨rest, here⟩
  have after := isEmptyOrWd_reads p.peek.2.get.2
  rcases isEmptyOrWd_back p.peek.2.get.2 no with same | failed
  · rw [same, putBack_peek_get seen notNul]
    exact .refl p
  · apply Reads.trans ((peek_reads p).trans (get_reads _))
    exact after.trans (putBack_of_fail failed c)

theorem openTurn_reads (reads : special.Reads) (p : TemplateParser) :
    Reads p (openTurn env special p).2 := by
  rw [openTurn]
  dsimp only
  split
  · rename_i bang
    rw [putBack_peek_get bang (by decide)]
    split
    · exact (oldStyleComment_reads env p).trans (store_reads _ _)
    · exact .refl p
  · split
    · have name := ((peek_reads p).trans (get_reads _)).trans
        ((parseName_reads _).trans (peek_reads _))
      split
      · exact name.trans (get_reads _)
      · exact name.trans (error_reads _ _)
    · split
      · rename_i mark
        have inside := (peek_reads p).trans (get_reads _)
        have notNul : ∀ c, p.peek.1 = some c → c ≠ 0 := by
          rintro c seen rfl
          rw [seen] at mark
          exact absurd mark (by decide)
        split
        · exact inside.trans ((isEmptyOrWd_reads _).trans (parseAnything_reads env _ _))
        · rename_i no
          cases seen : p.peek.1 with
          | none =>
            rw [seen] at mark
            exact absurd mark (by decide)
          | some c =>
            exact isEmptyOrWd_putBack seen (notNul c seen) (by simpa using no)
      · split
        · exact (peek_reads p).trans (parseTagIn_reads env reads _)
        · exact peek_reads p

theorem storeText_reads (p : TemplateParser) (literal : Bytes) : Reads p (p.storeText literal) :=
  .of_reader rfl

theorem doParseTurn_readsOn (reads : special.Reads) :
    ReadsOn (doParseTurn env special) Prod.snd (fun p => p) := by
  rintro ⟨reply, p⟩
  rw [doParseTurn]
  dsimp only
  split
  · rename_i alive
    have consumes := get_consumes_of_live alive
    split
    · exact consumes.trans ((storeText_reads _ _).trans (openTurn_reads env reads _))
    · split
      · split
        · exact consumes.trans ((peek_reads _).trans
            ((storeText_reads _ _).trans ((macro_reads env _).trans (store_reads _ _))))
        · exact consumes.trans (peek_reads _)
      · exact consumes
  · exact (get_reads p).trans (storeText_reads _ _)

theorem scriptTurn_readsOn : ReadsOn (scriptTurn env) Prod.snd (fun p => p) := by
  rintro ⟨reply, p⟩
  rw [scriptTurn]
  dsimp only
  split
  · rename_i alive
    have consumes := get_consumes_of_live alive
    split
    · have ahead := consumes.trans (storeText_reads p.get.2 reply)
      split
      · rename_i mark
        have inside := (peek_reads (p.get.2.storeText reply)).trans (get_reads _)
        split
        · exact ahead.trans (inside.trans ((isEmptyOrWd_reads _).trans
            (parseAnything_reads env _ _)))
        · rename_i no
          cases seen : (p.get.2.storeText reply).peek.1 with
          | none =>
            rw [seen] at mark
            exact absurd mark (by decide)
          | some c =>
            have notNul : c ≠ 0 := by
              rintro rfl
              rw [seen] at mark
              exact absurd mark (by decide)
            exact ahead.trans (isEmptyOrWd_putBack seen notNul (by simpa using no))
      · exact ahead.trans (peek_reads _)
    · split
      · split
        · exact consumes.trans ((peek_reads _).trans
            ((storeText_reads _ _).trans ((macro_reads env _).trans (store_reads _ _))))
        · exact consumes.trans (peek_reads _)
      · exact consumes
  · exact (get_reads p).trans (storeText_reads _ _)

end DoParse

/-! ## Everything ends -/

/-- Each turn of a loop leaves fewer reads or ends it, so that it ends with
what running it gives. -/
structure LoopReturns {σ ρ : Type} (turn : σ → ρ ⊕ σ) (size : σ → Nat) : Prop where
  decreases : Decreases turn size
  ends : ∀ stop s, Ends turn s (run turn size stop s)

theorem loopReturns {σ ρ : Type} {turn : σ → ρ ⊕ σ} {size : σ → Nat}
    (decreases : Decreases turn size) : LoopReturns turn size :=
  ⟨decreases, fun _ s => ends_run decreases s⟩

/-- The loops of the parsers, by the function that has them. -/
structure LoopsReturn (env : TemplateEnv) : Prop where
  skipWhitespace : LoopReturns whitespaceTurn left
  parseName : LoopReturns nameTurn fun s => s.2.left
  parseUpToWhitespaceOrMacroEnd : LoopReturns keyTurn fun s => s.2.left
  macro_ : LoopReturns macroArgsTurn fun s => s.2.left
  commentSpace : LoopReturns CommentScan.spaceTurn fun s => s.parser.left
  commentWord : LoopReturns CommentScan.wordTurn fun s => s.2.parser.left
  commentMoreSpace : LoopReturns CommentScan.moreSpaceTurn CommentScan.size
  commentDashes : LoopReturns CommentScan.dashTurn CommentScan.size
  comment : LoopReturns CommentScan.skipTurn CommentScan.size
  commentArgsDashes : LoopReturns CommentScan.argsDashTurn fun s => s.2.size
  commentArgs : LoopReturns CommentScan.argsTurn fun s => s.2.size
  quotedValue : ∀ quote, LoopReturns (quotedTurn env quote) fun s => s.parser.left
  percentage : LoopReturns (legacyTurn isPercentage) fun s => s.2.left
  color : LoopReturns (legacyTurn isxdigit) fun s => s.2.left
  parseTag : ∀ tagName, LoopReturns (tagTurn env tagName) fun s => s.parser.left
  readHTMLAsString : ∀ endChar, LoopReturns (htmlTurn endChar) fun s => s.2.left
  skipString : LoopReturns skipStringTurn fun s => s.parser.left
  skipLine : LoopReturns skipLineTurn fun s => s.parser.left
  parseAnything : LoopReturns anythingTurn fun s => s.parser.left
  parseAsStringUpToEndTag : ∀ tagName, LoopReturns (endTagTurn tagName) fun s => s.2.left
  doParse : LoopReturns (doParseTurn env (templateTags env)) fun s => s.2.left
  formDoParse : LoopReturns (doParseTurn env formTags) fun s => s.2.left
  scriptDoParse : LoopReturns (scriptTurn env) fun s => s.2.left

theorem loopsReturn (env : TemplateEnv) : LoopsReturn env where
  skipWhitespace := loopReturns whitespaceTurn_readsOn.decreases
  parseName := loopReturns nameTurn_collectsOn.readsOn.decreases
  parseUpToWhitespaceOrMacroEnd := loopReturns keyTurn_readsOn.decreases
  macro_ := loopReturns macroArgsTurn_readsOn.decreases
  commentSpace := loopReturns CommentScan.spaceTurn_readsOn.decreases
  commentWord := loopReturns CommentScan.wordTurn_readsOn.decreases
  commentMoreSpace := loopReturns CommentScan.moreSpaceTurn_readsOn.decreases
  commentDashes := loopReturns CommentScan.dashTurn_readsOn.decreases
  comment := loopReturns CommentScan.skipTurn_readsOn.decreases
  commentArgsDashes := loopReturns CommentScan.argsDashTurn_readsOn.decreases
  commentArgs := loopReturns CommentScan.argsTurn_readsOn.decreases
  quotedValue := fun quote =>
    loopReturns (quotedTurn_readsOn env quote).decreases
  percentage := loopReturns (ReadsOn.decreases (legacyTurn_readsOn (by decide)))
  color := loopReturns (ReadsOn.decreases (legacyTurn_readsOn (by decide)))
  parseTag := fun tagName =>
    loopReturns (tagTurn_readsOn env tagName).decreases
  readHTMLAsString := fun endChar =>
    loopReturns (htmlTurn_readsOn endChar).decreases
  skipString := loopReturns skipStringTurn_readsOn.decreases
  skipLine := loopReturns skipLineTurn_readsOn.decreases
  parseAnything := loopReturns anythingTurn_readsOn.decreases
  parseAsStringUpToEndTag := fun tagName =>
    loopReturns (endTagTurn_collectsOn tagName).readsOn.decreases
  doParse := loopReturns (doParseTurn_readsOn env (templateTags_reads env)).decreases
  formDoParse := loopReturns (doParseTurn_readsOn env formTags_reads).decreases
  scriptDoParse := loopReturns (scriptTurn_readsOn env).decreases

/-- The body that a parser of its own reads is shorter than the text behind
the `<` of its tag. -/
def BodiesShorter (env : TemplateEnv) : Prop :=
  ∀ p : TemplateParser, (templateTags env).isSpecialTag (parseTag env p).2.parser
        (parseTag env p).1 (parseTag env p).2.tagAttributes = true →
      (parseAsStringUpToEndTag ((parseTag env p).1.map StringRep.tolower)
        (parseTag env p).2.parser).1.length < p.reader.rest.length

theorem bodiesShorter (env : TemplateEnv) : BodiesShorter env := by
  intro p special
  have name := parseName_left p
  have tag := (parseTag_reads env p).left_le
  have body := parseAsStringUpToEndTag_left
    ((parseTag env p).1.map StringRep.tolower) (parseTag env p).2.parser
  have four : 4 ≤ p.parseName.1.length := by
    rw [templateTags] at special
    dsimp only [parseTag] at special
    have lower : p.parseName.1.map StringRep.tolower = lit "script" ∨
        p.parseName.1.map StringRep.tolower = lit "form" := by
      simp only [Bool.or_eq_true, Bool.and_eq_true, decide_eq_true_eq] at special
      rcases special with script | form
      · exact .inl script
      · exact .inr form.1.1.1
    rw [← length_map StringRep.tolower]
    rcases lower with script | form
    · rw [script]
      decide
    · rw [form]
      decide
  have whole : p.left ≤ p.reader.rest.length + 1 := by
    rw [left]
    split <;> omega
  omega

/-- All loops end, so a parse returns when the imports that it starts do. -/
def ParseReturns (files : ParserEnv) (mem : StringEnv) (env : TemplateEnv) (reader : IStream)
    (filename : Bytes) (startline : Int) (config : Heap × Handle) : Prop :=
  ∀ text ∈ (parse env reader filename startline config).2.imports,
    ∀ st : ParseState, st.stream = IStream.ofText text →
      ∃ result, Coast.Returns files mem (.importAny st) result

/-- Every loop of the parsers ends, and a parse returns when the files that
its texts include are nested finitely and there is memory for their tokens. -/
theorem parse_returns (files : ParserEnv) (mem : StringEnv) (env : TemplateEnv)
    (reader : IStream) (filename : Bytes) (startline : Int) (config : Heap × Handle)
    (nests : ∀ text ∈ (parse env reader filename startline config).2.imports,
      ∃ depth, NestsWithin files mem depth (IStream.ofText text)) :
    LoopsReturn env ∧ BodiesShorter env ∧
      ParseReturns files mem env reader filename startline config := by
  refine ⟨loopsReturn env, bodiesShorter env, ?_⟩
  intro text imported st here
  rcases nests text imported with ⟨depth, nested⟩
  rw [← here] at nested
  exact ⟨_, returns_importWith nested.stored (stream_importIncludeAny files depth)
    (returns_importIncludeAny depth st.stream nested)⟩

def bareTemplateEnv : TemplateEnv where
  importAny := fun _ => .null
  findRenderer := fun _ => true
  findAction := fun _ => false
  roles := []
  findPage := fun _ => none

private theorem imports_embedded :
    (parse bareTemplateEnv (.ofText (lit "<? ?>")) [] 1 ([], none)).2.imports = [lit "{ }"] := by
  decide +kernel

theorem parse_returns_embedded :
    ParseReturns bareEnv StringRep.exactEnv bareTemplateEnv (.ofText (lit "<? ?>")) [] 1 ([], none) := by
  let start := IStream.ofText (lit "{ }")
  let first := (AnythingToken.read start).2
  let second := (AnythingToken.read first).2
  let last_ := (AnythingToken.read second).2
  refine (parse_returns bareEnv StringRep.exactEnv bareTemplateEnv (.ofText (lit "<? ?>")) [] 1
    ([], none) ?_).2.2
  intro text imported
  rw [imports_embedded] at imported
  rw [mem_singleton.mp imported]
  exact ⟨0, nestsWithin_of_reached
    (show start ∈ [start, first, second, last_] from mem_cons_self)
    (by decide +kernel)⟩

/-- A macro includes a file that includes itself. -/
theorem not_parse_returns :
    ¬ ∀ files env reader filename startline config,
      ParseReturns files StringRep.exactEnv env reader filename startline config := by
  intro all
  have imported : (parse bareTemplateEnv
      (.ofText (lit "[[#wd x {!a}]]")) [] 1 ([], none)).2.imports = [lit "{!a}"] := by
    decide +kernel
  rcases all loopEnv bareTemplateEnv (.ofText (lit "[[#wd x {!a}]]")) [] 1 ([], none)
      (lit "{!a}") (imported ▸ mem_singleton_self _) ⟨loopText, false, [], []⟩ rfl
    with ⟨result, returns⟩
  exact not_returns_of_loops returns rfl

end Coast.TemplateParser

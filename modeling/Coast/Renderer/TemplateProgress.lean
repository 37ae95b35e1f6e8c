import Coast.Renderer.TemplateParser

/-!
# Every turn of the template parser reads on

For each scanning loop: a turn that is not the last one leaves fewer reads,
and what the loop leaves in front is an end of what it had.
-/

namespace Coast.TemplateParser

section

open TurnLoop List

variable {p q : TemplateParser}

def ReadsOn {σ ρ : Type} (turn : σ → ρ ⊕ σ) (parser : σ → TemplateParser)
    (result : ρ → TemplateParser) : Prop :=
  Makes turn (fun s next => Consumes (parser s) (parser next))
    (fun s r => Reads (parser s) (result r))

section ReadsOn

variable {σ ρ : Type} {turn : σ → ρ ⊕ σ} {parser : σ → TemplateParser} {result : ρ → TemplateParser}

theorem ReadsOn.decreases (readsOn : ReadsOn turn parser result) :
    Decreases turn fun s => (parser s).left :=
  Makes.decreases readsOn fun _ _ step => step.left_lt

theorem ReadsOn.reads (readsOn : ReadsOn turn parser result) (stop : σ → ρ) (s : σ) :
    Reads (parser s)
      (result (run turn (fun s => (parser s).left) stop s)) :=
  Makes.run_relates readsOn (fun _ _ step => step.left_lt)
    (fun _ _ _ step given => step.toReads.trans given) stop s

end ReadsOn

structure Collects (s t : Collected) : Prop where
  reads : Reads s.2 t.2
  left_le : t.1.length + t.2.left ≤ s.1.length + s.2.left

structure CollectsMore (s t : Collected) : Prop where
  consumes : Consumes s.2 t.2
  left_le : t.1.length + t.2.left ≤ s.1.length + s.2.left

def CollectsOn (turn : Collected → Collected ⊕ Collected) : Prop := Makes turn CollectsMore Collects

theorem Collects.same {text : Bytes} (reads : Reads p q) : Collects (text, p) (text, q) :=
  ⟨reads, Nat.add_le_add_left reads.left_le _⟩

theorem CollectsMore.added {text word : Bytes} (consumes : Consumes p q)
    (room : word.length + q.left ≤ p.left) :
    CollectsMore (text, p) (text ++ word, q) := by
  refine ⟨consumes, ?_⟩
  rw [length_append, Nat.add_assoc]
  exact Nat.add_le_add_left room _

section CollectsOn

variable {turn : Collected → Collected ⊕ Collected}

theorem CollectsOn.readsOn (collectsOn : CollectsOn turn) : ReadsOn turn Prod.snd Prod.snd := by
  intro s
  have made := collectsOn s
  cases result : turn s with
  | inl r =>
    rw [result] at made
    exact made.reads
  | inr next =>
    rw [result] at made
    exact made.consumes

theorem CollectsOn.left_le (collectsOn : CollectsOn turn) (p : TemplateParser) :
    (run turn (fun s => s.2.left) (fun s => s) ([], p)).1.length +
      (run turn (fun s => s.2.left) (fun s => s) ([], p)).2.left ≤ p.left := by
  have whole := Makes.run_relates collectsOn (fun _ _ step => step.consumes.left_lt)
    (fun _ _ _ step given =>
      ⟨step.consumes.toReads.trans given.reads,
        given.left_le.trans step.left_le⟩) (fun s => s) ([], p)
  have bound := whole.left_le
  rw [length_nil, Nat.zero_add] at bound
  exact bound

end CollectsOn

theorem error_reads (p : TemplateParser) (msg : Bytes) : Reads p (p.error msg) := .of_reader rfl

theorem whitespaceTurn_readsOn : ReadsOn whitespaceTurn (fun p => p) (fun p => p) := by
  intro p
  rw [whitespaceTurn]
  split
  · exact .refl p
  · split
    · rename_i sees
      exact peek_get_consumes_of_any sees rfl
    · exact peek_reads p

theorem skipWhitespace_reads (p : TemplateParser) : Reads p p.skipWhitespace :=
  whitespaceTurn_readsOn.reads _ p

theorem continuesName_nul (theName : Bytes) : continuesName theName 0 = false := rfl

theorem nameTurn_collectsOn : CollectsOn nameTurn := by
  rintro ⟨theName, p⟩
  rw [nameTurn]
  split
  · exact .same (.refl p)
  · split
    · rename_i sees
      have consumes := peek_get_consumes_of_any sees (continuesName_nul theName)
      have fewer := consumes.left_lt
      exact .added consumes (by rw [length_singleton]; omega)
    · exact .same (peek_reads p)

theorem parseName_reads (p : TemplateParser) : Reads p p.parseName.2 :=
  nameTurn_collectsOn.readsOn.reads (fun s => s) ([], p)

theorem parseName_left (p : TemplateParser) : p.parseName.1.length + p.parseName.2.left ≤ p.left :=
  nameTurn_collectsOn.left_le p

theorem keyTurn_readsOn : ReadsOn keyTurn Prod.snd Prod.snd := by
  rintro ⟨theName, p⟩
  rw [keyTurn]
  dsimp only
  split
  · exact .refl p
  · split
    · rename_i sees
      have consumes := peek_get_consumes_of_any sees rfl
      split
      · rename_i bracket
        split
        · rw [putBack_peek_get bracket (by decide)]
          exact error_reads p _
        · exact consumes.trans ((peek_reads _).trans (get_reads _))
      · exact consumes
    · exact peek_reads p

theorem parseUpToWhitespaceOrMacroEnd_reads (p : TemplateParser) :
    Reads p p.parseUpToWhitespaceOrMacroEnd.2 :=
  keyTurn_readsOn.reads _ ([], p)

theorem processArgs_reads (env : TemplateEnv) (renderer args : Bytes)
    (p : TemplateParser) : Reads p (processArgs env renderer args p).2 := by
  apply Reads.of_reader
  rw [processArgs]
  dsimp only [error]
  split <;> split <;> first | rfl | (split <;> rfl)

theorem macroArgsTurn_readsOn : ReadsOn macroArgsTurn Prod.snd Prod.snd := by
  rintro ⟨args, p⟩
  rw [macroArgsTurn]
  dsimp only
  split
  · exact .refl p
  · rename_i good
    have consumes := get_consumes (p := p) (by simpa using good)
    split
    · split
      · split
        · exact consumes.toReads.trans ((peek_reads _).trans (get_reads _))
        · exact consumes.trans (peek_reads _)
      · exact consumes
    · exact consumes.toReads

theorem macroArgs_reads (p : TemplateParser) : Reads p p.macroArgs.2 :=
  macroArgsTurn_readsOn.reads _ ([], p)

theorem wdMacro_reads (env : TemplateEnv) (p : TemplateParser) : Reads p (wdMacro env p).2 := by
  have slash : ∀ q : TemplateParser, Reads q
      (if q.peek.1 = some (ch '/') then q.peek.2.get.2 else q.peek.2) := by
    intro q
    split
    · exact (peek_reads q).trans (get_reads _)
    · exact peek_reads q
  rw [wdMacro]
  apply Reads.trans (skipWhitespace_reads p)
  apply Reads.trans (slash _)
  apply Reads.trans (parseUpToWhitespaceOrMacroEnd_reads _)
  apply Reads.trans (skipWhitespace_reads _)
  apply Reads.trans (macroArgs_reads _)
  exact processArgs_reads env _ _ _

theorem macro_reads (env : TemplateEnv) (p : TemplateParser) : Reads p (macro_ env p).2 := by
  rw [macro_]
  dsimp only
  apply Reads.trans (get_reads p)
  split
  · apply Reads.trans (get_reads _)
    split
    · apply Reads.trans (parseName_reads _)
      split
      · exact wdMacro_reads env _
      · exact error_reads _ _
    · exact .refl _
  · exact .refl _

/-! ## Old style comments -/

namespace CommentScan

/-- No more is left of the text or of its characters at hand. -/
structure Reads (s t : CommentScan) : Prop where
  parser : s.parser.Reads t.parser
  size_le : t.size ≤ s.size

variable {s t u : CommentScan}

theorem Reads.refl (s : CommentScan) : Reads s s := ⟨.refl _, Nat.le_refl _⟩

theorem Reads.trans (first : Reads s t) (second : Reads t u) : Reads s u :=
  ⟨first.parser.trans second.parser, second.size_le.trans first.size_le⟩

theorem gsr_size (s : CommentScan) : s.gsr.size ≤ s.parser.left := get_left s.parser

theorem gsr_reads (s : CommentScan) : Reads s s.gsr :=
  ⟨get_reads s.parser, (gsr_size s).trans (Nat.le_add_right _ _)⟩

theorem gsr_smaller (alive : s.c.any (· ≠ 0) = true) : s.gsr.size < s.size := by
  have whole : s.size = s.parser.left + 1 := by
    rw [size, live, if_pos alive]
  rw [whole]
  exact Nat.lt_succ_of_le (gsr_size s)

theorem live_of_any {test : Byte → Bool} {c : Option Byte}
    (holds : c.any test = true) (nul : test 0 = false) :
    c.any (· ≠ 0) = true := by
  cases c with
  | none => cases holds
  | some c =>
    simp only [Option.any_some, decide_eq_true_eq] at holds ⊢
    intro zero
    rw [zero, nul] at holds
    cases holds

theorem live_of_eq {b : Byte} {c : Option Byte} (same : c = some b)
    (notNul : b ≠ 0) : c.any (· ≠ 0) = true := by
  rw [same]
  simpa using notNul

/-- The turns of a loop that reads a comment, for states that hold it. -/
def ReadsOn {σ : Type} (turn : σ → σ ⊕ σ) (scan : σ → CommentScan) (size : σ → Nat) : Prop :=
  Makes turn (fun s next => Reads (scan s) (scan next) ∧ size next < size s)
    (fun s r => Reads (scan s) (scan r))

section ReadsOn

variable {σ : Type} {turn : σ → σ ⊕ σ} {scan : σ → CommentScan} {size : σ → Nat}

theorem ReadsOn.decreases (readsOn : ReadsOn turn scan size) : Decreases turn size :=
  Makes.decreases readsOn fun _ _ step => step.2

theorem ReadsOn.reads (readsOn : ReadsOn turn scan size) (stop : σ → σ)
    (s : σ) : Reads (scan s) (scan (run turn size stop s)) :=
  Makes.run_relates readsOn (fun _ _ step => step.2)
    (fun _ _ _ step given => step.1.trans given) stop s

end ReadsOn

theorem gsr_left (alive : s.gsr.c.any (· ≠ 0) = true) : s.gsr.parser.left < s.parser.left := by
  have smaller := gsr_size s
  rw [size, live, if_pos alive] at smaller
  omega

theorem spaceTurn_readsOn : ReadsOn spaceTurn (fun s => s) (fun s => s.parser.left) := by
  intro s
  rw [spaceTurn]
  split
  · rename_i isSpace
    exact ⟨gsr_reads s, gsr_left (live_of_any isSpace rfl)⟩
  · exact gsr_reads s

theorem wordTurn_readsOn : ReadsOn wordTurn Prod.snd (fun s => s.2.parser.left) := by
  rintro ⟨word, s⟩
  rw [wordTurn]
  split
  · rename_i inWord
    exact ⟨gsr_reads s, gsr_left (live_of_any inWord rfl)⟩
  · exact gsr_reads s

theorem moreSpaceTurn_readsOn : ReadsOn moreSpaceTurn (fun s => s) size := by
  intro s
  rw [moreSpaceTurn]
  split
  · rename_i isSpace
    exact ⟨gsr_reads s, gsr_smaller (live_of_any isSpace rfl)⟩
  · exact .refl s

theorem dashTurn_readsOn : ReadsOn dashTurn (fun s => s) size := by
  intro s
  rw [dashTurn]
  split
  · rename_i dash
    exact ⟨gsr_reads s, gsr_smaller (live_of_eq dash (by decide))⟩
  · exact .refl s

theorem skipTurn_readsOn : ReadsOn skipTurn (fun s => s) size := by
  have smaller : ∀ {s t : CommentScan}, s.c.any (· ≠ 0) = true →
      Reads s.gsr t → Reads s t ∧ t.size < s.size := fun alive reads =>
    ⟨(gsr_reads _).trans reads, reads.size_le.trans_lt (gsr_smaller alive)⟩
  intro s
  rw [skipTurn]
  dsimp only
  split
  · rename_i alive
    split
    · split
      · have dashes := (gsr_reads s.gsr).trans (dashTurn_readsOn.reads (fun s => s) s.gsr.gsr)
        split
        · exact (smaller alive dashes).1
        · exact smaller alive (dashes.trans (gsr_reads _))
      · exact smaller alive (gsr_reads _)
    · exact smaller alive (.refl _)
  · exact .refl s

theorem argsDashTurn_readsOn : ReadsOn argsDashTurn Prod.snd (fun s => s.2.size) := by
  intro s
  rw [argsDashTurn]
  split
  · rename_i dash
    exact ⟨gsr_reads s.2, gsr_smaller (live_of_eq dash (by decide))⟩
  · exact .refl s.2

theorem argsTurn_readsOn : ReadsOn argsTurn Prod.snd (fun s => s.2.size) := by
  have smaller : ∀ {s t : CommentScan}, s.c.any (· ≠ 0) = true →
      Reads s.gsr t → Reads s t ∧ t.size < s.size := fun alive reads =>
    ⟨(gsr_reads _).trans reads, reads.size_le.trans_lt (gsr_smaller alive)⟩
  rintro ⟨args, s⟩
  rw [argsTurn]
  dsimp only
  split
  · rename_i alive
    split
    · split
      · have dashes := (gsr_reads s.gsr).trans
          (argsDashTurn_readsOn.reads (fun s => s) (gsrArgs (gsrArgs (args ++ [toChar s.c], s))))
        split
        · exact (smaller alive dashes).1
        · exact smaller alive (dashes.trans (gsr_reads _))
      · exact smaller alive (gsr_reads _)
    · exact smaller alive (.refl _)
  · exact .refl s

theorem wdComment_reads (env : TemplateEnv) (s : CommentScan) :
    s.parser.Reads (wdComment env s).2 := by
  have key : Reads s s.readWord.2 := wordTurn_readsOn.reads _ ([], s)
  have space := key.trans (moreSpaceTurn_readsOn.reads (fun s => s) s.readWord.2)
  have args := space.trans (argsTurn_readsOn.reads (fun s => s) ([], s.readWord.2.skipMoreSpace))
  rw [wdComment]
  apply args.parser.trans
  exact (error_reads _ _).trans (processArgs_reads env _ _ _)

theorem insideComment_reads (env : TemplateEnv) (s : CommentScan) :
    s.parser.Reads (insideComment env s).2 := by
  have space : Reads s s.skipSpace := spaceTurn_readsOn.reads _ s
  have word : ∀ t : CommentScan, Reads t
      (if t.c = some (ch '#') then t.readWord else ([], t)).2 := by
    intro t
    split
    · exact wordTurn_readsOn.reads _ ([], t)
    · exact .refl t
  have last : ∀ w : Bytes × CommentScan, w.2.parser.Reads
      (if w.1 = lit "wd" then wdComment env w.2
        else (.charPtr w.2.skipComment.comment, w.2.skipComment.parser)).2 := by
    intro w
    split
    · exact wdComment_reads env w.2
    · exact (skipTurn_readsOn.reads (fun s => s) w.2).parser
  exact (space.trans (word s.skipSpace)).parser.trans (last _)

end CommentScan

theorem oldStyleComment_reads (env : TemplateEnv) (p : TemplateParser) :
    Reads p (oldStyleComment env p).2 := by
  rw [oldStyleComment]
  dsimp only
  apply Reads.trans (get_reads p)
  split
  · apply Reads.trans (get_reads _)
    split
    · apply Reads.trans (get_reads _)
      split
      · exact CommentScan.insideComment_reads env (CommentScan.mk none (lit "<") p).gsr.gsr.gsr
      · exact .refl _
    · exact .refl _
  · exact .refl _

theorem isEmptyOrWd_reads (p : TemplateParser) : Reads p p.isEmptyOrWd.2 := by
  rw [isEmptyOrWd]
  dsimp only
  split
  · exact peek_reads p
  · split
    · rename_i seesW
      rcases peek_of_any seesW (by decide) with ⟨w, rest, here⟩
      rw [here, peek_read_cons, get_read_cons, nil_append]
      split
      · rename_i seesD
        rcases peek_of_any seesD (by decide) with ⟨d, after, inside⟩
        have same : rest = d :: after := congrArg (·.reader.rest) inside
        rw [same, peek_read_cons, get_read_cons]
        have word : Reads (p.read [] (w :: d :: after))
            (p.read ([w] ++ [d]) after).peek.2 :=
          (Reads.trans ⟨⟨[w, d], rfl⟩, Nat.le_add_right _ 2⟩ (peek_reads _))
        split
        · exact word
        · by_cases lower : d = ch 'd'
          · rw [← lower, putBack_peek_read]
            exact putBack_reads p [] (d :: after) w (ch 'w')
          · have failed := putBack_reads p [w] after d (ch 'd')
            apply Reads.trans ⟨⟨[w], rfl⟩, Nat.le_succ _⟩ (failed.trans ?_)
            apply putBack_of_fail
            rw [putBack_read_of_ne lower]
      · exact putBack_reads p [] rest w (ch 'w')
    · exact peek_reads p

theorem isEmptyOrWd_back (p : TemplateParser) (no : p.isEmptyOrWd.1 = false) :
    p.isEmptyOrWd.2 = p.peek.2 ∨ p.isEmptyOrWd.2.reader.fail = true := by
  rw [isEmptyOrWd] at no ⊢
  dsimp only at no ⊢
  split
  · rename_i isSpace
    rw [if_pos isSpace] at no
    cases no
  · rename_i notSpace
    rw [if_neg notSpace] at no
    split
    · rename_i seesW
      rcases peek_of_any seesW (by decide) with ⟨w, rest, here⟩
      have word : p.peek.2 = p.read [] (w :: rest) := by
        rw [here, peek_read_cons, read_read]
        rfl
      rw [if_pos seesW] at no
      rw [word, get_read_cons, nil_append] at no ⊢
      split
      · rename_i seesD
        rcases peek_of_any seesD (by decide) with ⟨d, after, inside⟩
        have same : rest = d :: after := congrArg (·.reader.rest) inside
        rw [if_pos seesD] at no
        rw [same, peek_read_cons, get_read_cons] at no ⊢
        split
        · rename_i ends
          rw [if_pos ends] at no
          cases no
        · by_cases lower : d = ch 'd'
          · rw [← lower, putBack_peek_read]
            exact putBack_or_fail p [] (d :: after) w (ch 'w')
          · right
            apply fail_putBack
            rw [putBack_read_of_ne lower]
      · have back := putBack_or_fail p [] rest w (ch 'w')
        rwa [nil_append] at back
    · exact .inl rfl

end

/-!
## Reading a tag reads on

The loops of `ParseValue` and `ParseTag`.
-/

open TurnLoop List

theorem quotedTurn_readsOn (env : TemplateEnv) (quote : Byte) :
    ReadsOn (quotedTurn env quote) QuotedScan.parser QuotedScan.parser := by
  intro s
  rw [quotedTurn]
  dsimp only
  split
  · exact .refl _
  · rename_i good
    have consumes := get_consumes (p := s.parser) (by simpa using good)
    split
    · exact consumes.toReads
    · split
      · split
        · exact consumes.trans ((peek_reads _).trans (macro_reads env _))
        · exact consumes.trans (peek_reads _)
      · exact consumes

theorem quotedValue_reads (env : TemplateEnv) (quote : Byte)
    (p : TemplateParser) : Reads p (quotedValue env quote p).2 := by
  have loop := (quotedTurn_readsOn env quote).reads (fun s => s) ⟨.null, [], p⟩
  rw [quotedValue]
  split <;> exact loop

theorem isGood_of_peek {p : TemplateParser} {test : Byte → Bool}
    (sees : p.get.2.peek.1.any test = true) (nul : test 0 = false) :
    p.isGood = false := by
  cases good : p.isGood with
  | false => rfl
  | true =>
    rw [get_of_isGood good, peek_of_isGood good, Option.any_some, nul] at sees
    cases sees

theorem legacyTurn_readsOn {more : Byte → Bool} (nul : more 0 = false) :
    ReadsOn (legacyTurn more) Prod.snd Prod.snd := by
  rintro ⟨value, p⟩
  rw [legacyTurn]
  dsimp only
  split
  · rename_i sees
    exact (get_consumes (isGood_of_peek sees nul)).trans (peek_reads _)
  · exact (get_reads p).trans (peek_reads _)

theorem legacyValue_reads {more : Byte → Bool} (nul : more 0 = false)
    (p : TemplateParser) : Reads p (p.legacyValue more).2 :=
  (legacyTurn_readsOn nul).reads _ ([], p)

theorem parseValue_reads (env : TemplateEnv) (p : TemplateParser) :
    Reads p (parseValue env p).2 := by
  rw [parseValue]
  apply Reads.trans (peek_reads p)
  split
  · exact (get_reads _).trans (macro_reads env _)
  · split
    · exact (get_reads _).trans (quotedValue_reads env _ _)
    · split
      · exact parseName_reads _
      · split
        · exact legacyValue_reads (by decide) _
        · split
          · exact legacyValue_reads (by decide) _
          · exact .refl _

theorem length_adjustCase (strCase name : Bytes) :
    (adjustCase strCase name).length = name.length := by
  rw [adjustCase]
  split
  · exact length_map ..
  · split
    · exact length_map ..
    · rfl

theorem parseAttribute_reads (env : TemplateEnv) (tagName : Bytes) (p : TemplateParser) :
    Reads p (parseAttribute env tagName p).parser := by
  rw [parseAttribute]
  dsimp only
  apply Reads.trans (parseName_reads p)
  apply Reads.trans (skipWhitespace_reads _)
  split
  · apply Reads.trans (peek_reads _)
    exact (get_reads _).trans (parseValue_reads env _)
  · exact peek_reads _

theorem parseName_consumes {p : TemplateParser}
    (named : p.parseName.1 ≠ []) : Consumes p p.parseName.2 := by
  have counted := parseName_left p
  have positive := length_pos_of_ne_nil named
  exact ⟨parseName_reads p, by omega⟩

variable (env : TemplateEnv)
include env

section

variable (tagName : Bytes)
include tagName

theorem parseAttribute_consumes (p : TemplateParser)
    (some_ : (parseAttribute env tagName p).found = true ∨
      (parseAttribute env tagName p).name ≠ []) :
    Consumes p (parseAttribute env tagName p).parser := by
  have name := parseName_reads p
  have space := skipWhitespace_reads p.parseName.2
  rw [parseAttribute] at some_ ⊢
  dsimp only at some_ ⊢
  split
  · rename_i equals
    apply (name.trans space).consumes
    exact (peek_get_consumes equals (by decide)).trans (parseValue_reads env _)
  · rename_i noValue
    rw [if_neg noValue] at some_
    rcases some_ with found | named
    · cases found
    · have nonempty : p.parseName.1 ≠ [] := by
        intro empty
        apply named
        apply length_eq_zero_iff.mp
        rw [length_adjustCase, empty]
        rfl
      exact (parseName_consumes nonempty).trans (space.trans (peek_reads _))

theorem attributeTurn_consumes
    (s : TagScan) {p : TemplateParser} (good : p.isGood = false) :
    Consumes p (attributeTurn env tagName s p).parser := by
  have reads := parseAttribute_reads env tagName p
  have consumes := parseAttribute_consumes env tagName p
  rw [attributeTurn]
  dsimp only
  split
  · rename_i found
    exact consumes (.inl found)
  · split
    · rename_i named
      exact consumes (.inr named)
    · have last := get_reads (parseAttribute env tagName p).parser
      cases still : (parseAttribute env tagName p).parser.isGood with
      | false =>
        exact (reads.consumes (get_consumes still)).trans (error_reads _ _)
      | true =>
        exact (reads.consumes_of_isGood good still).trans (last.trans (error_reads _ _))

theorem attributeTurn_reads (s : TagScan) (p : TemplateParser) :
    Reads p (attributeTurn env tagName s p).parser := by
  have reads := parseAttribute_reads env tagName p
  rw [attributeTurn]
  dsimp only
  split
  · exact reads
  · split
    · exact reads
    · exact reads.trans ((get_reads _).trans (error_reads _ _))

theorem tagTurn_readsOn :
    ReadsOn (tagTurn env tagName) TagScan.parser TagScan.parser := by
  intro s
  rw [tagTurn]
  dsimp only
  split
  · exact .refl _
  · rename_i notOver
    have good : s.parser.isGood = false := by simpa using notOver
    have space := skipWhitespace_reads s.parser
    have ahead := space.trans (peek_reads _)
    split
    · rename_i bracket
      have inside := (space.consumes (peek_get_consumes bracket
        (by decide))).trans ((macro_reads env _).trans
          ((skipWhitespace_reads _).trans (peek_reads _)))
      split
      · exact inside.trans ((get_reads _).trans (parseValue_reads env _))
      · exact inside
    · split
      · exact ahead.trans (get_reads _)
      · split
        · rename_i slash
          split
          · exact ahead.trans ((get_reads _).trans ((peek_reads _).trans (get_reads _)))
          · rw [putBack_peek_get slash (by decide)]
            rcases peek_some slash (by decide) with ⟨rest, here⟩
            have still : s.parser.skipWhitespace.isGood = false := by
              rw [here]
              rfl
            exact space.consumes (attributeTurn_consumes env tagName s still)
        · cases still : s.parser.skipWhitespace.peek.2.isGood with
          | false =>
            exact ahead.consumes (attributeTurn_consumes env tagName s still)
          | true =>
            exact (ahead.consumes_of_isGood good still).trans (attributeTurn_reads env tagName s _)

end

/-- Parsing a tag reads on, or comes to the end. -/
theorem parseTag_reads (p : TemplateParser) : Reads p.parseName.2 (parseTag env p).2.parser :=
  (tagTurn_readsOn env _).reads (fun s => s) ⟨false, .null, p.parseName.2⟩

end Coast.TemplateParser

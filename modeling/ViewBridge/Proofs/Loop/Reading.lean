import ViewBridge.Proofs.Loop.Translation
import ViewBridge.Proofs.Template.Reading
import ViewBridge.Proofs.Template.Tokens
/-!
# Nested loops as the engine reads them

The tokens of translated loops and the statements they are read as, each with its line. Reading a loop takes a
level, and an assignment in the innermost loop takes three more, so a template is read if its loops are nested
no deeper than that, and refused otherwise.

Results:
* `scans_target`: the tokens of translated loops.
* `yields_lexemes`, `yields_lexemes_refused`: what they are read as.
* `read_target`: the whole template.
-/
namespace ViewBridge.LoopTemplate

open Template Translator
open Template.Yields (outputLexemes assignLexemes loopLexemes endLexemes)

/-! ## Names -/

section
variable {name : Chars}

theorem namesVariable_of_ne (h : ∀ word ∈ reserved, name ≠ word.toList) : NamesVariable name := by
  have hne (word : String) (hword : word ∈ reserved := by decide) : name ≠ word.toList := h word hword
  refine ⟨hne "not", ?_⟩
  simp only [constantNamed?, hne "true", hne "True", hne "false", hne "False", hne "none", hne "None", or_self,
    if_false]

theorem ne_of_digit {word : Chars} {c : Char} (hc : c ∈ name) (hdigit : Text.isDigit c = true)
    (hword : word.any Text.isDigit = false) : name ≠ word := by
  rintro rfl
  exact List.any_eq_false.1 hword c hc hdigit

theorem bindable_of_digit {c : Char} (hc : c ∈ name) (hdigit : Text.isDigit c = true) : Bindable name := by
  have hwords : ∀ r ∈ reservedNames, r.toList.any Text.isDigit = false := by decide
  refine ⟨List.any_eq_false.2 fun r hr => ?_, ne_of_digit hc hdigit (by decide)⟩
  rw [beq_iff_eq]
  exact (ne_of_digit hc hdigit (hwords r hr)).symm

theorem namesVariable_of_digit {c : Char} (hc : c ∈ name) (hdigit : Text.isDigit c = true) :
    NamesVariable name := by
  have hwords : ∀ word ∈ reserved, word.toList.any Text.isDigit = false := by decide
  exact namesVariable_of_ne fun word hword => ne_of_digit hc hdigit (hwords word hword)

theorem exists_digit_numbered (word : String) (n : Nat) : ∃ c ∈ numbered word n, Text.isDigit c = true := by
  obtain ⟨c, cs, hdigits⟩ := List.exists_cons_of_ne_nil (l := Text.ofNat n) Nat.toDigits_ne_nil
  have hc : c ∈ Text.ofNat n := hdigits ▸ List.mem_cons_self
  exact ⟨c, List.mem_append_right _ hc, Shelf.isDigit_of_mem_ofNat hc⟩

theorem bindable_numbered (word : String) (n : Nat) : Bindable (numbered word n) := by
  obtain ⟨c, hc, hdigit⟩ := exists_digit_numbered word n
  exact bindable_of_digit hc hdigit

theorem namesVariable_numbered (word : String) (n : Nat) : NamesVariable (numbered word n) := by
  obtain ⟨c, hc, hdigit⟩ := exists_digit_numbered word n
  exact namesVariable_of_digit hc hdigit

theorem isIdentifier_numbered {word : String} (h : IsIdentifier word.toList) (n : Nat) :
    IsIdentifier (numbered word n) := by
  refine ⟨?_, fun c hc => ?_⟩
  · obtain ⟨c, cs, hword⟩ : ∃ c cs, word.toList = c :: cs := by
      cases hword : word.toList with
      | nil =>
        have hstart := h.1
        rw [hword] at hstart
        cases hstart
      | cons c cs => exact ⟨c, cs, rfl⟩
    have hstart := h.1
    rw [hword] at hstart
    rw [numbered, hword]
    exact hstart
  · rcases List.mem_append.1 hc with hc | hc
    · exact h.2 c hc
    · rw [Text.isNameChar, Shelf.isDigit_of_mem_ofNat hc, Bool.or_true]

theorem isIdentifier_key (n : Nat) : IsIdentifier (numbered "key" n) := isIdentifier_numbered (by decide) n

theorem isIdentifier_value (n : Nat) : IsIdentifier (numbered "value" n) := isIdentifier_numbered (by decide) n

end

/-! ## Tokens -/

/-- How many lines a template ends. -/
def breaks : LoopTemplate → Nat
  | text s => lineBreaks s
  | output lead _ rest => lineBreaks lead + rest.breaks
  | loop lead _ body rest => lineBreaks lead + body.breaks + rest.breaks

/-- The tokens of what opens the loop at a depth. -/
def openingLexemes (depth line : Nat) (collection : Chars) : List Lexeme :=
  loopLexemes line (numbered "key" depth) (numbered "value" depth) collection "legacy_pairs".toList ++
    (assignLexemes line "value".toList (numbered "value" depth) ++
      assignLexemes line "key".toList (numbered "key" depth))

/-- The tokens of a translated template that starts on a line, inside of so many loops. -/
def lexemes (depth line : Nat) : LoopTemplate → List Lexeme
  | text s => dataTokens line s
  | output lead name rest =>
    dataTokens line lead ++ (outputLexemes (line + lineBreaks lead) name "safe".toList ++
      rest.lexemes depth (line + lineBreaks lead))
  | loop lead collection body rest =>
    dataTokens line lead ++ (openingLexemes (depth + 1) (line + lineBreaks lead) collection ++
      (body.lexemes (depth + 1) (line + lineBreaks lead) ++
        (endLexemes (line + lineBreaks lead + body.breaks) ++
          rest.lexemes depth (line + lineBreaks lead + body.breaks))))

section
variable {line : Nat} {s : Chars} {ls : List Lexeme} {name : Chars}

/-- A filtered name in an output tag, with text in front of it. -/
theorem scans_output {lead filter : Chars} (hlead : '\x7b' ∉ lead) (hname : IsIdentifier name)
    (hfilter : IsIdentifier filter) (h : Scans (line + lineBreaks lead) s ls) :
    Scans line (lead ++ (Dialect.output (name ++ '|' :: filter) ++ s))
      (dataTokens line lead ++ (outputLexemes (line + lineBreaks lead) name filter ++ ls)) := by
  have hshape : lead ++ (Dialect.output (name ++ '|' :: filter) ++ s) = lead ++ '\x7b' :: TagKind.output.mark ::
      ' ' :: (name ++ '|' :: (filter ++ ' ' :: (TagKind.output.closing ++ s))) := by
    simp [Dialect.output, TagKind.mark, TagKind.closing]
  have hbar (r : Chars) : readToken ('|' :: r) = (.mark .bar, r) := by cases r <;> rfl
  rw [hshape]
  refine Scans.tag .output hlead (fun h => by cases h) (.blank (.name hname.1 (List.all_eq_true.2 hname.2) rfl ?_))
  refine .mark (hbar _) rfl rfl (by decide) (by decide) ?_
  exact .name hfilter.1 (List.all_eq_true.2 hfilter.2) rfl (.blank (.stop h))

theorem scans_assign {target : Chars} (htarget : IsIdentifier target) (hname : IsIdentifier name)
    (h : Scans line s ls) :
    Scans line (Dialect.tag ("set ".toList ++ target ++ " = ".toList ++ name) ++ s)
      (assignLexemes line target name ++ ls) := by
  have hshape : Dialect.tag ("set ".toList ++ target ++ " = ".toList ++ name) ++ s =
      '\x7b' :: TagKind.statement.mark :: ' ' :: ("set".toList ++ ' ' :: (target ++ ' ' :: '=' :: ' ' ::
        (name ++ ' ' :: (TagKind.statement.closing ++ s)))) := by
    simp [Dialect.tag, TagKind.mark, TagKind.closing]
  rw [hshape]
  exact .set htarget.1 (List.all_eq_true.2 htarget.2) (.name hname.1 (List.all_eq_true.2 hname.2) rfl (.blank (.stop h)))

theorem scans_opening {lead : Chars} (hlead : '\x7b' ∉ lead) (hname : IsIdentifier name) (depth : Nat)
    (h : Scans (line + lineBreaks lead) s ls) :
    Scans line (lead ++ (opening depth name ++ s))
      (dataTokens line lead ++ (openingLexemes depth (line + lineBreaks lead) name ++ ls)) := by
  have hkey := isIdentifier_key depth
  have hvalue := isIdentifier_value depth
  have hsets := scans_assign (show IsIdentifier "value".toList by decide) hvalue
    (scans_assign (show IsIdentifier "key".toList by decide) hkey h)
  generalize hsecond : Dialect.tag ("set ".toList ++ "value".toList ++ " = ".toList ++ numbered "value" depth) ++
    (Dialect.tag ("set ".toList ++ "key".toList ++ " = ".toList ++ numbered "key" depth) ++ s) = sets at hsets
  have hshape : lead ++ (opening depth name ++ s) = lead ++ '\x7b' :: TagKind.statement.mark :: ' ' ::
      ("for".toList ++ ' ' :: (numbered "key" depth ++ ',' :: ' ' :: (numbered "value" depth ++ ' ' ::
        ("in".toList ++ ' ' :: (name ++ '|' :: ("legacy_pairs".toList ++ ' ' ::
          (TagKind.statement.closing ++ sets))))))) := by
    rw [← hsecond]
    simp [opening, Dialect.tag, TagKind.mark, TagKind.closing]
  rw [hshape, openingLexemes, List.append_assoc, List.append_assoc]
  refine Scans.tag .statement hlead (fun _ => rfl) (.forPair hkey.1 (List.all_eq_true.2 hkey.2) hvalue.1
    (List.all_eq_true.2 hvalue.2) ?_)
  refine .name hname.1 (List.all_eq_true.2 hname.2) rfl (.mark (by rfl) rfl rfl (by decide) (by decide) ?_)
  exact .name rfl (by decide) rfl (.blank (.stop hsets))

theorem scans_end {lead : Chars} (hlead : '\x7b' ∉ lead) (h : Scans (line + lineBreaks lead) s ls) :
    Scans line (lead ++ (Dialect.tag "endfor".toList ++ s))
      (dataTokens line lead ++ (endLexemes (line + lineBreaks lead) ++ ls)) := by
  have hshape : lead ++ (Dialect.tag "endfor".toList ++ s) = lead ++ '\x7b' :: TagKind.statement.mark :: ' ' ::
      ("endfor".toList ++ ' ' :: (TagKind.statement.closing ++ s)) := by
    simp [Dialect.tag, TagKind.mark, TagKind.closing]
  rw [hshape]
  exact Scans.tag .statement hlead (fun _ => rfl) (.blank (.name rfl (by decide) rfl (.blank (.stop h))))

/-- The tokens of a translated template, with those of what stands behind it. -/
theorem scans_target {x : LoopTemplate} (hx : x.WellFormed) (more : Chars) (after : Nat → List Lexeme)
    (h : ∀ line lead, '\x7b' ∉ lead →
      Scans line (lead ++ more) (dataTokens line lead ++ after (line + lineBreaks lead))) (depth line : Nat) :
    Scans line (x.target depth ++ more) (x.lexemes depth line ++ after (line + x.breaks)) := by
  induction x generalizing more after depth line with
  | text s => exact h line s hx.1
  | output lead name rest ih =>
    have hrest := ih hx.2.2 more after h depth (line + lineBreaks lead)
    have hsafe : IsIdentifier "safe".toList := by decide
    have hfilter : "|safe".toList = '|' :: "safe".toList := rfl
    have hscan := scans_output hx.1.1 hx.2.1.1 hsafe hrest
    rw [← hfilter] at hscan
    simpa only [target, lexemes, breaks, List.append_assoc, Nat.add_assoc] using hscan
  | loop lead collection body rest ihb ihr =>
    have hbody := ihb hx.2.2.1 (Dialect.tag "endfor".toList ++ (rest.target depth ++ more))
      (fun line => endLexemes line ++ (rest.lexemes depth line ++ after (line + rest.breaks)))
      (fun line lead hlead => scans_end hlead (ihr hx.2.2.2 more after h depth _)) (depth + 1) (line + lineBreaks lead)
    have hscan := scans_opening hx.1.1 hx.2.1.1 (depth + 1) hbody
    simpa only [target, lexemes, breaks, List.append_assoc, Nat.add_assoc] using hscan

theorem withoutLastBreak_target (x : LoopTemplate) (depth : Nat) :
    Template.withoutLastBreak (x.target depth) = x.withoutLastBreak.target depth := by
  have hlast {s : Chars} (hs : s.getLast? = some '\x7d') (r : Chars) :
      Template.withoutLastBreak (s ++ r) = s ++ Template.withoutLastBreak r := by
    refine withoutLastBreak_append (fun c hc => ?_) r
    rw [hs] at hc
    cases hc
    decide
  induction x generalizing depth with
  | text s => rfl
  | output lead name rest ih =>
    have hbrace : (lead ++ Dialect.output (name ++ "|safe".toList)).getLast? = some '\x7d' := by
      rw [List.getLast?_append, Dialect.getLast?_output]
      rfl
    rw [target, ← List.append_assoc, hlast hbrace, ih, List.append_assoc]
    rfl
  | loop lead collection body rest ihb ihr =>
    have hbrace : (lead ++ opening (depth + 1) collection ++ body.target (depth + 1) ++
        Dialect.tag "endfor".toList).getLast? = some '\x7d' := Dialect.getLast?_append_tag ..
    rw [target, ← List.append_assoc, ← List.append_assoc, ← List.append_assoc, hlast hbrace, ihr]
    simp only [List.append_assoc]
    rfl

theorem wellFormed_withoutLastBreak {x : LoopTemplate} (hx : x.WellFormed) : x.withoutLastBreak.WellFormed := by
  induction x with
  | text s =>
    have hstart := prefix_withoutLastBreak s
    exact ⟨fun h => hx.1 (hstart.mem h), fun h => hx.2 (hstart.mem h)⟩
  | output lead name rest ih => exact ⟨hx.1, hx.2.1, ih hx.2.2⟩
  | loop lead collection body rest _ ihr => exact ⟨hx.1, hx.2.1, hx.2.2.1, ihr hx.2.2.2⟩

theorem nesting_withoutLastBreak (x : LoopTemplate) : x.withoutLastBreak.nesting = x.nesting := by
  induction x with
  | text s => rfl
  | output lead name rest ih => exact ih
  | loop lead collection body rest _ ihr => rw [withoutLastBreak, nesting, nesting, ihr]

/-- The tokens of a whole template. -/
theorem tokens_target {x : LoopTemplate} (hx : x.WellFormed) :
    tokens (x.target 0) = x.withoutLastBreak.lexemes 0 1 := by
  have hend (line : Nat) (lead : Chars) (hlead : '\x7b' ∉ lead) :
      Scans line (lead ++ []) (dataTokens line lead ++ []) := by
    rw [List.append_nil, List.append_nil]
    exact Scans.text hlead line
  have hscan := scans_target (wellFormed_withoutLastBreak hx) [] (fun _ => []) hend 0 1
  rw [List.append_nil, List.append_nil, ← withoutLastBreak_target] at hscan
  exact hscan _ (by omega)

end

/-! ## Statements -/

/-- The loop at a depth, around the statements of its body. -/
def loopStmt (depth line : Nat) (collection : Chars) (body : List Stmt) : Stmt :=
  .loop (.several line [.name (numbered "key" depth), .name (numbered "value" depth)])
    (.filter (.var line collection) "legacy_pairs".toList [] []) none
    (.assign (.name "value".toList) (.var line (numbered "value" depth)) ::
      .assign (.name "key".toList) (.var line (numbered "key" depth)) :: body) []

/-- The statements of a template that starts on a line, inside of so many loops. -/
def stmts (depth line : Nat) : LoopTemplate → List Stmt
  | text s => dataStmts s
  | output lead name rest =>
    dataStmts lead ++ (.output (.filter (.var (line + lineBreaks lead) name) "safe".toList [] []) ::
      rest.stmts depth (line + lineBreaks lead))
  | loop lead collection body rest =>
    dataStmts lead ++ (loopStmt (depth + 1) (line + lineBreaks lead) collection
      (body.stmts (depth + 1) (line + lineBreaks lead)) ::
        rest.stmts depth (line + lineBreaks lead + body.breaks))

section
variable {need levels : Nat} {inLoop : Bool} {ends : List String} {ts rest : List Lexeme}
  {result : Except RenderErrorKind (List Stmt × List Lexeme)} {collection : Chars}

theorem bindable_key : Bindable "key".toList := ⟨by decide, by decide⟩

theorem bindable_value : Bindable "value".toList := ⟨by decide, by decide⟩

/-- The names that a loop gives in its body. -/
theorem yields_names (h : Yields need levels true loopEnds ts result) (hlevels : 3 ≤ levels) (hneed : 15 ≤ need)
    (depth line : Nat) :
    Yields (need + 2) levels true loopEnds
      (assignLexemes line "value".toList (numbered "value" depth) ++
        assignLexemes line "key".toList (numbered "key" depth) ++ ts)
      (withFirst [.assign (.name "value".toList) (.var line (numbered "value" depth)),
        .assign (.name "key".toList) (.var line (numbered "key" depth))] result) := by
  have hkey := h.assign hlevels hneed (by decide) bindable_key (namesVariable_numbered "key" depth) line
  have hvalue := hkey.assign hlevels (by omega) (by decide) bindable_value
    (namesVariable_numbered "value" depth) line
  rw [← withFirst_append] at hvalue
  rw [List.append_assoc]
  exact hvalue

/-- A loop whose body ends. -/
theorem yields_opening {body : List Stmt} {line' : Nat} (hlevels : 2 ≤ levels) (hneed : 15 ≤ need)
    (hname : NamesVariable collection) (hends : "for" ∉ ends)
    (hbody : Yields need (levels + 1) true loopEnds ts
      (.ok (body, ⟨.name "endfor".toList, line'⟩ :: ⟨.stop .statement, line'⟩ :: rest)))
    (h : Yields need (levels + 2) inLoop ends rest result) (depth line : Nat) :
    Yields (need + 5) (levels + 2) inLoop ends (openingLexemes depth line collection ++ ts)
      (withFirst [loopStmt depth line collection body] result) := by
  have hnames := yields_names hbody (by omega) hneed depth line
  have hloop := hnames.loop (h.mono (Nat.le_add_right need 2)) (by omega) hends (bindable_numbered "key" depth)
    (bindable_numbered "value" depth) hname "legacy_pairs".toList line
  rw [openingLexemes, List.append_assoc]
  exact hloop

/-- A loop whose body is refused. -/
theorem yields_opening_refused (hlevels : 2 ≤ levels) (hneed : 15 ≤ need) (hname : NamesVariable collection)
    (hends : "for" ∉ ends) (hbody : Yields need (levels + 1) true loopEnds ts (.error .syntaxError))
    (inLoop : Bool) (depth line : Nat) :
    Yields (need + 5) (levels + 2) inLoop ends (openingLexemes depth line collection ++ ts)
      (.error .syntaxError) := by
  have hnames := yields_names hbody (by omega) hneed depth line
  rw [openingLexemes, List.append_assoc]
  exact hnames.loop_refused (by omega) hends (bindable_numbered "key" depth) (bindable_numbered "value" depth) hname
    "legacy_pairs".toList line

/-- A loop whose body has no level left for what the names are given in. -/
theorem yields_opening_three (hname : NamesVariable collection) (hends : "for" ∉ ends) (inLoop : Bool)
    (depth line : Nat) (ts : List Lexeme) :
    Yields 15 3 inLoop ends (openingLexemes depth line collection ++ ts) (.error .syntaxError) := by
  have hbody : Yields 4 2 true loopEnds (assignLexemes line "value".toList (numbered "value" depth) ++
      (assignLexemes line "key".toList (numbered "key" depth) ++ ts)) (.error .syntaxError) :=
    Yields.assign_refused (by decide) bindable_value (namesVariable_numbered "value" depth) line _
  rw [openingLexemes, List.append_assoc, List.append_assoc]
  exact (hbody.mono (show 4 ≤ 12 by omega)).loop_refused (by omega) hends
    (bindable_numbered "key" depth) (bindable_numbered "value" depth) hname "legacy_pairs".toList line

end

theorem length_loop_lexemes (depth line : Nat) (lead collection : Chars) (body rest : LoopTemplate) :
    ((loop lead collection body rest).lexemes depth line).length =
      (dataTokens line lead).length + 25 + (body.lexemes (depth + 1) (line + lineBreaks lead)).length +
        (rest.lexemes depth (line + lineBreaks lead + body.breaks)).length := by
  have hopening (line : Nat) : (openingLexemes (depth + 1) line collection).length = 22 := rfl
  have hend (line : Nat) : (endLexemes line).length = 3 := rfl
  simp only [lexemes, List.length_append, hopening, hend]
  omega

/-- Loops that are not nested too deep are read as the statements they stand for. -/
theorem yields_lexemes {x : LoopTemplate} (hx : x.WellFormed) {need levels : Nat} {inLoop : Bool}
    {ends : List String} {ts : List Lexeme} {result : Except RenderErrorKind (List Stmt × List Lexeme)}
    (hlevels : x.nesting + 3 ≤ levels) (hneed : 16 ≤ need) (hends : "for" ∉ ends)
    (h : Yields need levels inLoop ends ts result) (depth line : Nat) :
    Yields (need + (x.lexemes depth line).length) levels inLoop ends (x.lexemes depth line ++ ts)
      (withFirst (x.stmts depth line) result) := by
  induction x generalizing need levels inLoop ends ts result depth line with
  | text s => exact h.data s line
  | output lead name rest ih =>
    rw [nesting] at hlevels
    have hrest := ih hx.2.2 hlevels hneed hends h depth (line + lineBreaks lead)
    have hname := namesVariable_of_ne hx.2.1.2
    have houtput := (hrest.output (by omega) (by omega) hname "safe".toList (line + lineBreaks lead)).data lead line
    have hlength : (outputLexemes (line + lineBreaks lead) name "safe".toList).length = 5 := rfl
    rw [stmts, withFirst_append, withFirst_cons, lexemes, List.append_assoc, List.append_assoc]
    refine houtput.mono ?_
    simp only [List.length_append, hlength]
    omega
  | loop lead collection body rest ihb ihr =>
    rw [nesting] at hlevels
    obtain ⟨levels, rfl⟩ : ∃ m, levels = m + 2 := ⟨levels - 2, by omega⟩
    have hname := namesVariable_of_ne hx.2.1.2
    have hrest := ihr hx.2.2.2 (by omega) hneed hends h depth (line + lineBreaks lead + body.breaks)
    have hended := (Yields.ended (levels + 1) (line + lineBreaks lead + body.breaks) true
      (rest.lexemes depth (line + lineBreaks lead + body.breaks) ++ ts)).mono (show 1 ≤ need by omega)
    have hbody := ihb hx.2.2.1 (by omega) hneed (by decide) hended (depth + 1) (line + lineBreaks lead)
    rw [withFirst, Except.map, List.append_nil] at hbody
    have hloop := (yields_opening (by omega) (by omega) hname hends
      (hbody.mono (Nat.le_add_right _ (rest.lexemes depth (line + lineBreaks lead + body.breaks)).length))
      (hrest.mono (by omega)) (depth + 1) (line + lineBreaks lead)).data lead line
    rw [stmts, withFirst_append, withFirst_cons, length_loop_lexemes, lexemes]
    simp only [List.append_assoc]
    exact hloop.mono (by omega)

/-- Loops that are nested too deep are refused, whatever stands behind them. -/
theorem yields_lexemes_refused {x : LoopTemplate} (hx : x.WellFormed) (levels : Nat) (inLoop : Bool)
    (ends : List String) (hthree : 3 ≤ levels) (hlevels : levels < x.nesting + 3) (hends : "for" ∉ ends)
    (depth line : Nat) (ts : List Lexeme) :
    Yields (16 + (x.lexemes depth line).length) levels inLoop ends (x.lexemes depth line ++ ts)
      (.error .syntaxError) := by
  induction x generalizing levels inLoop ends depth line ts with
  | text s =>
    rw [nesting] at hlevels
    omega
  | output lead name rest ih =>
    rw [nesting] at hlevels
    have hrest := ih hx.2.2 levels inLoop ends hthree hlevels hends depth (line + lineBreaks lead) ts
    have houtput := (hrest.output (by omega) (by omega) (namesVariable_of_ne hx.2.1.2) "safe".toList
      (line + lineBreaks lead)).data lead line
    have hlength : (outputLexemes (line + lineBreaks lead) name "safe".toList).length = 5 := rfl
    rw [lexemes, List.append_assoc, List.append_assoc]
    refine houtput.mono ?_
    simp only [List.length_append, hlength]
    omega
  | loop lead collection body rest ihb ihr =>
    rw [nesting] at hlevels
    have hname := namesVariable_of_ne hx.2.1.2
    rw [length_loop_lexemes, lexemes]
    simp only [List.append_assoc]
    by_cases hlevel : levels = 3
    · subst hlevel
      exact ((yields_opening_three hname hends inLoop _ _ _).data lead line).mono (by omega)
    obtain ⟨levels, rfl⟩ : ∃ m, levels = m + 2 := ⟨levels - 2, by omega⟩
    by_cases hdeep : body.nesting + 3 ≤ levels + 1
    · have hended := (Yields.ended (levels + 1) (line + lineBreaks lead + body.breaks) true
        (rest.lexemes depth (line + lineBreaks lead + body.breaks) ++ ts)).mono (show 1 ≤ 16 by omega)
      have hbody := yields_lexemes hx.2.2.1 hdeep (by omega) (by decide) hended (depth + 1) (line + lineBreaks lead)
      rw [withFirst, Except.map, List.append_nil] at hbody
      have hrest := ihr hx.2.2.2 (levels + 2) inLoop ends hthree (by omega) hends depth
        (line + lineBreaks lead + body.breaks) ts
      have hloop := (yields_opening (by omega) (by omega) hname hends
        (hbody.mono (Nat.le_add_right _ (rest.lexemes depth (line + lineBreaks lead + body.breaks)).length))
        (hrest.mono (by omega)) (depth + 1) (line + lineBreaks lead)).data lead line
      exact hloop.mono (by omega)
    · have hbody := ihb hx.2.2.1 (levels + 1) true loopEnds (by omega) (by omega)
        (by decide) (depth + 1) (line + lineBreaks lead) (endLexemes (line + lineBreaks lead + body.breaks) ++
          (rest.lexemes depth (line + lineBreaks lead + body.breaks) ++ ts))
      have hloop := (yields_opening_refused (by omega) (by omega) hname hends hbody inLoop (depth + 1)
        (line + lineBreaks lead)).data lead line
      exact hloop.mono (by omega)

/-- The engine reads nested loops if they are not nested too deep. -/
theorem read_target {x : LoopTemplate} (hx : x.WellFormed) :
    read (x.target 0) = if x.nesting + 3 ≤ nestingLimit then .ok (x.withoutLastBreak.stmts 0 1)
      else .error .syntaxError := by
  have hwell := wellFormed_withoutLastBreak hx
  have hneed : 16 + (tokens (x.target 0)).length ≤ 16 * (tokens (x.target 0)).length + 32 := by omega
  split
  · rename_i hdeep
    rw [← nesting_withoutLastBreak] at hdeep
    have hend := (Yields.nil nestingLimit false []).mono (show 1 ≤ 16 by omega)
    have hbody := yields_lexemes hwell hdeep (by omega) (by decide) hend 0 1
    rw [List.append_nil, ← tokens_target hx] at hbody
    rw [read_of_yields hbody hneed, withFirst, Except.map, Except.map, List.append_nil]
  · rename_i hdeep
    rw [← nesting_withoutLastBreak] at hdeep
    have hbody := yields_lexemes_refused hwell nestingLimit false [] (by decide) (by omega) (by decide) 0 1 []
    rw [List.append_nil, ← tokens_target hx] at hbody
    rw [read_of_yields hbody hneed]
    rfl

end ViewBridge.LoopTemplate

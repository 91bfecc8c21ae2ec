import ViewBridge.Proofs.Counting.Header
import ViewBridge.Proofs.Phrase.Scanning
/-!
# The tokens of arithmetic

Inside of brackets no sign starts the end of a tag, so an expression there is one token for each of its marks,
names and numbers, whatever blanks stand between them.

Results:
* `readToken_number`: digits are one token.
* `spellsInside_target`: the tokens of an expression.
-/
namespace ViewBridge

open Template
open Expression (isQuote_of_nameChar isNameChar_of_isDigit forall_mem_of_all)
open Translator (IsIdentifier)

/-! ## Numbers -/

section
variable {c d : Char} {s r : Chars}

theorem ne_of_isDigit (h : Text.isDigit c = true) (hd : Text.isDigit d = false) : c ≠ d := by
  rintro rfl
  rw [hd] at h
  cases h

/-- Digits go on with a number. -/
theorem next?_of_isDigit (h : Text.isDigit c = true) : NumberPart.whole.next? 10 c = some .whole := by
  have hne {d : Char} (hd : Text.isDigit d = false) : c ≠ d := ne_of_isDigit h hd
  simp [NumberPart.next?, h, hne (d := '_') rfl, hne (d := '.') rfl, hne (d := 'e') rfl, hne (d := 'E') rfl,
    hne (d := '+') rfl, hne (d := '-') rfl]

/-- What stands behind a number and is neither part of a name nor a dot ends it. -/
theorem next?_eq_none (hname : Text.isNameChar c = false) (hdot : c ≠ '.') : NumberPart.whole.next? 10 c = none := by
  have hne {d : Char} (hd : Text.isNameChar d = true) : c ≠ d := by
    rintro rfl
    rw [hd] at hname
    cases hname
  have hdigit : Text.isDigit c = false := by
    rw [Text.isNameChar, Bool.or_eq_false_iff] at hname
    exact hname.2
  simp [NumberPart.next?, hdigit, hdot, hne (d := '_') rfl, hne (d := 'e') rfl, hne (d := 'E') rfl]

theorem readNumberFrom_digits (hs : ∀ c ∈ s, Text.isDigit c = true) (hname : Text.isNameChar d = false)
    (hdot : d ≠ '.') : readNumberFrom 10 .whole (s ++ d :: r) = (s, .whole, d :: r) := by
  induction s with
  | nil => simp only [List.nil_append, readNumberFrom, next?_eq_none hname hdot]
  | cons c s ih =>
    rw [List.forall_mem_cons] at hs
    simp only [List.cons_append, readNumberFrom, next?_of_isDigit hs.1, ih hs.2]

/-- Digits write a number. -/
theorem Text.exists_readNat? (hs : ∀ c ∈ s, Text.isDigit c = true) (hne : s ≠ []) :
    ∃ n, Text.readNat? 10 s = some n := by
  have hvalue {c : Char} (hc : Text.isDigit c = true) : ∃ n < 10, Text.hexValue? c = some n := by
    have hrange : '0' ≤ c ∧ c ≤ '9' := by simpa [Text.isDigit] using hc
    refine ⟨c.toNat - 48, ?_, by rw [Text.hexValue?, if_pos hrange]⟩
    have hle : c.toNat ≤ 57 := hrange.2
    omega
  have hfold (n : Nat) : ∃ m, s.foldl (fun acc c => do
      let n ← acc
      let d ← Text.hexValue? c
      if d < 10 then some (n * 10 + d) else none) (some n) = some m := by
    clear hne
    induction s generalizing n with
    | nil => exact ⟨n, rfl⟩
    | cons c s ih =>
      rw [List.forall_mem_cons] at hs
      obtain ⟨k, hk, hc⟩ := hvalue hs.1
      obtain ⟨m, hm⟩ := ih hs.2 (n * 10 + k)
      refine ⟨m, ?_⟩
      simp only [List.foldl_cons, Option.bind_eq_bind, Option.bind_some, hc, hk, if_true]
      exact hm
  obtain ⟨m, hm⟩ := hfold 0
  exact ⟨m, by rw [Text.readNat?, if_neg hne, hm]⟩

theorem baseOf_of_ne (c : Char) (h : d ∉ ['b', 'B', 'o', 'O', 'x', 'X']) : baseOf c d = 10 := by
  simp only [List.mem_cons, List.not_mem_nil, or_false, not_or] at h
  simp [baseOf, h]

/-- No mark starts with a digit. -/
theorem readToken_digit (h : Text.isDigit c = true) (s : Chars) : readToken (c :: s) = readNumber (c :: s) := by
  have hne {d : Char} (hd : Text.isDigit d = false) : c ≠ d := ne_of_isDigit h hd
  have hpair : ∀ b ∈ s.head?, Mark.ofPair? c b = none := fun b _ => by
    simp [Mark.ofPair?, hne (d := '/') rfl, hne (d := '*') rfl, hne (d := '=') rfl, hne (d := '!') rfl,
      hne (d := '>') rfl, hne (d := '<') rfl]
  have hmark : Mark.ofChar? c = none := by
    simp only [Mark.ofChar?, hne (d := '+') rfl, hne (d := '-') rfl, hne (d := '*') rfl, hne (d := '/') rfl,
      hne (d := '%') rfl, hne (d := '.') rfl, hne (d := ',') rfl, hne (d := ':') rfl, hne (d := '~') rfl,
      hne (d := '|') rfl, hne (d := '=') rfl, hne (d := '<') rfl, hne (d := '>') rfl, hne (d := '(') rfl,
      hne (d := ')') rfl, hne (d := '[') rfl, hne (d := ']') rfl, hne (d := '\x7b') rfl, hne (d := '\x7d') rfl, if_false]
  rw [readToken_of_no_pair hpair (isQuote_of_nameChar (isNameChar_of_isDigit h)).1, hmark]
  exact if_pos h

/-- Digits are one token, if the number is not too large. -/
theorem readToken_number (n : Decimal) (hn : n.value < Nat.pow 2 128) (hname : Text.isNameChar d = false)
    (hdot : d ≠ '.') (r : Chars) : readToken (n.1 ++ d :: r) = (.int n.value, d :: r) := by
  obtain ⟨s, hne, hs⟩ := n
  obtain ⟨n, hread⟩ := Text.exists_readNat? hs hne
  have hvalue : Decimal.value ⟨s, hne, hs⟩ = n := by rw [Decimal.value, hread]; rfl
  rw [hvalue] at hn ⊢
  obtain ⟨c, s, rfl⟩ := List.exists_cons_of_ne_nil hne
  have hunderscore : ∀ b ∈ c :: s, b ≠ '_' := fun b hb => ne_of_isDigit (hs b hb) rfl
  have hlast : (c :: s).getLast? ≠ some '_' := fun h => hunderscore _ (List.mem_of_getLast? h) rfl
  have hfilter : (c :: s).filter (· != '_') = c :: s :=
    List.filter_eq_self.2 fun b hb => bne_iff_ne.2 (hunderscore b hb)
  have hdigits := readNumberFrom_digits (r := r) hs hname hdot
  -- no letter of a base stands behind the first digit
  have hletters : ∀ b ∈ ['b', 'B', 'o', 'O', 'x', 'X'], Text.isNameChar b = true ∧ Text.isDigit b = false :=
    forall_mem_of_all (by decide)
  obtain ⟨b, u, hu, hb⟩ : ∃ b u, s ++ d :: r = b :: u ∧ baseOf c b = 10 := by
    cases s with
    | nil => exact ⟨d, r, rfl, baseOf_of_ne c fun h => by rw [(hletters d h).1] at hname; cases hname⟩
    | cons b s =>
      have hdigit := hs b (List.mem_cons_of_mem c List.mem_cons_self)
      exact ⟨b, _, rfl, baseOf_of_ne c fun h => by rw [(hletters b h).2] at hdigit; cases hdigit⟩
  rw [List.cons_append, hu] at hdigits ⊢
  rw [readToken_digit (hs c List.mem_cons_self)]
  simp only [readNumber, hb, if_true, hdigits, hlast, if_false, true_or, hfilter, hread, Option.bind_some, hn]

end

/-! ## Tokens -/

namespace Arithmetic

variable {t : Tier}

/-- All numbers in an expression. -/
def numbers : {t : Tier} → Arithmetic t → List Nat
  | _, number n => [n.value]
  | _, name _ | _, member _ => []
  | _, negative _ e | _, group _ e _ | _, ofSigned e | _, ofOperand e | _, ofProduct e => e.numbers
  | _, product a _ _ b | _, sum _ a _ _ b => a.numbers ++ b.numbers

end Arithmetic

def Sign.token : Sign → Mark
  | plus => .plus
  | minus => .minus

namespace Leaf

/-- The tokens of members. -/
def pathLexemes (line : Nat) (path : List (Link × { s : Chars // IsIdentifier s })) : List Lexeme :=
  path.flatMap fun m => [⟨.mark .dot, line⟩, ⟨.name m.2.1, line⟩]

/-- The tokens of a leaf. -/
def lexemes (line : Nat) (x : Leaf) : List Lexeme := ⟨.name x.head.1, line⟩ :: pathLexemes line x.path

/-- A name ends in front of members, or where there are none. -/
theorem not_name_path {u : Chars} (hne : u ≠ []) (hu : Behind u) (path : List (Link × { s : Chars // IsIdentifier s })) :
    (path.flatMap fun m => '.' :: m.2.1) ++ u ≠ [] ∧
      ∀ c ∈ ((path.flatMap fun m => '.' :: m.2.1) ++ u).head?, Text.isNameChar c = false := by
  cases path with
  | nil => exact ⟨hne, fun c hc => (hu c hc).1⟩
  | cons m path => exact ⟨List.cons_ne_nil _ _, by rintro _ ⟨⟩; rfl⟩

end Leaf

namespace Arithmetic

variable {t : Tier}

/-- The tokens of an expression that starts on a line. -/
def lexemes (line : Nat) : {t : Tier} → Arithmetic t → List Lexeme
  | _, number n => [⟨.int n.value, line⟩]
  | _, name x => Leaf.lexemes line ⟨x, []⟩
  | _, negative gap e => ⟨.mark .minus, line⟩ :: e.lexemes (line + lineBreaks gap.1)
  | _, group before e behind =>
    ⟨.mark .openParen, line⟩ :: (e.lexemes (line + lineBreaks before.1) ++
      [⟨.mark .closeParen, line + lineBreaks before.1 + lineBreaks e.target + lineBreaks behind.1⟩])
  | _, member x => x.lexemes line
  | _, product a before behind b =>
    a.lexemes line ++ (⟨.mark .times, line + lineBreaks a.target + lineBreaks before.1⟩ ::
      b.lexemes (line + lineBreaks a.target + lineBreaks before.1 + lineBreaks behind.1))
  | _, sum op a before behind b =>
    a.lexemes line ++ (⟨.mark op.token, line + lineBreaks a.target + lineBreaks before.1⟩ ::
      b.lexemes (line + lineBreaks a.target + lineBreaks before.1 + lineBreaks behind.1))
  | _, ofSigned e => e.lexemes line
  | _, ofOperand e => e.lexemes line
  | _, ofProduct e => e.lexemes line

end Arithmetic

/-- Inside of brackets, from a line on, a text is certain tokens in front of whatever can stand behind an operand,
and the lines that it ends are counted. -/
def SpellsInside (line : Nat) (s : Chars) (ls : List Lexeme) : Prop :=
  ∀ kind fuel (depth : Int), 0 < depth → ∀ u ≠ [], Behind u →
    scanTag (fuel + 1 + ls.length) kind depth line (s ++ u) =
      ls ++ scanTag (fuel + 1) kind depth (line + lineBreaks s) u

section
variable {kind : TagKind} {line : Nat} {depth : Int} {c : Char} {s u : Chars}

theorem lineBreaks_append (s u : Chars) : lineBreaks (s ++ u) = lineBreaks s + lineBreaks u := List.count_append

theorem lineBreaks_cons (h : c ≠ '\n') (s : Chars) : lineBreaks (c :: s) = lineBreaks s := List.count_cons_of_ne h

/-- A mark inside of brackets. -/
theorem scanTag_inside {m : Mark} {depth' : Int} (hdepth : 0 < depth) (hnesting : depth + m.nesting = depth')
    (hread : readToken (c :: s) = (.mark m, s)) (hblank : isTagBlank c = false) (fuel : Nat) :
    scanTag (fuel + 1) kind depth line (c :: s) = ⟨.mark m, line⟩ :: scanTag fuel kind depth' line s := by
  rw [← hnesting]
  refine scanTag_token (w := []) fuel depth hblank (fun h => absurd h (by omega)) hread rfl ?_
  rw [List.mem_singleton]
  rintro rfl
  cases hblank

/-- A name in front of something that it cannot go on with. -/
theorem scanTag_name_append {name : Chars} (h : IsIdentifier name) (hne : u ≠ [])
    (hu : ∀ c ∈ u.head?, Text.isNameChar c = false) (fuel : Nat) :
    scanTag (fuel + 1) kind depth line (name ++ u) = ⟨.name name, line⟩ :: scanTag fuel kind depth line u := by
  obtain ⟨d, r, rfl⟩ := List.exists_cons_of_ne_nil hne
  exact scanTag_name fuel depth h.1 (List.all_eq_true.2 h.2) (hu d rfl)

theorem spellsInside_number (n : Decimal) (hn : n.value < Nat.pow 2 128) (line : Nat) :
    SpellsInside line n.1 [⟨.int n.value, line⟩] := by
  intro kind fuel depth hdepth u hne hu
  obtain ⟨d, r, rfl⟩ := List.exists_cons_of_ne_nil hne
  have hbehind := hu d rfl
  have hread := readToken_number n hn hbehind.1 hbehind.2.2 r
  have hbreak : '\n' ∉ n.1 := fun h => absurd (n.2.2 _ h) (by decide)
  have hbreaks : lineBreaks n.1 = 0 := List.count_eq_zero.2 hbreak
  obtain ⟨c, w, hw⟩ := List.exists_cons_of_ne_nil n.2.1
  have hblank : isTagBlank c = false := by
    have hc := n.2.2 c (hw ▸ List.mem_cons_self)
    simp [isTagBlank, ne_of_isDigit hc (d := ' ') rfl, ne_of_isDigit hc (d := '\t') rfl,
      ne_of_isDigit hc (d := '\n') rfl, ne_of_isDigit hc (d := '\r') rfl, ne_of_isDigit hc (d := '\x0c') rfl]
  rw [hbreaks]
  rw [hw] at hread hbreak ⊢
  have hnesting : depth + (Token.int n.value).nesting = depth := Int.add_zero depth
  have hscan : scanTag (fuel + 1 + 1) kind depth line (c :: w ++ d :: r) = _ :=
    scanTag_token (fuel + 1) depth hblank (fun h => absurd h (by omega)) hread rfl hbreak
  rw [hnesting] at hscan
  exact hscan

/-- The members behind the head of a leaf. -/
theorem scanTag_path (hdepth : 0 < depth) (hne : u ≠ []) (hu : Behind u)
    (path : List (Link × { s : Chars // IsIdentifier s })) (fuel : Nat) :
    scanTag (fuel + 1 + (Leaf.pathLexemes line path).length) kind depth line ((path.flatMap fun m => '.' :: m.2.1) ++ u) =
      Leaf.pathLexemes line path ++ scanTag (fuel + 1) kind depth line u := by
  have hdot (r : Chars) : readToken ('.' :: r) = (.mark .dot, r) := by cases r <;> rfl
  induction path with
  | nil => rfl
  | cons m path ih =>
    obtain ⟨hnil, hname⟩ := Leaf.not_name_path hne hu path
    have hlength : fuel + 1 + (Leaf.pathLexemes line (m :: path)).length =
      fuel + 1 + (Leaf.pathLexemes line path).length + 1 + 1 := rfl
    have hdepth' : depth + Mark.dot.nesting = depth := Int.add_zero depth
    rw [hlength, List.flatMap_cons, List.cons_append, List.cons_append, List.append_assoc,
      scanTag_inside hdepth hdepth' (hdot _) rfl, scanTag_name_append m.2.2 hnil hname, ih]
    rfl

theorem spellsInside_leaf (x : Leaf) (line : Nat) : SpellsInside line x.target (x.lexemes line) := by
  intro kind fuel depth hdepth u hne hu
  have hbreaks : lineBreaks x.target = 0 :=
    List.count_eq_zero.2 fun h => by rcases Leaf.mem_target h with h | h <;> cases h
  obtain ⟨hnil, hname⟩ := Leaf.not_name_path hne hu x.path
  rw [hbreaks, Leaf.target, List.append_assoc, Leaf.lexemes, List.length_cons, ← Nat.add_assoc,
    scanTag_name_append x.head.2.1.1 hnil hname, scanTag_path hdepth hne hu]
  rfl

/-- The tokens of two texts with an operator between them. -/
theorem SpellsInside.operator {t t' : Chars} {ls : List Lexeme} {ls' : Nat → List Lexeme} {m : Mark}
    (hread : ∀ s, (∀ c ∈ s.head?, c ≠ '*') → readToken (c :: s) = (.mark m, s)) (hblank : isTagBlank c = false)
    (hnesting : m.nesting = 0) (hc : Text.isNameChar c = false ∧ c ≠ '>' ∧ c ≠ '.') (before behind : Gap)
    (h : SpellsInside line t ls) (h' : ∀ line, SpellsInside line t' (ls' line)) (hne' : t' ≠ [])
    (hstar : ∀ c ∈ t'.head?, c ≠ '*') : SpellsInside line (t ++ (before.1 ++ c :: behind.1 ++ t'))
      (ls ++ (⟨.mark m, line + lineBreaks t + lineBreaks before.1⟩ ::
        ls' (line + lineBreaks t + lineBreaks before.1 + lineBreaks behind.1))) := by
  intro kind fuel depth hdepth u hne hu
  have hstar : ∀ c ∈ (behind.1 ++ (t' ++ u)).head?, c ≠ '*' := by
    obtain ⟨_ | ⟨g, gap⟩, hgap⟩ := behind
    · rw [List.nil_append, List.head?_append_of_ne_nil _ hne']
      exact hstar
    · rintro _ ⟨⟩ rfl
      cases hgap _ List.mem_cons_self
  have hbreaks : lineBreaks (t ++ (before.1 ++ c :: behind.1 ++ t')) = lineBreaks t +
      (lineBreaks before.1 + (lineBreaks behind.1 + lineBreaks t')) := by
    have hne : c ≠ '\n' := by rintro rfl; cases hblank
    simp only [List.append_assoc, List.cons_append, lineBreaks_append, lineBreaks_cons hne]
  have hshape : t ++ (before.1 ++ c :: behind.1 ++ t') ++ u = t ++ (before.1 ++ c :: (behind.1 ++ (t' ++ u))) := by
    simp only [List.append_assoc, List.cons_append]
  have hdepth' : depth + m.nesting = depth := by rw [hnesting, Int.add_zero]
  have hfuel (n k : Nat) : fuel + 1 + (n + (k + 1)) = fuel + k + 1 + 1 + n := by omega
  have hfuel' (k : Nat) : fuel + k + 1 = fuel + 1 + k := by omega
  rw [hshape, hbreaks, List.length_append, List.length_cons, hfuel,
    h kind _ depth hdepth _ (by simp) (behind_gap before hc _), scanTag_blanks before.2,
    scanTag_inside hdepth hdepth' (hread _ hstar) hblank, scanTag_blanks behind.2, hfuel',
    h' _ kind _ depth hdepth u hne hu]
  simp only [List.append_assoc, List.cons_append, Nat.add_assoc]

end

namespace Arithmetic

variable {t : Tier}

/-- No expression starts with the mark of a product. -/
theorem ne_of_head_target (e : Arithmetic t) : ∀ c ∈ e.target.head?, c ≠ '*' := by
  have hleaf (x : Leaf) : ∀ c ∈ x.target.head?, c ≠ '*' := by
    rintro c hc rfl
    rcases Leaf.mem_target (List.mem_of_mem_head? hc) with h | h <;> cases h
  induction e with
  | number n => exact fun c hc => ne_of_isDigit (n.2.2 c (List.mem_of_mem_head? hc)) rfl
  | name x => exact hleaf ⟨x, []⟩
  | member x => exact hleaf x
  | negative gap e =>
    rintro _ ⟨⟩
    decide
  | group before e behind =>
    rintro _ ⟨⟩
    decide
  | product a before behind b iha | sum op a before behind b iha =>
    rw [target, written, List.head?_append_of_ne_nil _ a.trimmed_target.ne_nil]
    exact iha
  | ofSigned e ih | ofOperand e ih | ofProduct e ih => exact ih

theorem readToken_mark {op : Sign} (s : Chars) : readToken (op.mark :: s) = (.mark op.token, s) := by
  cases op <;> cases s <;> rfl

theorem readToken_times {s : Chars} (h : ∀ c ∈ s.head?, c ≠ '*') : readToken ('*' :: s) = (.mark .times, s) := by
  rw [readToken_of_no_pair (fun b hb => by simp [Mark.ofPair?, h b hb]) rfl]
  rfl

/-- The tokens of an expression. -/
theorem spellsInside_target (e : Arithmetic t) (hnumbers : ∀ n ∈ e.numbers, n < Nat.pow 2 128) (line : Nat) :
    SpellsInside line e.target (e.lexemes line) := by
  induction e generalizing line with
  | number n => exact spellsInside_number n (hnumbers _ List.mem_cons_self) line
  | name x => exact spellsInside_leaf ⟨x, []⟩ line
  | negative gap e ih =>
    intro kind fuel depth hdepth u hne hu
    have hread (s : Chars) : readToken ('-' :: s) = (.mark .minus, s) := by cases s <;> rfl
    have hbreaks : lineBreaks ('-' :: gap.1 ++ e.target) = lineBreaks gap.1 + lineBreaks e.target := by
      rw [List.cons_append, lineBreaks_cons (by decide), lineBreaks_append]
    have hdepth' : depth + Mark.minus.nesting = depth := Int.add_zero depth
    have hfuel (n : Nat) : fuel + 1 + (n + 1) = fuel + n + 1 + 1 := by omega
    have hfuel' (n : Nat) : fuel + n + 1 = fuel + 1 + n := by omega
    rw [target, written, ← target, hbreaks, lexemes, List.length_cons, hfuel, List.append_assoc, List.cons_append,
      scanTag_inside hdepth hdepth' (hread _) rfl, scanTag_blanks gap.2, hfuel',
      ih hnumbers _ kind _ depth hdepth u hne hu, Nat.add_assoc line]
    rfl
  | group before e behind ih =>
    intro kind fuel depth hdepth u hne hu
    have hopen (s : Chars) : readToken ('(' :: s) = (.mark .openParen, s) := by cases s <;> rfl
    have hclose (s : Chars) : readToken (')' :: s) = (.mark .closeParen, s) := by cases s <;> rfl
    have hshape : '(' :: before.1 ++ (e.target ++ (behind.1 ++ [')'])) ++ u =
        '(' :: (before.1 ++ (e.target ++ (behind.1 ++ ')' :: u))) := by
      simp only [List.append_assoc, List.cons_append, List.nil_append]
    have hbreaks : lineBreaks ('(' :: before.1 ++ (e.target ++ (behind.1 ++ [')']))) =
        lineBreaks before.1 + (lineBreaks e.target + lineBreaks behind.1) := by
      have hlast : lineBreaks [')'] = 0 := rfl
      simp only [List.cons_append, lineBreaks_cons (c := '(') (by decide), lineBreaks_append, hlast, Nat.add_zero]
    have hfuel (n : Nat) : fuel + 1 + (n + 1 + 1) = fuel + 1 + n + 1 + 1 := by omega
    have hfuel' (n : Nat) : fuel + 1 + n + 1 = fuel + 1 + 1 + n := by omega
    have hdeeper : depth + Mark.openParen.nesting = depth + 1 := rfl
    have hback : depth + 1 + Mark.closeParen.nesting = depth := by
      show depth + 1 + -1 = depth
      omega
    rw [target, written, ← target, hbreaks, hshape, lexemes, List.length_cons, List.length_append,
      List.length_singleton, hfuel, scanTag_inside hdepth hdeeper (hopen _) rfl, scanTag_blanks before.2,
      hfuel', ih hnumbers _ kind _ _ (by omega) _ (by simp) (behind_gap behind (by decide) u), scanTag_blanks behind.2,
      scanTag_inside (by omega) hback (hclose _) rfl]
    simp only [List.append_assoc, List.cons_append, List.nil_append, Nat.add_assoc]
  | member x => exact spellsInside_leaf x line
  | product a before behind b iha ihb =>
    rw [numbers, List.forall_mem_append] at hnumbers
    exact .operator (fun s => readToken_times) rfl rfl (by decide) before behind (iha hnumbers.1 line)
      (ihb hnumbers.2) b.trimmed_target.ne_nil b.ne_of_head_target
  | sum op a before behind b iha ihb =>
    rw [numbers, List.forall_mem_append] at hnumbers
    have hblank : isTagBlank op.mark = false := by cases op <;> rfl
    have hnesting : op.token.nesting = 0 := by cases op <;> rfl
    exact .operator (fun s _ => readToken_mark s) hblank hnesting op.behind_mark before behind
      (iha hnumbers.1 line) (ihb hnumbers.2) b.trimmed_target.ne_nil b.ne_of_head_target
  | ofSigned e ih | ofOperand e ih | ofProduct e ih => exact ih hnumbers line

end Arithmetic
end ViewBridge

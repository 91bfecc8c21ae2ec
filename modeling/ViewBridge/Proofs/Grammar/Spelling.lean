import ViewBridge.Proofs.Call.Translation
import ViewBridge.Proofs.Grammar.Basic
import ViewBridge.Proofs.Template.Tokens
/-!
# Tokens between the rules

Every rule of expressions spells some tokens anew and leaves the others alone, so between two rules a token
is spelled the old way or the new way. What a rule needs to know of the text around a token is how the next
token starts.

Results:
* `Token.lead_written`: the first characters of a token.
* `lead_text`, `head_text_of_ends`, `head_text_of_not_ends`: the first characters behind a token.
* `not_logicWord_text`: no text of tokens starts with a logical word.
-/
namespace ViewBridge.Expression

open Translator (IsIdentifier ne_of_isNameChar)

/-! ## Characters -/

theorem isNameChar_of_isDigit {c : Char} (h : Text.isDigit c = true) : Text.isNameChar c = true := by
  simp [Text.isNameChar, h]

theorem isNameStart_of_isDigit {c : Char} (h : Text.isDigit c = true) : Text.isNameStart c = false := by
  cases hc : Text.isNameStart c with
  | false => rfl
  | true => rw [Template.isDigit_of_isNameStart hc] at h; cases h

theorem isNameChar_of_isBlank {c : Char} (h : Text.isBlank c = true) : Text.isNameChar c = false := by
  cases hc : Text.isNameChar c with
  | false => rfl
  | true => rw [isBlank_of_isNameChar hc] at h; cases h

theorem isNameChar_of_isQuote {c : Char} (h : isQuote c = true) : Text.isNameChar c = false := by
  cases hc : Text.isNameChar c with
  | false => rfl
  | true => rw [(isQuote_of_nameChar hc).1] at h; cases h

/-- What is a letter of a connective in lower case is a letter. -/
theorem isNameStart_of_toLower {k : Connective} {c : Char} (h : c.toLower ∈ k.word) :
    Text.isNameStart c = true := by
  have hletter : Text.isLetter c = true := by
    by_contra hletter
    have hself : c.toLower = c := dif_neg fun hupper => hletter <| by
      simp only [Text.isLetter, Bool.or_eq_true, Bool.and_eq_true, decide_eq_true_eq]
      exact .inr hupper
    rw [hself] at h
    have hall : ∀ c ∈ k.word, Text.isLetter c = true := forall_mem_of_all (by cases k <;> decide)
    exact hletter (hall _ h)
  simp [Text.isNameStart, hletter]

theorem isNameStart_of_mem_spelling {k : Connective} {s : Chars} (h : Text.asciiLower s = k.word) {c : Char}
    (hc : c ∈ s) : Text.isNameStart c = true := by
  have hmem : c.toLower ∈ Text.asciiLower s := List.mem_map_of_mem hc
  exact isNameStart_of_toLower (h ▸ hmem)

/-! ## Tokens in both spellings -/

/-- The rule for the symbol of a connective. -/
def Connective.turn : Connective → Nat
  | .and => 6
  | .or => 7

namespace Token

/-- The rule that spells a token anew, if there is one. -/
def turn : Token → Nat
  | key _ => 1
  | var _ | entry _ => 2
  | member _ => 3
  | join => 4
  | negation => 5
  | symbol k _ _ => k.turn
  | word _ _ => 8
  | _ => 0

/-- A token behind the first `n` rules. -/
def written (n : Nat) (t : Token) : Chars := if t.turn ≤ n then t.target else t.source

theorem written_zero (t : Token) : t.written 0 = t.source := by
  cases t with
  | symbol k _ _ => cases k <;> rfl
  | _ => rfl

theorem written_eight (t : Token) : t.written 8 = t.target := by
  cases t with
  | symbol k _ _ => cases k <;> rfl
  | _ => rfl

theorem written_of_turn {n : Nat} {t : Token} (h : t.turn = n + 1) :
    t.written n = t.source ∧ t.written (n + 1) = t.target :=
  ⟨if_neg (by omega), if_pos (by omega)⟩

theorem written_succ {n : Nat} {t : Token} (h : t.turn ≠ n + 1) : t.written (n + 1) = t.written n := by
  simp only [written]
  congr 1
  exact propext (by omega)

/-- How a token starts: not like the second half of a symbol, and as an operand or behind one. -/
structure Lead (k : Kind) (c : Char) : Prop where
  ne_greater : c ≠ '>'
  ne_equal : c ≠ '='
  of_operand : k.starts = true ∨ k = .closing → Text.isBlank c = false ∧ c ≠ '&' ∧ c ≠ '|'
  of_other : k.starts = false → Text.isNameChar c = false

theorem lead_of_isNameChar {k : Kind} {c : Char} (hk : k.starts = true) (hc : Text.isNameChar c = true) :
    Lead k c where
  ne_greater := ne_of_isNameChar hc rfl
  ne_equal := ne_of_isNameChar hc rfl
  of_operand _ := ⟨isBlank_of_isNameChar hc, ne_of_isNameChar hc rfl, ne_of_isNameChar hc rfl⟩
  of_other hk' := by rw [hk] at hk'; cases hk'

theorem lead_of_isQuote {k : Kind} {c : Char} (hc : isQuote c = true) : Lead k c where
  ne_greater := ne_of_isQuote hc rfl
  ne_equal := ne_of_isQuote hc rfl
  of_operand _ := ⟨isBlank_of_isQuote hc, ne_of_isQuote hc rfl, ne_of_isQuote hc rfl⟩
  of_other _ := isNameChar_of_isQuote hc

theorem lead_of_isBlank {c : Char} (hc : Text.isBlank c = true) : Lead .binary c where
  ne_greater := by rintro rfl; revert hc; decide
  ne_equal := by rintro rfl; revert hc; decide
  of_operand h := by rcases h with h | h <;> cases h
  of_other _ := isNameChar_of_isBlank hc

instance (k : Kind) (c : Char) : Decidable (Lead k c) :=
  decidable_of_iff (c ≠ '>' ∧ c ≠ '=' ∧
    (k.starts = true ∨ k = .closing → Text.isBlank c = false ∧ c ≠ '&' ∧ c ≠ '|') ∧
    (k.starts = false → Text.isNameChar c = false))
    ⟨fun ⟨h₁, h₂, h₃, h₄⟩ => ⟨h₁, h₂, h₃, h₄⟩, fun ⟨h₁, h₂, h₃, h₄⟩ => ⟨h₁, h₂, h₃, h₄⟩⟩

/-- The first characters of a token: a point in front stands before a digit or a name. -/
def Leads (t : Token) (s : Chars) : Prop :=
  ∃ c rest, s = c :: rest ∧ Lead t.kind c ∧ (c = '.' → ∃ d ∈ rest.head?, Text.isNameChar d = true)

theorem leads_of_name {t : Token} (ht : t.kind.starts = true) {name : Chars} (h : IsIdentifier name)
    (rest : Chars) : t.Leads (name ++ rest) := by
  obtain ⟨c, s, rfl⟩ := List.exists_cons_of_ne_nil h.ne_nil
  have hc := h.2 c List.mem_cons_self
  exact ⟨c, s ++ rest, rfl, lead_of_isNameChar ht hc, fun h => absurd h (ne_of_isNameChar hc rfl)⟩

theorem leads_of_mark {t : Token} {k : Kind} {c : Char} (hlead : Lead k c) (ht : t.kind = k) (hc : c ≠ '.')
    (rest : Chars) : t.Leads (c :: rest) := ⟨c, rest, rfl, ht ▸ hlead, fun h => absurd h hc⟩

theorem leads_source (t : Token) : t.Leads t.source := by
  cases t with
  | number n =>
    obtain ⟨_, ⟨d, rest, hd, rfl | rfl⟩, -⟩ := n
    · have hname := isNameChar_of_isDigit hd
      exact leads_of_mark (lead_of_isNameChar (k := .constant) rfl hname) rfl (ne_of_isNameChar hname rfl) rest
    · exact ⟨'.', d :: rest, rfl, show Lead .constant '.' by decide, fun _ => ⟨d, rfl, isNameChar_of_isDigit hd⟩⟩
  | literal q body => exact leads_of_mark (lead_of_isQuote (k := .constant) q.2) rfl (ne_of_isQuote q.2 rfl) _
  | call f => exact leads_of_name rfl f.2.1 _
  | operator op => cases op <;> exact leads_of_mark (by decide : Lead .binary ' ') rfl (by decide) _
  | symbol k before behind =>
    obtain ⟨_ | ⟨c, before⟩, hbefore⟩ := before
    · cases k
      · exact leads_of_mark (by decide : Lead .binary '&') rfl (by decide) _
      · exact leads_of_mark (by decide : Lead .binary '|') rfl (by decide) _
    · have hc := hbefore c List.mem_cons_self
      exact leads_of_mark (lead_of_isBlank hc) rfl (by rintro rfl; revert hc; decide) _
  | var _ => exact leads_of_mark (by decide : Lead .var '$') rfl (by decide) _
  | member _ => exact leads_of_mark (by decide : Lead .access '-') rfl (by decide) _
  | key _ | entry _ | index _ => exact leads_of_mark (by decide : Lead .access '[') rfl (by decide) _
  | comma _ => exact leads_of_mark (by decide : Lead .separator ',') rfl (by decide) _
  | opening => exact leads_of_mark (by decide : Lead .leading '(') rfl (by decide) _
  | closing => exact leads_of_mark (by decide : Lead .closing ')') rfl (by decide) _
  | negation => exact leads_of_mark (by decide : Lead .leading '!') rfl (by decide) _
  | join | word _ _ => exact leads_of_mark (by decide : Lead .binary ' ') rfl (by decide) _

theorem leads_target (t : Token) : t.Leads t.target := by
  cases t with
  | var x =>
    have hleads := leads_of_name (t := .var x) rfl x.2.1 []
    rwa [List.append_nil] at hleads
  | member x =>
    obtain ⟨name, hname, -⟩ := x
    obtain ⟨c, s, rfl⟩ := List.exists_cons_of_ne_nil hname.ne_nil
    exact ⟨'.', c :: s, rfl, show Lead .access '.' by decide, fun _ => ⟨c, rfl, hname.2 c List.mem_cons_self⟩⟩
  | key _ | entry _ => exact leads_of_mark (by decide : Lead .access '[') rfl (by decide) _
  | negation => exact leads_of_mark (by decide : Lead .leading 'n') rfl (by decide) _
  | join | symbol _ _ _ | word _ _ => exact leads_of_mark (by decide : Lead .binary ' ') rfl (by decide) _
  | _ => exact leads_source _

theorem leads_written (n : Nat) (t : Token) : t.Leads (t.written n) := by
  rw [written]
  split
  · exact leads_target t
  · exact leads_source t

end Token

/-! ## Texts of tokens -/

/-- Tokens behind the first `n` rules. -/
def text (n : Nat) (ts : List Token) : Chars := ts.flatMap (Token.written n)

section
variable {n : Nat} {a : Token} {ts : List Token}

@[simp] theorem text_nil (n : Nat) : text n [] = [] := rfl

@[simp] theorem text_cons (n : Nat) (t : Token) (ts : List Token) :
    text n (t :: ts) = t.written n ++ text n ts := rfl

/-- Nothing starts like the second half of a symbol. -/
theorem head_text (n : Nat) (ts : List Token) : ∀ c ∈ (text n ts).head?, c ≠ '>' ∧ c ≠ '=' := by
  cases ts with
  | nil => exact fun c hc => absurd hc (by simp)
  | cons t ts =>
    obtain ⟨c, rest, ht, hlead, -⟩ := t.leads_written n
    rw [text_cons, ht]
    rintro _ ⟨⟩
    exact ⟨hlead.ne_greater, hlead.ne_equal⟩

/-- A point is the start of a number or of a member. -/
theorem text_ne_point (n : Nat) (ts : List Token) {d : Char} (hd : Text.isNameChar d = false) (s : Chars) :
    text n ts ≠ '.' :: d :: s := by
  intro h
  cases ts with
  | nil => cases h
  | cons t ts =>
    obtain ⟨c, rest, ht, -, hpoint⟩ := t.leads_written n
    rw [text_cons, ht, List.cons_append, List.cons.injEq] at h
    obtain ⟨e, he, hname⟩ := hpoint h.1
    obtain ⟨rest, rfl⟩ := List.head?_eq_some_iff.1 he
    rw [List.cons_append, List.cons.injEq] at h
    rw [h.2.1, hd] at hname
    cases hname

/-- Behind a token that awaits an operand. -/
theorem head_text_of_not_ends (h : Ordered (a :: ts)) (ha : a.kind.ends = false) :
    ∀ c ∈ (text n ts).head?, Text.isBlank c = false ∧ c ≠ '&' ∧ c ≠ '|' := by
  cases ts with
  | nil => exact fun c hc => absurd hc (by simp)
  | cons t ts =>
    obtain ⟨c, rest, ht, hlead, -⟩ := t.leads_written n
    rw [text_cons, ht]
    rintro _ ⟨⟩
    refine hlead.of_operand ?_
    have hadmits := (List.isChain_cons_cons.1 h).1
    cases ha' : a.kind <;> cases hk : t.kind <;> simp_all [Kind.admits, Kind.starts, Kind.ends]

/-- Behind a token that an operand may end with. -/
theorem head_text_of_ends (h : Ordered (a :: ts)) (ha : a.kind.ends = true) :
    ∀ c ∈ (text n ts).head?, Text.isNameChar c = false := by
  cases ts with
  | nil => exact fun c hc => absurd hc (by simp)
  | cons t ts =>
    obtain ⟨c, rest, ht, hlead, -⟩ := t.leads_written n
    rw [text_cons, ht]
    rintro _ ⟨⟩
    refine hlead.of_other ?_
    have hadmits := (List.isChain_cons_cons.1 h).1
    cases ha' : a.kind <;> cases hk : t.kind <;> simp_all [Kind.admits, Kind.starts, Kind.ends]

/-- A name in front of something else is read back from the text. -/
theorem eq_of_name_append {x y s t : Chars} (hx : ∀ c ∈ x, Text.isNameChar c = true)
    (hy : ∀ c ∈ y, Text.isNameChar c = true) (hs : ∀ c ∈ s.head?, Text.isNameChar c = false)
    (ht : ∀ c ∈ t.head?, Text.isNameChar c = false) (h : x ++ s = y ++ t) : x = y := by
  have htake {x s : Chars} (hx : ∀ c ∈ x, Text.isNameChar c = true)
      (hs : ∀ c ∈ s.head?, Text.isNameChar c = false) : (x ++ s).takeWhile Text.isNameChar = x := by
    cases s with
    | nil => rw [List.append_nil, Text.takeWhile_eq_self hx]
    | cons c s => rw [Text.takeWhile_append_cons (hs c rfl), Text.takeWhile_eq_self hx]
  rw [← htake hx hs, h, htake hy ht]

/-- No text of tokens starts with a logical word. -/
theorem not_logicWord_text (h : Ordered ts) {k : Connective} {used : Chars} (hused : Text.asciiLower used = k.word)
    (rest : Chars) : text n ts ≠ used ++ ' ' :: rest := by
  intro htext
  have hletters : ∀ c ∈ used, Text.isNameStart c = true := fun c => isNameStart_of_mem_spelling hused
  have hnames : ∀ c ∈ used, Text.isNameChar c = true :=
    fun c hc => Text.isNameChar_of_isNameStart (hletters c hc)
  have hname {x s : Chars} (hx : ∀ c ∈ x, Text.isNameChar c = true)
      (hs : ∀ c ∈ s.head?, Text.isNameChar c = false) (h : x ++ s = used ++ ' ' :: rest) :
      Text.asciiLower x = k.word := by
    rw [eq_of_name_append hx hnames hs (by rintro _ ⟨⟩; rfl) h, hused]
  obtain ⟨c, used, rfl⟩ : ∃ c used', used = c :: used' :=
    List.exists_cons_of_ne_nil (by rintro rfl; cases k <;> cases hused)
  have hc := hletters c List.mem_cons_self
  have hhead {d : Char} (hd : Text.isNameStart d = false) (s : Chars) : d :: s ≠ c :: used ++ ' ' :: rest := by
    intro h
    rw [← (List.cons.inj h).1, hd] at hc
    cases hc
  cases ts with
  | nil => cases htext
  | cons t ts =>
    rw [text_cons] at htext
    obtain ⟨d, rest', hd, hlead, -⟩ := t.leads_written n
    cases t with
    | var x =>
      rw [Token.written] at htext
      split at htext
      · have hx := hname x.2.1.2 (head_text_of_ends h rfl) htext
        exact x.2.2 (by rw [hx]; cases k <;> decide)
      · exact hhead rfl _ htext
    | call f =>
      have hf : (Token.call f).written n = f.1 ++ ['('] := by rw [Token.written]; split <;> rfl
      rw [hf, List.append_assoc] at htext
      exact f.2.2 (by rw [hname f.2.1.2 (by rintro _ ⟨⟩; rfl) htext]; cases k <;> decide)
    | negation =>
      rw [Token.written] at htext
      split at htext
      · have hnot := hname (x := "not".toList) (s := ' ' :: text n ts) (forall_mem_of_all (by decide))
          (by rintro _ ⟨⟩; rfl) htext
        cases k <;> cases hnot
      · exact hhead rfl _ htext
    | number m =>
      obtain ⟨m, ⟨e, s, he, hm⟩, hchars⟩ := m
      rcases hm with rfl | rfl
      · exact hhead (isNameStart_of_isDigit he) _ htext
      · exact hhead rfl _ htext
    | literal q body => exact hhead (isNameStart_of_isQuote q.2) _ htext
    | opening => exact hhead rfl _ htext
    | _ =>
      -- no operand starts with the other tokens, so they do not start with a letter
      rw [hd] at htext
      refine hhead ?_ _ htext
      cases he : Text.isNameStart d with
      | false => rfl
      | true =>
        have hother := hlead.of_other rfl
        rw [Text.isNameChar_of_isNameStart he] at hother
        cases hother

end

end ViewBridge.Expression

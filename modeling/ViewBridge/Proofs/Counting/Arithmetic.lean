import ViewBridge.Proofs.Grammar.Translation
/-!
# Arithmetic in legacy expressions

Sums, differences and products of numbers and variables, with blanks or without them around the operators. The
types of the expressions are their tiers, so that an expression on the right of an operator binds tighter than
the operator and its text has no second reading.

Results:
* `substitute_written`: a rule that works on variables works on all of an expression.
* `translate_written`: an expression is translated variable by variable.
-/
namespace ViewBridge

open Translator (IsIdentifier)
open Expression

/-! ## Expressions -/

/-- Blanks that the target dialects skip. -/
abbrev Gap := { s : Chars // ∀ c ∈ s, Template.isTagBlank c = true }

/-- Digits that are a number. -/
abbrev Decimal := { s : Chars // s ≠ [] ∧ ∀ c ∈ s, Text.isDigit c = true }

/-- The name of a variable that is no logical word in any letter case. -/
abbrev Variable := { s : Chars // LoopTemplate.IsVariable s ∧ Text.asciiLower s ∉ ["and".toList, "or".toList] }

/-- What a member is written behind. -/
inductive Link where
  | arrow | dot
deriving DecidableEq, Repr

def Link.text : Link → Chars
  | arrow => ['-', '>']
  | dot => ['.']

/-- A variable, or a member of one. -/
structure Leaf where
  head : Variable
  path : List (Link × { s : Chars // IsIdentifier s })

namespace Leaf

/-- A leaf in the target dialects. -/
def target (x : Leaf) : Chars := x.head.1 ++ x.path.flatMap fun m => '.' :: m.2.1

/-- A leaf without its sigil. -/
def bare (x : Leaf) : Chars := x.head.1 ++ x.path.flatMap fun m => m.1.text ++ m.2.1

/-- A leaf in a legacy expression. -/
def source (x : Leaf) : Chars := '$' :: x.bare

end Leaf

/-- How tight an expression binds, the tightest first. Attributes bind looser than signs. -/
inductive Tier where
  | signed | operand | product | sum
deriving DecidableEq, Repr

/-- The operators of sums. -/
inductive Sign where
  | plus | minus
deriving DecidableEq, Repr

def Sign.mark : Sign → Char
  | plus => '+'
  | minus => '-'

/-- An arithmetic expression. -/
inductive Arithmetic : Tier → Type where
  | number (n : Decimal) : Arithmetic .signed
  | name (x : Variable) : Arithmetic .signed
  | negative (gap : Gap) (e : Arithmetic .signed) : Arithmetic .signed
  | group (before : Gap) (e : Arithmetic .sum) (behind : Gap) : Arithmetic .signed
  | member (x : Leaf) : Arithmetic .operand
  | product (a : Arithmetic .product) (before behind : Gap) (b : Arithmetic .operand) : Arithmetic .product
  | sum (op : Sign) (a : Arithmetic .sum) (before behind : Gap) (b : Arithmetic .product) : Arithmetic .sum
  | ofSigned (e : Arithmetic .signed) : Arithmetic .operand
  | ofOperand (e : Arithmetic .operand) : Arithmetic .product
  | ofProduct (e : Arithmetic .product) : Arithmetic .sum

/-- The number that digits write. -/
def Decimal.value (n : Decimal) : Nat := (Text.readNat? 10 n.1).getD 0

namespace Arithmetic

variable {t : Tier}

/-- The text of an expression, its leaves written in some way. -/
def written (σ : Leaf → Chars) : {t : Tier} → Arithmetic t → Chars
  | _, number n => n.1
  | _, name x => σ ⟨x, []⟩
  | _, negative gap e => '-' :: gap.1 ++ e.written σ
  | _, group before e behind => '(' :: before.1 ++ (e.written σ ++ (behind.1 ++ [')']))
  | _, member x => σ x
  | _, product a before behind b => a.written σ ++ (before.1 ++ '*' :: behind.1 ++ b.written σ)
  | _, sum op a before behind b => a.written σ ++ (before.1 ++ op.mark :: behind.1 ++ b.written σ)
  | _, ofSigned e => e.written σ
  | _, ofOperand e => e.written σ
  | _, ofProduct e => e.written σ

/-- An expression as legacy templates have it. -/
abbrev source : Arithmetic t → Chars := written Leaf.source

/-- An expression in the target dialects. -/
abbrev target : Arithmetic t → Chars := written Leaf.target

/-- The value of an expression. -/
def value (env : Leaf → Int) : {t : Tier} → Arithmetic t → Int
  | _, number n => n.value
  | _, name x => env ⟨x, []⟩
  | _, negative _ e => -e.value env
  | _, group _ e _ => e.value env
  | _, member x => env x
  | _, product a _ _ b => a.value env * b.value env
  | _, sum .plus a _ _ b => a.value env + b.value env
  | _, sum .minus a _ _ b => a.value env - b.value env
  | _, ofSigned e => e.value env
  | _, ofOperand e => e.value env
  | _, ofProduct e => e.value env

end Arithmetic

/-! ## What stands behind -/

/-- What can stand behind an operand. -/
def Behind (s : Chars) : Prop := ∀ c ∈ s.head?, Text.isNameChar c = false ∧ c ≠ '>' ∧ c ≠ '.'

/-- A text that no rule takes for the end of something in front of it. -/
structure Opens (s : Chars) : Prop where
  ne_mark : ∀ c ∈ s.head?, c ≠ '>' ∧ c ≠ '.'
  no_word : ∀ {k : Connective} {used rest}, Text.asciiLower used = k.word → s ≠ used ++ ' ' :: rest

section
variable {c : Char} {s : Chars}

theorem exists_head_of_spelling {k : Connective} {used : Chars} (h : Text.asciiLower used = k.word) :
    ∃ c rest, used = c :: rest ∧ Text.isNameStart c = true := by
  cases used with
  | nil => cases k <;> cases h
  | cons c rest => exact ⟨c, rest, rfl, isNameStart_of_mem_spelling h List.mem_cons_self⟩

theorem Opens.of_head (h : ∀ c ∈ s.head?, Text.isNameStart c = false ∧ c ≠ '>' ∧ c ≠ '.') : Opens s := by
  refine ⟨fun c hc => (h c hc).2, fun {k used rest} hused hs => ?_⟩
  obtain ⟨d, used, rfl, hd⟩ := exists_head_of_spelling hused
  rw [(h d (by rw [hs]; rfl)).1] at hd
  cases hd

theorem Behind.opens (h : Behind s) : Opens s := by
  refine .of_head fun c hc => ⟨?_, (h c hc).2⟩
  cases hstart : Text.isNameStart c with
  | false => rfl
  | true =>
    have hname := (h c hc).1
    rw [Text.isNameChar_of_isNameStart hstart] at hname
    cases hname

theorem isBlank_of_isTagBlank (h : Template.isTagBlank c = true) : Text.isBlank c = true := by
  simp only [Template.isTagBlank, Bool.or_eq_true, beq_iff_eq] at h
  rcases h with (((rfl | rfl) | rfl) | rfl) | rfl <;> rfl

/-- Behind a gap stands what can stand behind an operand, if a mark does. -/
theorem behind_gap (gap : Gap) (hc : Text.isNameChar c = false ∧ c ≠ '>' ∧ c ≠ '.') (s : Chars) :
    Behind (gap.1 ++ c :: s) := by
  obtain ⟨_ | ⟨b, gap⟩, hgap⟩ := gap
  · rintro _ ⟨⟩
    exact hc
  · rintro _ ⟨⟩
    have hb := hgap b List.mem_cons_self
    refine ⟨isNameChar_of_isBlank (isBlank_of_isTagBlank hb), ?_, ?_⟩ <;>
    · rintro rfl
      cases hb

end

/-! ## Rules -/

/-- The characters of an expression between its leaves. -/
def isBetween (c : Char) : Bool := Text.isDigit c || Template.isTagBlank c || "()+-*".toList.contains c

/-- A rule that spells leaves in another way, and leaves alone what stands between them. -/
structure Respells (rule : Rule) (σ τ : Leaf → Chars) : Prop where
  leaf : ∀ x s, Behind s → Text.substitute rule (σ x ++ s) = τ x ++ Text.substitute rule s
  between : ∀ u s, (∀ c ∈ u, isBetween c = true) → Opens s →
    Text.substitute rule (u ++ s) = u ++ Text.substitute rule s

section
variable {c : Char} {s : Chars}

theorem isBetween_of_isDigit (h : Text.isDigit c = true) : isBetween c = true := by simp [isBetween, h]

theorem isBetween_of_gap (gap : Gap) : ∀ c ∈ gap.1, isBetween c = true := fun c hc => by
  simp [isBetween, gap.2 c hc]

theorem Sign.isBetween_mark (op : Sign) : isBetween op.mark = true := by cases op <;> rfl

theorem Sign.behind_mark (op : Sign) : Text.isNameChar op.mark = false ∧ op.mark ≠ '>' ∧ op.mark ≠ '.' := by
  cases op <;> decide

/-- A mark between gaps, or with a gap on one side. -/
theorem isBetween_around {m : Char} (hm : isBetween m = true) (before behind : Gap) :
    ∀ c ∈ before.1 ++ m :: behind.1, isBetween c = true := by
  rw [List.forall_mem_append, List.forall_mem_cons]
  exact ⟨isBetween_of_gap before, hm, isBetween_of_gap behind⟩

theorem ne_of_isBetween (h : isBetween c = true) {d : Char} (hd : isBetween d = false) : c ≠ d := by
  rintro rfl
  rw [hd] at h
  cases h

theorem not_mem_of_isBetween {u : Chars} (h : ∀ c ∈ u, isBetween c = true) {d : Char} (hd : isBetween d = false) :
    d ∉ u := fun hmem => ne_of_isBetween (h d hmem) hd rfl

theorem isNameStart_of_isBetween (h : isBetween c = true) : Text.isNameStart c = false := by
  cases hstart : Text.isNameStart c with
  | false => rfl
  | true =>
    have hne {d : Char} (hd : Text.isNameStart d = false) : c ≠ d := Template.ne_of_isNameStart hstart hd
    simp [isBetween, Template.isDigit_of_isNameStart hstart, Template.isTagBlank_of_isNameStart hstart,
      hne (d := '(') rfl, hne (d := ')') rfl, hne (d := '+') rfl, hne (d := '-') rfl, hne (d := '*') rfl] at h

/-- What stands between leaves opens nothing that a rule looks for. -/
theorem opens_between {u : Chars} (hne : u ≠ []) (hu : ∀ c ∈ u, isBetween c = true) (s : Chars) : Opens (u ++ s) := by
  obtain ⟨c, u, rfl⟩ := List.exists_cons_of_ne_nil hne
  have hc := hu c List.mem_cons_self
  refine .of_head ?_
  rintro _ ⟨⟩
  exact ⟨isNameStart_of_isBetween hc, ne_of_isBetween hc rfl, ne_of_isBetween hc rfl⟩

end

namespace Arithmetic

variable {t : Tier} {σ τ : Leaf → Chars} {rule : Rule}

/-- Nothing that a rule looks for ends at the start of an expression. -/
theorem opens_written (hσ : ∀ x s, Behind s → Opens (σ x ++ s)) (e : Arithmetic t) {s : Chars} (hs : Behind s) :
    Opens (e.written σ ++ s) := by
  induction e generalizing s with
  | number n => exact opens_between n.2.1 (fun c hc => isBetween_of_isDigit (n.2.2 c hc)) s
  | name x => exact hσ ⟨x, []⟩ s hs
  | negative gap e => exact opens_between (u := ['-']) (by simp) (forall_mem_of_all (by decide)) _
  | group before e behind => exact opens_between (u := ['(']) (by simp) (forall_mem_of_all (by decide)) _
  | member x => exact hσ x s hs
  | product a before behind b iha =>
    rw [written, List.append_assoc, List.append_assoc, List.append_assoc, List.cons_append]
    exact iha (behind_gap before (by decide) _)
  | sum op a before behind b iha =>
    rw [written, List.append_assoc, List.append_assoc, List.append_assoc, List.cons_append]
    exact iha (behind_gap before op.behind_mark _)
  | ofSigned e ih => exact ih hs
  | ofOperand e ih => exact ih hs
  | ofProduct e ih => exact ih hs

/-- A rule that works on leaves works on all of an expression. -/
theorem substitute_written (h : Respells rule σ τ) (hσ : ∀ x s, Behind s → Opens (σ x ++ s)) (e : Arithmetic t)
    {s : Chars} (hs : Behind s) :
    Text.substitute rule (e.written σ ++ s) = e.written τ ++ Text.substitute rule s := by
  -- an operator with its gaps, between two operands
  have hjoin {t u : Tier} {a : Arithmetic t} {b : Arithmetic u} {m : Char} {s : Chars} (hs : Behind s)
      (before behind : Gap) (hm : isBetween m = true) (hbehind : Text.isNameChar m = false ∧ m ≠ '>' ∧ m ≠ '.')
      (iha : ∀ {s : Chars}, Behind s →
        Text.substitute rule (a.written σ ++ s) = a.written τ ++ Text.substitute rule s)
      (ihb : Text.substitute rule (b.written σ ++ s) = b.written τ ++ Text.substitute rule s) :
      Text.substitute rule (a.written σ ++ (before.1 ++ m :: behind.1 ++ b.written σ) ++ s) =
        a.written τ ++ (before.1 ++ m :: behind.1 ++ b.written τ) ++ Text.substitute rule s := by
    have hbetween := h.between _ (b.written σ ++ s) (isBetween_around hm before behind) (b.opens_written hσ hs)
    have hfirst := iha (behind_gap before hbehind (behind.1 ++ (b.written σ ++ s)))
    rw [List.append_assoc, List.append_assoc, List.append_assoc, List.cons_append, hfirst, ← List.cons_append,
      ← List.append_assoc before.1, hbetween, ihb]
    simp only [List.append_assoc]
  induction e generalizing s with
  | number n => exact h.between n.1 s (fun c hc => isBetween_of_isDigit (n.2.2 c hc)) hs.opens
  | name x => exact h.leaf ⟨x, []⟩ s hs
  | negative gap e ih =>
    have hsign := h.between ('-' :: gap.1) (e.written σ ++ s)
      (List.forall_mem_cons.2 ⟨rfl, isBetween_of_gap gap⟩) (e.opens_written hσ hs)
    rw [written, written, List.append_assoc, hsign, ih hs, List.append_assoc]
  | group before e behind ih =>
    have hopen := h.between ('(' :: before.1) (e.written σ ++ (behind.1 ++ ')' :: s))
      (List.forall_mem_cons.2 ⟨rfl, isBetween_of_gap before⟩)
      (e.opens_written hσ (behind_gap behind (by decide) s))
    have hclose := h.between (behind.1 ++ [')']) s
      (List.forall_mem_append.2 ⟨isBetween_of_gap behind, List.forall_mem_singleton.2 rfl⟩)
      hs.opens
    have hinner := ih (behind_gap behind (c := ')') (by decide) s)
    rw [List.append_assoc, List.singleton_append] at hclose
    have hshape : (group before e behind).written σ ++ s =
        '(' :: before.1 ++ (e.written σ ++ (behind.1 ++ ')' :: s)) := by simp [written]
    rw [hshape, hopen, hinner, hclose, written]
    simp only [List.append_assoc, List.cons_append]
  | member x => exact h.leaf x s hs
  | product a before behind b iha ihb => exact hjoin hs before behind rfl (by decide) iha (ihb hs)
  | sum op a before behind b iha ihb =>
    exact hjoin hs before behind op.isBetween_mark op.behind_mark iha (ihb hs)
  | ofSigned e ih => exact ih hs
  | ofOperand e ih => exact ih hs
  | ofProduct e ih => exact ih hs

end Arithmetic

/-! ## The rules on leaves -/

namespace Leaf

variable {x : Leaf} {s : Chars}

/-- The name in front of a member ends where the member starts. -/
theorem opens_head {p : Chars} (hp : ∀ c ∈ p.head?, Text.isNameChar c = false) : Opens (x.head.1 ++ p) := by
  obtain ⟨⟨name, hvar, hword⟩, path⟩ := x
  have hnames := hvar.1.2
  refine ⟨fun c hc => ?_, fun {k used rest} hused h => ?_⟩
  · rw [List.head?_append_of_ne_nil _ hvar.1.ne_nil] at hc
    have hc := hnames c (List.mem_of_mem_head? hc)
    exact ⟨Translator.ne_of_isNameChar hc rfl, Translator.ne_of_isNameChar hc rfl⟩
  · have hletters : ∀ c ∈ used, Text.isNameChar c = true :=
      fun c hc => Text.isNameChar_of_isNameStart (isNameStart_of_mem_spelling hused hc)
    obtain rfl := eq_of_name_append hnames hletters hp (by rintro _ ⟨⟩; rfl) h
    exact hword (by rw [hused]; cases k <;> decide)

theorem opens_source (x : Leaf) (s : Chars) : Opens (x.source ++ s) :=
  .of_head (by rintro _ ⟨⟩; decide)

theorem opens_bare (x : Leaf) (s : Chars) (hs : Behind s) : Opens (x.bare ++ s) := by
  rw [bare, List.append_assoc]
  refine opens_head ?_
  cases hpath : x.path with
  | nil => exact fun c hc => (hs c hc).1
  | cons m path =>
    obtain ⟨_ | _, y⟩ := m <;>
    · rintro _ ⟨⟩
      rfl

theorem opens_target (x : Leaf) (s : Chars) (hs : Behind s) : Opens (x.target ++ s) := by
  rw [target, List.append_assoc]
  refine opens_head ?_
  cases hpath : x.path with
  | nil => exact fun c hc => (hs c hc).1
  | cons m path =>
    rintro _ ⟨⟩
    rfl

/-- The characters of a leaf without its sigil. -/
theorem mem_bare {c : Char} (h : c ∈ x.bare) : Text.isNameChar c = true ∨ c ∈ ['-', '>', '.'] := by
  have hlink (l : Link) : ∀ c ∈ l.text, c ∈ ['-', '>', '.'] := forall_mem_of_all (by cases l <;> decide)
  rcases List.mem_append.1 h with h | h
  · exact .inl (x.head.2.1.1.2 c h)
  · obtain ⟨m, -, hm⟩ := List.mem_flatMap.1 h
    rcases List.mem_append.1 hm with hm | hm
    · exact .inr (hlink m.1 c hm)
    · exact .inl (m.2.2.2 c hm)

theorem mem_target {c : Char} (h : c ∈ x.target) : Text.isNameChar c = true ∨ c = '.' := by
  rcases List.mem_append.1 h with h | h
  · exact .inl (x.head.2.1.1.2 c h)
  · obtain ⟨m, -, hm⟩ := List.mem_flatMap.1 h
    exact (List.mem_cons.1 hm).symm.imp_left (m.2.2.2 c)

end Leaf

theorem respells_readSigil : Respells readSigil Leaf.source Leaf.bare where
  leaf x s _ := by
    have hpath : '$' ∉ x.path.flatMap fun m => m.1.text ++ m.2.1 := fun h => by
      rcases Leaf.mem_bare (List.mem_append_right x.head.1 h) with h | h
      · cases h
      · revert h; decide
    have hname := substitute_readSigil_name ⟨x.head.1, x.head.2.1.1, x.head.2.2⟩
      ((x.path.flatMap fun m => m.1.text ++ m.2.1) ++ s)
    rw [marked_readSigil.substitute_append hpath] at hname
    simpa only [Leaf.source, Leaf.bare, List.cons_append, List.append_assoc] using hname
  between u s hu _ := marked_readSigil.substitute_append (not_mem_of_isBetween hu rfl) s

theorem respells_arrow : Respells (Text.exchange "->".toList ".".toList) Leaf.bare Leaf.target where
  leaf x s hs := by
    have hrule : Marked '-' (Text.exchange "->".toList ".".toList) := marked_exchange rfl
    have hpath (path : List (Link × { s : Chars // IsIdentifier s })) :
        Text.substitute (Text.exchange "->".toList ".".toList) ((path.flatMap fun m => m.1.text ++ m.2.1) ++ s) =
          (path.flatMap fun m => '.' :: m.2.1) ++ Text.substitute (Text.exchange "->".toList ".".toList) s := by
      induction path with
      | nil => rfl
      | cons m path ih =>
        obtain ⟨link, y⟩ := m
        have hname := hrule.substitute_append (y.2.not_mem rfl)
          ((path.flatMap fun m => m.1.text ++ m.2.1) ++ s)
        rw [ih] at hname
        have hlink (r : Chars) : Text.substitute (Text.exchange "->".toList ".".toList) (link.text ++ r) =
            '.' :: Text.substitute (Text.exchange "->".toList ".".toList) r := by
          cases link with
          | arrow =>
            have harrow : Text.exchange "->".toList ".".toList (Link.arrow.text ++ r) = some (['.'], r) := rfl
            exact Text.substitute_of_some harrow (by simp only [Link.text, List.length_append, List.length_cons]; omega)
          | dot => exact hrule.substitute_append (u := ['.']) (by decide) r
        rw [List.flatMap_cons, List.append_assoc, List.append_assoc, hlink, hname, List.flatMap_cons]
        simp only [List.cons_append, List.append_assoc]
    rw [Leaf.bare, List.append_assoc, hrule.substitute_append (x.head.2.1.1.not_mem rfl), hpath, Leaf.target,
      List.append_assoc]
  between u s hu hs := substitute_exchange_append (not_mem_of_isBetween hu rfl) fun c hc => (hs.ne_mark c hc).1

theorem respells_join : Respells (Text.exchange " . ".toList " ~ ".toList) Leaf.target Leaf.target where
  leaf x s _ := by
    have hrule : Marked ' ' (Text.exchange " . ".toList " ~ ".toList) := marked_exchange rfl
    exact hrule.substitute_append (fun h => by rcases Leaf.mem_target h with h | h <;> cases h) s
  between u s hu hs := substitute_exchange_append (not_mem_of_isBetween hu rfl) fun c hc => (hs.ne_mark c hc).2

theorem respells_logicWord : Respells readLogicWord Leaf.target Leaf.target where
  leaf x s _ :=
    marked_readLogicWord.substitute_append (fun h => by rcases Leaf.mem_target h with h | h <;> cases h) s
  between u s hu hs :=
    substitute_readLogicWord_append (fun c hc => isNameStart_of_isBetween (hu c hc)) hs.no_word

/-! ## Translation -/

/-- A text that neither starts nor ends with a blank. -/
structure Trimmed (s : Chars) : Prop where
  ne_nil : s ≠ []
  head : ∀ c ∈ s.head?, Text.isBlank c = false
  last : ∀ c ∈ s.getLast?, Text.isBlank c = false

namespace Trimmed

variable {s u : Chars}

theorem of_no_blank (hne : s ≠ []) (h : ∀ c ∈ s, Text.isBlank c = false) : Trimmed s :=
  ⟨hne, fun c hc => h c (List.mem_of_mem_head? hc), fun c hc => h c (List.mem_of_getLast? hc)⟩

theorem around (hs : Trimmed s) (w : Chars) (hu : Trimmed u) : Trimmed (s ++ (w ++ u)) where
  ne_nil := fun h => hs.ne_nil (List.append_eq_nil_iff.1 h).1
  head := by rw [List.head?_append_of_ne_nil _ hs.ne_nil]; exact hs.head
  last := by
    rw [← List.append_assoc, List.getLast?_append_of_ne_nil _ hu.ne_nil]
    exact hu.last

end Trimmed

namespace Leaf

theorem trimmed_target (x : Leaf) : Trimmed x.target :=
  .of_no_blank (fun h => x.head.2.1.1.ne_nil (List.append_eq_nil_iff.1 h).1) fun c hc => by
    rcases mem_target hc with h | rfl
    · exact isBlank_of_isNameChar h
    · rfl

theorem trimmed_source (x : Leaf) : Trimmed x.source := by
  have hall : ∀ c ∈ ['-', '>', '.'], Text.isBlank c = false := forall_mem_of_all (by decide)
  refine .of_no_blank (List.cons_ne_nil _ _) (List.forall_mem_cons.2 ⟨rfl, fun c hc => ?_⟩)
  exact (mem_bare hc).elim isBlank_of_isNameChar (hall c)

theorem chars_source (x : Leaf) : ∀ c ∈ x.source, Text.isNameChar c = true ∨ c ∈ ['$', '-', '>', '.'] :=
  List.forall_mem_cons.2 ⟨.inr (by decide), fun c hc => (mem_bare hc).imp_right (List.mem_cons_of_mem _)⟩

theorem chars_target (x : Leaf) : ∀ c ∈ x.target, Text.isNameChar c = true ∨ c ∈ ['$', '-', '>', '.'] :=
  fun c hc => (mem_target hc).imp_right (by rintro rfl; decide)

end Leaf

namespace Arithmetic

variable {t : Tier}

/-- The characters of an expression. -/
theorem mem_written {σ : Leaf → Chars} {P : Char → Prop} (hσ : ∀ x, ∀ c ∈ σ x, P c)
    (hP : ∀ c, isBetween c = true → P c) (e : Arithmetic t) : ∀ c ∈ e.written σ, P c := by
  have hgap (gap : Gap) : ∀ c ∈ gap.1, P c := fun c hc => hP c (isBetween_of_gap gap c hc)
  induction e with
  | number n => exact fun c hc => hP c (isBetween_of_isDigit (n.2.2 c hc))
  | name x => exact hσ ⟨x, []⟩
  | negative gap e ih =>
    exact List.forall_mem_append.2 ⟨List.forall_mem_cons.2 ⟨hP _ rfl, hgap gap⟩, ih⟩
  | group before e behind ih =>
    exact List.forall_mem_append.2 ⟨List.forall_mem_cons.2 ⟨hP _ rfl, hgap before⟩,
      List.forall_mem_append.2 ⟨ih, List.forall_mem_append.2 ⟨hgap behind, List.forall_mem_singleton.2 (hP _ rfl)⟩⟩⟩
  | member x => exact hσ x
  | product a before behind b iha ihb =>
    exact List.forall_mem_append.2 ⟨iha, List.forall_mem_append.2
      ⟨fun c hc => hP c (isBetween_around rfl before behind c hc), ihb⟩⟩
  | sum op a before behind b iha ihb =>
    exact List.forall_mem_append.2 ⟨iha, List.forall_mem_append.2
      ⟨fun c hc => hP c (isBetween_around op.isBetween_mark before behind c hc), ihb⟩⟩
  | ofSigned e ih => exact ih
  | ofOperand e ih => exact ih
  | ofProduct e ih => exact ih

/-- What is no character of names, leaves or arithmetic does not stand in an expression. -/
theorem not_mem_written {σ : Leaf → Chars} {c : Char}
    (hσ : ∀ x, ∀ d ∈ σ x, Text.isNameChar d = true ∨ d ∈ ['$', '-', '>', '.'])
    (hc : Text.isNameChar c = false ∧ c ∉ ['$', '-', '>', '.'] ∧ isBetween c = false) (e : Arithmetic t) :
    c ∉ e.written σ := by
  have hall := e.mem_written (P := fun d => Text.isNameChar d = true ∨ d ∈ ['$', '-', '>', '.'] ∨ isBetween d = true)
    (fun x d hd => (hσ x d hd).imp_right .inl) fun d hd => .inr (.inr hd)
  intro hmem
  rcases hall c hmem with h | h | h
  · rw [hc.1] at h; cases h
  · exact hc.2.1 h
  · rw [hc.2.2] at h; cases h

/-- An expression neither starts nor ends with a blank. -/
theorem trimmed_written {σ : Leaf → Chars} (hσ : ∀ x, Trimmed (σ x)) (e : Arithmetic t) : Trimmed (e.written σ) := by
  have hmark {c : Char} (hc : Text.isBlank c = false) : Trimmed [c] :=
    .of_no_blank (List.cons_ne_nil c []) (List.forall_mem_singleton.2 hc)
  induction e with
  | number n => exact .of_no_blank n.2.1 fun c hc => isBlank_of_isNameChar (isNameChar_of_isDigit (n.2.2 c hc))
  | name x => exact hσ ⟨x, []⟩
  | negative gap e ih => exact (hmark (c := '-') rfl).around gap.1 ih
  | group before e behind ih =>
    have hall := (hmark (c := '(') rfl).around (before.1 ++ (e.written σ ++ behind.1)) (hmark (c := ')') rfl)
    simpa only [written, List.append_assoc, List.cons_append, List.nil_append] using hall
  | member x => exact hσ x
  | product a before behind b iha ihb => exact iha.around _ ihb
  | sum op a before behind b iha ihb => exact iha.around _ ihb
  | ofSigned e ih => exact ih
  | ofOperand e ih => exact ih
  | ofProduct e ih => exact ih

theorem trimmed_target (e : Arithmetic t) : Trimmed e.target := e.trimmed_written Leaf.trimmed_target

theorem trimmed_source (e : Arithmetic t) : Trimmed e.source := e.trimmed_written Leaf.trimmed_source

/-- An expression is translated variable by variable. -/
theorem translate_written (e : Arithmetic t) : translate e.source = e.target := by
  have hquote {σ : Leaf → Chars} (hσ : ∀ x, ∀ d ∈ σ x, Text.isNameChar d = true ∨ d ∈ ['$', '-', '>', '.']) :
      ∀ c ∈ e.written σ, isQuote c = false := by
    refine e.mem_written (fun x c hc => ?_) fun c hc => ?_
    · rcases hσ x c hc with h | h
      · exact (isQuote_of_nameChar h).1
      · have hall : ∀ d ∈ ['$', '-', '>', '.'], isQuote d = false := forall_mem_of_all (by decide)
        exact hall c h
    · cases hq : isQuote c with
      | false => rfl
      | true =>
        rw [isQuote, Bool.or_eq_true, beq_iff_eq, beq_iff_eq] at hq
        rcases hq with rfl | rfl <;> cases hc
  have hrule {rule : Rule} {σ τ : Leaf → Chars} (h : Respells rule σ τ)
      (hσ : ∀ x s, Behind s → Opens (σ x ++ s)) : Text.substitute rule (e.written σ) = e.written τ := by
    have hall := substitute_written h hσ e (s := []) (fun c hc => absurd hc (by simp))
    rwa [List.append_nil, Text.substitute_nil, List.append_nil] at hall
  have hkeys : quoteKeys e.source = e.source := by
    rw [quoteKeys, mapUnquoted_eq_self (hquote Leaf.chars_source),
      substitute_readBareKey_eq_self (e.not_mem_written Leaf.chars_source (by decide))]
  have hsigils : dropSigils e.source = e.written Leaf.bare := by
    rw [dropSigils_eq]
    exact hrule respells_readSigil fun x s _ => x.opens_source s
  have harrows : dotArrows (e.written Leaf.bare) = e.target := by
    rw [dotArrows, Text.replace_eq_substitute _ (by decide)]
    exact hrule respells_arrow Leaf.opens_bare
  have hquoteDot : Text.substitute readQuoteDot e.target = e.target := by
    refine Text.substitute_eq_self fun u hu => ?_
    unfold readQuoteDot
    split
    · simp [hquote Leaf.chars_target _ (hu.mem List.mem_cons_self)]
    · rfl
  have hdotQuote : Text.substitute readDotQuote e.target = e.target := by
    refine Text.substitute_eq_self fun u hu => ?_
    unfold readDotQuote
    split
    · rename_i c q rest
      simp [hquote Leaf.chars_target q (hu.mem (by simp))]
    · rfl
  have hjoins : tildeJoins e.target = e.target := by
    rw [tildeJoins, Text.replace_eq_substitute _ (by decide), hrule respells_join Leaf.opens_target, hquoteDot, hdotQuote]
  have hnegations : negations e.target = e.target := by
    rw [negations, mapUnquoted_eq_self (hquote Leaf.chars_target), spellNot_eq,
      drops_readNot.substitute_eq_self (e.not_mem_written Leaf.chars_target (by decide))]
  have hlogic : spellLogic e.target = e.target := by
    rw [spellLogic,
      (drops_readSpaced (x := '&') (by decide)).substitute_eq_self (e.not_mem_written Leaf.chars_target (by decide)),
      (drops_readSpaced (x := '|') (by decide)).substitute_eq_self (e.not_mem_written Leaf.chars_target (by decide)),
      hrule respells_logicWord Leaf.opens_target]
  have htrim := trimWhile_eq_self_of_ends e.trimmed_target.head e.trimmed_target.last
  rw [Expression.translate, hkeys, hsigils, harrows, hjoins, hnegations, hlogic, htrim]

end Arithmetic
end ViewBridge

import Mathlib.Data.List.Infix
import ViewBridge.Proofs.Block
import ViewBridge.Proofs.Recoding.Tag
/-!
# Templates as lists of items

A template whose tags are all complete and plainly written is a list of items: text, tags and blocks. Each
item has a translation of its own; only a loop tag asks how deep it is.

Results:
* `source_recoded`, `output_recoded`: recoding an item recodes its text and its translation.
-/
namespace ViewBridge.Translator

/-- The tags with one quoted argument. -/
inductive ArgumentTag where
  | condition
  | longCondition
  | alternative
  | inclusion
  | call
deriving DecidableEq, Repr

namespace ArgumentTag

/-- What stands in front of the argument. -/
def lead : ArgumentTag → Chars
  | condition => "\x7bif=\x22".toList
  | longCondition => "\x7bif condition=\x22".toList
  | alternative => "\x7belseif=\x22".toList
  | inclusion => "\x7binclude=\x22".toList
  | call => "\x7bfunction=\x22".toList

/-- What the tag becomes. -/
def emit (t : Translator) : ArgumentTag → Chars → Chars
  | condition | longCondition => emitIf
  | alternative => t.emitElseif
  | inclusion => t.emitInclude
  | call => t.emitFunction

/-- Whether the argument may be empty. -/
def mayBeEmpty : ArgumentTag → Bool
  | condition | longCondition | alternative => true
  | inclusion | call => false

end ArgumentTag

/-- The tags without an argument that are statements for themselves. -/
inductive FixedTag where
  | otherwise
  | endIf
  | leave
  | next
deriving DecidableEq, Repr

namespace FixedTag

/-- The legacy word. -/
def legacy : FixedTag → String
  | otherwise => "else"
  | endIf => "/if"
  | leave => "break"
  | next => "continue"

/-- The statement of the target dialects. -/
def statement : FixedTag → String
  | otherwise => "else"
  | endIf => "endif"
  | leave => "break"
  | next => "continue"

end FixedTag

/-- The names that a loop binds: one for the value, or one for the key and one for the value. -/
inductive LoopNames where
  | numbered
  | single (name : Chars)
  | pair (key element : Chars)
deriving DecidableEq, Repr

namespace LoopNames

/-- The names as they stand in a tag. -/
def source : LoopNames → Chars
  | numbered => []
  | single name => " as $".toList ++ name
  | pair key element => " as $".toList ++ (key ++ (" => $".toList ++ element))

/-- The header of a loop over a collection. -/
def header (collection : Chars) : LoopNames → Directive.LoopHeader
  | numbered => ⟨collection, none, none⟩
  | single name => ⟨collection, some ('$' :: name), none⟩
  | pair key element => ⟨collection, some ('$' :: key), some ('$' :: element)⟩

/-- All names that are bound. -/
def names : LoopNames → List Chars
  | numbered => []
  | single name => [name]
  | pair key element => [key, element]

end LoopNames

/-- A part of a template. -/
inductive Item where
  | text (s : Chars)
  | var (body : Chars)
  | argument (k : ArgumentTag) (body : Chars)
  | fixed (k : FixedTag)
  | loop (collection : Chars) (names : LoopNames)
  | endLoop
  | constant (name : Chars)
  | block (k : BlockKind) (body : Chars)
deriving DecidableEq, Repr

/-- Whether a text is a name. -/
def IsIdentifier (s : Chars) : Prop := s.head?.any Text.isNameStart = true ∧ ∀ c ∈ s, Text.isNameChar c = true

instance (s : Chars) : Decidable (IsIdentifier s) :=
  have := List.decidableBAll (fun c => Text.isNameChar c = true) s
  instDecidableAnd

/-- Whether a text has no brace. -/
def Unbraced (s : Chars) : Prop := '\x7b' ∉ s ∧ '\x7d' ∉ s

instance (s : Chars) : Decidable (Unbraced s) := inferInstanceAs (Decidable (_ ∧ _))

/-- What a loop tag starts with. -/
def loopLead : Chars := "\x7bloop=\x22".toList

namespace Item

/-- An item as it stands in a template. -/
def source : Item → Chars
  | text s => s
  | var body => '\x7b' :: (body ++ ['\x7d'])
  | argument k body => k.lead ++ (body ++ "\x22\x7d".toList)
  | fixed k => '\x7b' :: k.legacy.toList ++ ['\x7d']
  | loop collection names => loopLead ++ (collection ++ '\x22' :: (names.source ++ ['\x7d']))
  | endLoop => "\x7b/loop\x7d".toList
  | constant name => '\x7b' :: '#' :: (name ++ ['#', '\x7d'])
  | block k body => k.source body

-- stated so that simp does not have to derive them, which takes long where a case is only a literal
theorem source_text (s : Chars) : (text s).source = s := rfl

theorem source_var (body : Chars) : (var body).source = '\x7b' :: (body ++ ['\x7d']) := rfl

theorem source_argument (k : ArgumentTag) (body : Chars) :
    (argument k body).source = k.lead ++ (body ++ "\x22\x7d".toList) := rfl

theorem source_fixed (k : FixedTag) : (fixed k).source = '\x7b' :: k.legacy.toList ++ ['\x7d'] := rfl

theorem source_loop (collection : Chars) (names : LoopNames) :
    (loop collection names).source = loopLead ++ (collection ++ '\x22' :: (names.source ++ ['\x7d'])) := rfl

theorem source_endLoop : endLoop.source = "\x7b/loop\x7d".toList := rfl

theorem source_constant (name : Chars) : (constant name).source = '\x7b' :: '#' :: (name ++ ['#', '\x7d']) := rfl

theorem source_block (k : BlockKind) (body : Chars) : (block k body).source = k.source body := rfl

/-- What the texts in an item must be for it to be one. -/
def WellFormed : Item → Prop
  | text s => Unbraced s
  | var body => Directive.startsVariable body = true ∧ Unbraced body
  | argument k body => '\x22' ∉ body ∧ Unbraced body ∧ (k.mayBeEmpty = true ∨ body ≠ [])
  | fixed _ | endLoop => True
  | loop collection names =>
    '\x22' ∉ collection ∧ Unbraced collection ∧ ∀ name ∈ names.names, IsIdentifier name
  | constant name => IsIdentifier name
  | block k body =>
    ¬ k.closing <:+: body ∧ (∀ j : BlockKind, ¬ j.opening <:+: body) ∧ ¬ "&quot;".toList <:+: body

instance (i : Item) : Decidable i.WellFormed :=
  match i with
  | text s => inferInstanceAs (Decidable (Unbraced s))
  | var body => inferInstanceAs (Decidable (Directive.startsVariable body = true ∧ Unbraced body))
  | argument k body =>
    inferInstanceAs (Decidable ('\x22' ∉ body ∧ Unbraced body ∧ (k.mayBeEmpty = true ∨ body ≠ [])))
  | fixed _ | endLoop => isTrue trivial
  | loop collection names =>
    inferInstanceAs (Decidable
      ('\x22' ∉ collection ∧ Unbraced collection ∧ ∀ name ∈ names.names, IsIdentifier name))
  | constant name => inferInstanceAs (Decidable (IsIdentifier name))
  | block k body =>
    decidable_of_iff (¬ k.closing <:+: body ∧
      (¬ BlockKind.opening .comment <:+: body ∧ ¬ BlockKind.opening .ignored <:+: body ∧
        ¬ BlockKind.opening .verbatim <:+: body) ∧ ¬ "&quot;".toList <:+: body)
      (and_congr_right' (and_congr_left' ⟨fun h j => by cases j <;> simp [h], fun h => ⟨h _, h _, h _⟩⟩))

/-- How the item changes the loop depth. -/
def turn : Item → Int
  | loop .. => 1
  | endLoop => -1
  | _ => 0

/-- The translation of an item, for a loop tag at the depth that it opens. -/
def output (t : Translator) (depth : Int) : Item → Chars
  | text s => s
  | var body => t.emitVariable body
  | argument k body => k.emit t body
  | fixed k => Dialect.tag k.statement.toList
  | loop collection names => t.emitLoop depth (names.header collection)
  | endLoop => Dialect.tag "endfor".toList
  | constant name => emitConstant name
  | block k body => k.output t body

end Item

/-- The translations of items one after the other. A loop tag counts before it is translated. -/
def translateItems (t : Translator) : (depth : Int) → List Item → Chars
  | _, [] => []
  | depth, i :: is => i.output t (depth + i.turn) ++ translateItems t (depth + i.turn) is

/-! ## Recoded items -/

section
variable {r : Recoding}

/-- The names recoded. -/
def LoopNames.recoded (r : Recoding) : LoopNames → LoopNames
  | numbered => numbered
  | single name => single (r.text name)
  | pair key element => pair (r.text key) (r.text element)

/-- An item with all its texts recoded. -/
def Item.recoded (r : Recoding) : Item → Item
  | text s => text (r.text s)
  | var body => var (r.text body)
  | argument k body => argument k (r.text body)
  | fixed k => fixed k
  | loop collection names => loop (r.text collection) (names.recoded r)
  | endLoop => endLoop
  | constant name => constant (r.text name)
  | block k body => block k (r.text body)

theorem Item.turn_recoded (r : Recoding) (i : Item) : (i.recoded r).turn = i.turn := by cases i <;> rfl

theorem LoopNames.source_recoded (hr : r.Framed) (names : LoopNames) :
    (names.recoded r).source = r.text names.source := by
  have has : r.text " as $".toList = " as $".toList := hr.text_eq (by decide)
  have harrow : r.text " => $".toList = " => $".toList := hr.text_eq (by decide)
  cases names with
  | numbered => rfl
  | single name =>
    show " as $".toList ++ r.text name = r.text (" as $".toList ++ name)
    rw [Recoding.text_append, has]
  | pair key element =>
    show " as $".toList ++ (r.text key ++ (" => $".toList ++ r.text element)) =
      r.text (" as $".toList ++ (key ++ (" => $".toList ++ element)))
    rw [Recoding.text_append, Recoding.text_append, Recoding.text_append, has, harrow]

/-- Recoding an item recodes its text. -/
theorem Item.source_recoded (hr : r.Framed) (i : Item) : (i.recoded r).source = r.text i.source := by
  have hopen (s : Chars) : r.text ('\x7b' :: s) = '\x7b' :: r.text s := by
    rw [Recoding.text_cons, hr.brace '\x7b' rfl]
    rfl
  have hclose : r.text ['\x7d'] = ['\x7d'] := hr.text_eq (by decide)
  have hquote : r.text "\x22\x7d".toList = "\x22\x7d".toList := hr.text_eq (by decide)
  cases i with
  | text s => rfl
  | var body => simp only [recoded, source_var, hopen, Recoding.text_append, hclose]
  | argument k body =>
    have hlead : r.text k.lead = k.lead := by cases k <;> exact hr.text_eq (by decide)
    simp only [recoded, source_argument, Recoding.text_append, hlead, hquote]
  | fixed k =>
    have hword : r.text k.legacy.toList = k.legacy.toList := by cases k <;> exact hr.text_eq (by decide)
    simp only [recoded, source_fixed, hopen, Recoding.text_append, List.cons_append, hword, hclose]
  | loop collection names =>
    have hlead : r.text loopLead = loopLead := hr.text_eq (by decide)
    have hmark := r.text_cons_of_spoken (isMute_of_isTagChar (c := '\x22') rfl)
    simp only [recoded, source_loop, Recoding.text_append, hlead, hmark, names.source_recoded hr, hclose]
  | endLoop =>
    have hend : r.text "\x7b/loop\x7d".toList = "\x7b/loop\x7d".toList := hr.text_eq (by decide)
    simp only [recoded, source_endLoop, hend]
  | constant name =>
    have hmark := r.text_cons_of_spoken (isMute_of_isTagChar (c := '#') rfl)
    simp only [recoded, source_constant, hopen, hmark, Recoding.text_append, hclose]
  | block k body =>
    have hlead : r.text k.opening = k.opening := by cases k <;> exact hr.text_eq (by decide)
    have htail : r.text k.closing = k.closing := by cases k <;> exact hr.text_eq (by decide)
    simp only [recoded, source_block, BlockKind.source, Recoding.text_append, hlead, htail]

theorem LoopNames.header_recoded (collection : Chars) (names : LoopNames) :
    (names.recoded r).header (r.text collection) = r.loopHeader (names.header collection) := by
  have hsigil := r.text_cons_of_spoken (isMute_of_isTagChar (c := '$') rfl)
  cases names <;> simp [recoded, header, Recoding.loopHeader, hsigil]

theorem BlockKind.output_text (hr : r.Framed) (t : Translator) (k : BlockKind) (body : Chars) :
    k.output t (r.text body) = r.text (k.output t body) := by
  have hcomment : Dialect.comment (r.text body) = r.text (Dialect.comment body) := by
    simp (disch := decide) only [Dialect.comment, Recoding.text_append, hr.text_eq]
  have hverbatim (d : Dialect) : d.verbatim (r.text body) = r.text (d.verbatim body) := by
    cases d <;> simp (disch := decide) only [Dialect.verbatim, Recoding.text_append, hr.tag, hr.text_eq]
  cases k with
  | comment => exact hcomment
  | ignored => exact hcomment
  | verbatim => exact hverbatim t.dialect

/-- Recoding an item recodes its translation. -/
theorem Item.output_recoded (hr : r.Framed) {t : Translator} (hext : r.text t.extension = t.extension)
    (depth : Int) (i : Item) : (i.recoded r).output t depth = r.text (i.output t depth) := by
  cases i with
  | text s => simp only [recoded, output]
  | var body => exact r.emitVariable_text hr t body
  | argument k body =>
    cases k with
    | condition => exact r.emitIf_text hr body
    | longCondition => exact r.emitIf_text hr body
    | alternative => exact r.emitElseif_text hr t body
    | inclusion => exact r.emitInclude_text hr hext body
    | call => exact r.emitFunction_text hr t body
  | fixed k =>
    have hstatement : r.text k.statement.toList = k.statement.toList := by
      cases k <;> exact hr.text_eq (by decide)
    simp only [recoded, output, hr.tag, hstatement]
  | loop collection names =>
    exact (congrArg (t.emitLoop depth) (names.header_recoded collection)).trans (r.emitLoop_text hr t depth _)
  | endLoop =>
    have hend : r.text "endfor".toList = "endfor".toList := hr.text_eq (by decide)
    simp only [recoded, output, hr.tag, hend]
  | constant name => exact r.emitConstant_text hr name
  | block k body => exact k.output_text hr t body

end

/-! ## Escaped items -/

/-- Escaping makes no new occurrence of a word without shields. -/
theorem infix_of_infix_escape {w s : Chars} (ho : Shelf.opening ∉ w) (hc : Shelf.closing ∉ w)
    (h : w <:+: Shelf.escape s) : w <:+: s := by
  have hstart {w s : Chars} (ho : Shelf.opening ∉ w) (h : w <+: Shelf.escape s) : w <+: s := by
    induction s generalizing w with
    | nil => rwa [Shelf.escape_nil] at h
    | cons c cs ih =>
      cases w with
      | nil => exact List.nil_prefix
      | cons d ds =>
        rw [List.mem_cons, not_or] at ho
        rw [Shelf.escape_cons] at h
        split at h
        · exact absurd (List.cons_prefix_cons.1 h).1.symm ho.1
        · rw [List.cons_prefix_cons] at h ⊢
          exact ⟨h.1, ih ho.2 h.2⟩
  induction s with
  | nil => rwa [Shelf.escape_nil] at h
  | cons c cs ih =>
    rw [Shelf.escape_cons] at h
    split at h
    · rcases Text.infix_append_cons (s := []) ho h with h | h
      · rw [List.infix_nil.1 h]
        exact List.nil_infix
      · rcases Text.infix_append_cons (s := []) hc h with h | h
        · rw [List.infix_nil.1 h]
          exact List.nil_infix
        · exact List.infix_cons (ih h)
    · rename_i hne
      rcases List.infix_cons_iff.1 h with h | h
      · have hcons : w <+: Shelf.escape (c :: cs) := by rwa [Shelf.escape_cons, if_neg hne]
        exact (hstart ho hcons).isInfix
      · exact List.infix_cons (ih h)

theorem Unbraced.escape {s : Chars} (h : Unbraced s) : Unbraced (Shelf.escape s) :=
  ⟨mt (Shelf.mem_escape (by decide)).1 h.1, mt (Shelf.mem_escape (by decide)).1 h.2⟩

theorem IsIdentifier.escape_eq {name : Chars} (h : IsIdentifier name) : Shelf.escape name = name :=
  Shelf.escape_eq_self fun hm => absurd (h.2 _ hm) (by decide)

theorem startsVariable_escape {body : Chars} (h : Directive.startsVariable body = true) :
    Directive.startsVariable (Shelf.escape body) = true := by
  cases body with
  | nil => cases h
  | cons c cs =>
    cases cs with
    | nil => simp [Directive.startsVariable] at h
    | cons d ds =>
      simp only [Directive.startsVariable, List.head?_cons, List.tail_cons, Option.any_some, Bool.and_eq_true,
        beq_iff_eq, Option.some.injEq] at h
      obtain ⟨rfl, hname⟩ := h
      have hd : d ≠ Shelf.opening := by
        rintro rfl
        exact absurd hname (by decide)
      rw [Shelf.escape_cons, if_neg (by decide), Shelf.escape_cons, if_neg hd]
      exact Bool.and_eq_true_iff.2 ⟨rfl, hname⟩

theorem LoopNames.names_recoded (r : Recoding) (names : LoopNames) :
    (names.recoded r).names = names.names.map r.text := by cases names <;> rfl

/-- An escaped item is an item. -/
theorem Item.wellFormed_escape {i : Item} (h : i.WellFormed) : (i.recoded Recoding.shields).WellFormed := by
  have hquote {s : Chars} (hs : '\x22' ∉ s) : '\x22' ∉ Shelf.escape s := mt (Shelf.mem_escape (by decide)).1 hs
  cases i with
  | text s =>
    rw [recoded, ← Recoding.escape_eq]
    exact Unbraced.escape h
  | var body =>
    rw [recoded, ← Recoding.escape_eq]
    exact ⟨startsVariable_escape h.1, h.2.escape⟩
  | argument k body =>
    rw [recoded, ← Recoding.escape_eq]
    refine ⟨hquote h.1, h.2.1.escape, h.2.2.imp_right fun hne => ?_⟩
    rwa [Recoding.escape_eq, ne_eq, Recoding.text_eq_nil_iff]
  | fixed k => trivial
  | loop collection names =>
    rw [recoded, ← Recoding.escape_eq]
    refine ⟨hquote h.1, h.2.1.escape, fun name hname => ?_⟩
    rw [LoopNames.names_recoded, List.mem_map] at hname
    obtain ⟨plain, hplain, rfl⟩ := hname
    have hid := h.2.2 plain hplain
    rwa [← Recoding.escape_eq, hid.escape_eq]
  | endLoop => trivial
  | constant name =>
    rw [recoded, ← Recoding.escape_eq, IsIdentifier.escape_eq h]
    exact h
  | block k body =>
    rw [recoded, ← Recoding.escape_eq]
    refine ⟨mt k.marker_closing.infix_of_infix_escape h.1,
      fun j => mt j.marker_opening.infix_of_infix_escape (h.2.1 j),
      mt (infix_of_infix_escape (by decide) (by decide)) h.2.2⟩

end ViewBridge.Translator

import Mathlib.Data.List.Induction
import ViewBridge.Translator.Balance
/-!
# Bracketing of loop tags

The balance of a list of loop tags, told without the stack that computes it: the tags pair up, or a closing
tag stands behind tags that all pair up, or some opening tags are left over, each with paired tags behind
it.

Results:
* `balance_append_of_bracketed`, `balance_append_of_unclosed`: what a first part of the tags leaves open.
* `exists_verdict`: every list of tags is of one of the three kinds.
* `balance_eq_iff`: the balance is what the kind says.
-/
namespace ViewBridge.LoopTag

/-- Tags that pair up: none, or a loop with its closing tag, paired tags in it and paired tags behind it. -/
inductive Bracketed : List LoopTag → Prop
  | nil : Bracketed []
  | loop {inner outer : List LoopTag} (line line' : Nat) (hinner : Bracketed inner)
      (houter : Bracketed outer) : Bracketed (⟨true, line⟩ :: (inner ++ ⟨false, line'⟩ :: outer))

/-- Tags that pair up but for some that open, whose lines are listed with the last of them first. -/
inductive Unclosed : List Nat → List LoopTag → Prop
  | none {tags : List LoopTag} (htags : Bracketed tags) : Unclosed [] tags
  | more {opened : List Nat} {before after : List LoopTag} (line : Nat) (hbefore : Unclosed opened before)
      (hafter : Bracketed after) : Unclosed (line :: opened) (before ++ ⟨true, line⟩ :: after)

/-- What is to be said about a list of tags: it pairs up, or a tag closes what no tag in front of it opened,
or tags are left open, of which the line of the last and the number are told. -/
inductive Verdict (tags : List LoopTag) : Except Error Unit → Prop
  | balanced (h : Bracketed tags) : Verdict tags (.ok ())
  | unopened {before after : List LoopTag} {line : Nat} (htags : tags = before ++ ⟨false, line⟩ :: after)
      (hbefore : Bracketed before) : Verdict tags (.error (.unbalancedLoop line (-1)))
  | unclosed {line : Nat} {opened : List Nat} (h : Unclosed (line :: opened) tags) :
      Verdict tags (.error (.unbalancedLoop line (opened.length + 1)))

/-! ## The balance of a first part -/

theorem balance_append_of_bracketed {tags : List LoopTag} (h : Bracketed tags) (opened : List Nat)
    (rest : List LoopTag) : balance opened (tags ++ rest) = balance opened rest := by
  induction h generalizing opened rest with
  | nil => rfl
  | loop line line' _ _ hinner houter =>
    calc
      _ = balance (line :: opened) _ := by simp only [List.cons_append, List.append_assoc, balance]
      _ = balance (line :: opened) (⟨false, line'⟩ :: (_ ++ rest)) := hinner _ _
      _ = balance opened (_ ++ rest) := rfl
      _ = balance opened rest := houter _ _

theorem balance_append_of_unclosed {lines : List Nat} {tags : List LoopTag} (h : Unclosed lines tags)
    (opened : List Nat) (rest : List LoopTag) :
    balance opened (tags ++ rest) = balance (lines ++ opened) rest := by
  induction h generalizing opened rest with
  | none htags => exact balance_append_of_bracketed htags opened rest
  | more line _ hafter ih =>
    rw [List.append_assoc, ih, List.cons_append, balance, balance_append_of_bracketed hafter]
    rfl

theorem balance_of_unclosed {lines : List Nat} {tags : List LoopTag} (h : Unclosed lines tags) :
    balance [] tags = balance lines [] := by
  have := balance_append_of_unclosed h [] []
  rwa [List.append_nil, List.append_nil] at this

/-! ## One of three -/

theorem Bracketed.append {tags rest : List LoopTag} (h : Bracketed tags) (hrest : Bracketed rest) :
    Bracketed (tags ++ rest) := by
  induction h with
  | nil => exact hrest
  | loop line line' hinner _ _ houter =>
    rw [List.cons_append, List.append_assoc, List.cons_append]
    exact .loop line line' hinner houter

theorem Unclosed.append {lines : List Nat} {tags rest : List LoopTag} (h : Unclosed lines tags)
    (hrest : Bracketed rest) : Unclosed lines (tags ++ rest) := by
  cases h with
  | none htags => exact .none (htags.append hrest)
  | more line hbefore hafter =>
    rw [List.append_assoc, List.cons_append]
    exact .more line hbefore (hafter.append hrest)

/-- A closing tag takes away the last of the tags that are left open. -/
theorem Unclosed.close {line : Nat} {lines : List Nat} {tags : List LoopTag}
    (h : Unclosed (line :: lines) tags) (line' : Nat) : Unclosed lines (tags ++ [⟨false, line'⟩]) := by
  cases h with
  | @more _ before after _ hbefore hafter =>
    have hloop : Bracketed (⟨true, line⟩ :: (after ++ [⟨false, line'⟩])) := .loop line line' hafter .nil
    have := hbefore.append hloop
    rwa [← List.cons_append, ← List.append_assoc] at this

/-- Every list of tags leaves some open, or has a closing tag too many. -/
theorem unclosed_or_unopened (tags : List LoopTag) :
    (∃ lines, Unclosed lines tags) ∨
      ∃ before line after, tags = before ++ ⟨false, line⟩ :: after ∧ Bracketed before := by
  induction tags using List.reverseRecOn with
  | nil => exact .inl ⟨[], .none .nil⟩
  | append_singleton tags tag ih =>
    obtain ⟨lines, hlines⟩ | ⟨before, line, after, rfl, hbefore⟩ := ih
    · obtain ⟨opens, line⟩ := tag
      cases opens with
      | true => exact .inl ⟨line :: lines, .more line hlines .nil⟩
      | false =>
        cases hlines with
        | none htags => exact .inr ⟨tags, line, [], rfl, htags⟩
        | more line₀ hbefore hafter => exact .inl ⟨_, (Unclosed.more line₀ hbefore hafter).close line⟩
    · exact .inr ⟨before, line, after ++ [tag], by simp, hbefore⟩

theorem exists_verdict (tags : List LoopTag) : ∃ r, Verdict tags r := by
  obtain ⟨lines, hlines⟩ | ⟨before, line, after, htags, hbefore⟩ := unclosed_or_unopened tags
  · cases lines with
    | nil =>
      cases hlines with
      | none htags => exact ⟨_, .balanced htags⟩
    | cons line opened => exact ⟨_, .unclosed hlines⟩
  · exact ⟨_, .unopened htags hbefore⟩

/-! ## The balance and the verdict -/

theorem balance_of_verdict {tags : List LoopTag} {r : Except Error Unit} (h : Verdict tags r) :
    balance [] tags = r := by
  cases h with
  | balanced h => exact balance_of_unclosed (.none h)
  | unopened htags hbefore => rw [htags, balance_append_of_bracketed hbefore]; rfl
  | unclosed h => exact balance_of_unclosed h

/-- The balance of a list of tags is what is to be said about it, and nothing else is. -/
theorem balance_eq_iff (tags : List LoopTag) (r : Except Error Unit) : balance [] tags = r ↔ Verdict tags r := by
  refine ⟨fun h => ?_, balance_of_verdict⟩
  obtain ⟨r', hr'⟩ := exists_verdict tags
  rwa [← h, balance_of_verdict hr']

end ViewBridge.LoopTag

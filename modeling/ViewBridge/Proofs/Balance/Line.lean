import Mathlib.Data.List.Forall2
import ViewBridge.Proofs.Balance.Bracket
import ViewBridge.Proofs.Balance.Visible
import ViewBridge.Proofs.Exposure
/-!
# Lines of loop tags

The line of a loop tag is counted in the visible text. It is the line in the template: tags get their real
quotes row by row, and the veil over a block keeps every line break in its place. With this the check of a
template says what its loop tags call for, at the lines where they stand.

Results:
* `normalize_append_break`, `rows_normalize`: a template is normalised row by row.
* `veiled_visible`: the visible text is the normalised one, character by character, or a veil.
* `row_of_mem_tagsBehind`: a tag stands in the row of its line.
* `checkBalance_spec`: the verdict on a template.
-/
namespace ViewBridge

/-! ## Rows -/

/-- The rows of a text. -/
def Text.rows (s : Chars) : List Chars := s.splitOn '\n'

namespace Text

theorem rows_of_not_mem {s : Chars} (h : '\n' ∉ s) : rows s = [s] := List.splitOn_eq_singleton h

theorem rows_append_break {s : Chars} (h : '\n' ∉ s) (t : Chars) : rows (s ++ '\n' :: t) = s :: rows t :=
  List.splitOn_append_cons_self_of_not_mem h t

/-- What stands in one row stands in the row that is as far down as there are line breaks in front of it. -/
theorem infix_of_rows {w : Chars} (hw : '\n' ∉ w) (s t : Chars) :
    ∃ row, (rows (s ++ (w ++ t)))[occurrences '\n' s]? = some row ∧ w <:+: row := by
  induction hn : s.length using Nat.strongRecOn generalizing s with
  | ind n ih =>
    by_cases hs : '\n' ∈ s
    · obtain ⟨a, b, rfl, ha⟩ := List.eq_append_cons_of_mem hs
      rw [List.length_append, List.length_cons] at hn
      obtain ⟨row, hrow, hin⟩ := ih b.length (by omega) b rfl
      refine ⟨row, ?_, hin⟩
      have hcount : occurrences '\n' (a ++ '\n' :: b) = occurrences '\n' b + 1 := by
        simp [occurrences, List.count_eq_zero.2 ha]
      rw [List.append_assoc, List.cons_append, rows_append_break ha, hcount, List.getElem?_cons_succ, hrow]
    · have hcount : occurrences '\n' s = 0 := List.count_eq_zero.2 hs
      rw [hcount]
      by_cases ht : '\n' ∈ t
      · obtain ⟨a, b, rfl, ha⟩ := List.eq_append_cons_of_mem ht
        have hrow : '\n' ∉ s ++ (w ++ a) := by simp [hs, hw, ha]
        have hsplit : s ++ (w ++ (a ++ '\n' :: b)) = (s ++ (w ++ a)) ++ '\n' :: b := by simp
        rw [hsplit, rows_append_break hrow]
        exact ⟨_, rfl, s, a, by simp⟩
      · have hrow : '\n' ∉ s ++ (w ++ t) := by simp [hs, hw, ht]
        rw [rows_of_not_mem hrow]
        exact ⟨_, rfl, s, t, by simp⟩

end Text

/-! ## Entities row by row -/

namespace Directive

/-- A cut behind a seam goes over all that stands in front of it. -/
theorem cut?_append_cons_of_not_mem {a c : Char} {as : Chars} (hc : c ∉ a :: as) (s t : Chars) :
    Text.cut? (a :: as) (s ++ c :: t) =
      ((Text.cut? (a :: as) s).map fun (pre, rest) => (pre, rest ++ c :: t)).or
        ((Text.cut? (a :: as) t).map fun (pre, rest) => (s ++ c :: pre, rest)) := by
  induction s with
  | nil =>
    have hne : a ≠ c := fun he => hc (he ▸ List.mem_cons_self)
    simp [Text.cut?, Text.after?, hne]
  | cons d ds ih =>
    have hread := Text.after?_append_cons hc (d :: ds) t
    rw [List.cons_append] at hread ⊢
    rw [Text.cut?, Text.cut?, hread, ih]
    cases Text.after? (a :: as) (d :: ds) with
    | some rest => rfl
    | none => cases Text.cut? (a :: as) ds <;> cases Text.cut? (a :: as) t <;> rfl

theorem readEntityBody_append_break (s t : Chars) :
    readEntityBody (s ++ '\n' :: t) = (readEntityBody s).map fun (a, rest) => (a, rest ++ '\n' :: t) := by
  cases s with
  | nil => rfl
  | cons c cs =>
    have hmark : '\n' ∉ '&' :: "quot;\x7d".toList := by decide
    have hcut : Text.cut? "&quot;\x7d".toList (cs ++ '\n' :: t) = _ := cut?_append_cons_of_not_mem hmark cs t
    rw [List.cons_append, readEntityBody, readEntityBody, hcut]
    split
    · rfl
    · show Option.bind _ _ = (Option.bind (Text.cut? ('&' :: "quot;\x7d".toList) cs) _).map _
      cases Text.cut? ('&' :: "quot;\x7d".toList) cs with
      | some r =>
        simp only [Option.map_some, Option.some_or, Option.bind_some]
        split <;> rfl
      | none =>
        -- an end behind the break is refused, because the argument would go over the break
        cases Text.cut? ('&' :: "quot;\x7d".toList) t with
        | none => rfl
        | some r => simp

theorem readEntityTag_append_break {s : Chars} (hs : s ≠ []) (t : Chars) :
    readEntityTag (s ++ '\n' :: t) = (readEntityTag s).map fun (a, rest) => (a, rest ++ '\n' :: t) :=
  readEntityTag_append_of_body (by decide) (by decide) (fun s => readEntityBody_append_break s t) hs

end Directive

namespace Translator

theorem readEntities_suffix {s out rest : Chars} (h : readEntities s = some (out, rest)) : rest <:+ s := by
  obtain ⟨⟨a, rest'⟩, hr, he⟩ := Option.map_eq_some_iff.1 h
  rw [Prod.mk.injEq] at he
  rw [← he.2]
  exact Directive.tag_readEntityTag.rest_suffix hr

theorem readEntities_break (s : Chars) : readEntities ('\n' :: s) = none := by
  rw [readEntities, Directive.tag_readEntityTag.none_of_head (by decide)]
  rfl

/-- No argument goes over a line break, so the text is normalised on either side of one. -/
theorem normalize_append_break (s t : Chars) :
    normalize (s ++ '\n' :: t) = normalize s ++ '\n' :: normalize t := by
  have hseam : ∀ v, v ≠ [] → v <:+ s →
      readEntities (v ++ '\n' :: t) = (readEntities v).map fun (out, rest) => (out, rest ++ '\n' :: t) := by
    intro v hv _
    rw [readEntities, readEntities, Directive.readEntityTag_append_break hv, Option.map_map, Option.map_map]
    rfl
  rw [normalize, Text.substitute_append readEntities_suffix hseam,
    Text.substitute_cons_of_none (readEntities_break t)]
  rfl

theorem count_break_decodeEntities (s : Chars) : (decodeEntities s).count '\n' ≤ s.count '\n' := by
  have hstep (old new : String) (hold : old.toList ≠ []) (hnew : '\n' ∉ new.toList) (s : Chars) :
      (Text.replace old.toList new.toList s).count '\n' ≤ s.count '\n' :=
    Text.count_replace_le hold (by rw [List.count_eq_zero.2 hnew]; exact Nat.zero_le _) s
  simp only [decodeEntities, List.foldl_cons, List.foldl_nil]
  refine (hstep _ _ (by decide) (by decide) _).trans ?_
  refine (hstep _ _ (by decide) (by decide) _).trans ?_
  refine (hstep _ _ (by decide) (by decide) _).trans ?_
  refine (hstep _ _ (by decide) (by decide) _).trans ?_
  refine (hstep _ _ (by decide) (by decide) _).trans ?_
  refine (hstep _ _ (by decide) (by decide) _).trans ?_
  exact hstep _ _ (by decide) (by decide) _

theorem not_mem_normalize {s : Chars} (h : '\n' ∉ s) : '\n' ∉ normalize s := by
  have hle : (normalize s).count '\n' ≤ s.count '\n' := by
    rw [normalize, Text.substitute_eq_substituteFrom]
    refine Text.count_substituteFrom_le (fun hf => ?_) () s
    obtain ⟨⟨⟨name, body⟩, rest'⟩, hr, he⟩ := Option.map_eq_some_iff.1 (Text.stateless_eq_some hf)
    rw [Prod.mk.injEq] at he
    obtain ⟨rfl, rfl⟩ := he
    refine ⟨_, Directive.readEntityTag_eq_some hr, ?_⟩
    have hbody := count_break_decodeEntities body
    have hends : "=\x22".toList.count '\n' = 0 ∧ "\x22\x7d".toList.count '\n' = 0 := by decide
    simp only [List.count_append]
    omega
  rw [← List.count_eq_zero] at h ⊢
  omega

theorem rows_normalize (s : Chars) : Text.rows (normalize s) = (Text.rows s).map normalize := by
  induction hn : s.length using Nat.strongRecOn generalizing s with
  | ind n ih =>
    by_cases hs : '\n' ∈ s
    · obtain ⟨a, b, rfl, ha⟩ := List.eq_append_cons_of_mem hs
      rw [List.length_append, List.length_cons] at hn
      rw [normalize_append_break, Text.rows_append_break (not_mem_normalize ha),
        Text.rows_append_break ha, ih b.length (by omega) b rfl, List.map_cons]
    · rw [Text.rows_of_not_mem hs, Text.rows_of_not_mem (not_mem_normalize hs)]
      rfl

/-! ## The veil keeps the lines -/

/-- A character is shown, or a veil is in its place; a line break is always shown. -/
def Veils (c d : Char) : Prop := c = d ∨ c = '_' ∧ d ≠ '\n'

/-- A text of which all is shown or behind a veil. -/
abbrev Veiled : Chars → Chars → Prop := List.Forall₂ Veils

theorem Veiled.refl (s : Chars) : Veiled s s := List.forall₂_same.2 fun _ _ => .inl rfl

theorem Veils.trans {a b c : Char} (h : Veils a b) (h' : Veils b c) : Veils a c := by
  rcases h with rfl | ⟨rfl, hb⟩
  · exact h'
  · rcases h' with rfl | ⟨rfl, hc⟩
    · exact .inr ⟨rfl, hb⟩
    · exact .inr ⟨rfl, hc⟩

theorem Veiled.trans {s t u : Chars} (h : Veiled s t) (h' : Veiled t u) : Veiled s u := by
  induction h generalizing u with
  | nil => exact h'
  | cons hc _ ih =>
    cases h' with
    | cons hc' h' => exact .cons (hc.trans hc') (ih h')

theorem Veiled.append {s t s' t' : Chars} (h : Veiled s t) (h' : Veiled s' t') : Veiled (s ++ s') (t ++ t') :=
  List.rel_append h h'

theorem Veiled.of_append {s t u : Chars} (h : Veiled (s ++ t) u) :
    ∃ s' t', u = s' ++ t' ∧ Veiled s s' ∧ Veiled t t' := by
  have htake := List.forall₂_take s.length h
  have hdrop := List.forall₂_drop s.length h
  rw [List.take_left] at htake
  rw [List.drop_left] at hdrop
  exact ⟨_, _, (List.take_append_drop s.length u).symm, htake, hdrop⟩

theorem veiled_veil (s : Chars) : Veiled (veil s) s := by
  induction s with
  | nil => exact .nil
  | cons c cs ih =>
    refine .cons ?_ ih
    by_cases hc : c = '\n'
    · exact .inl (if_pos hc)
    · exact .inr ⟨if_neg hc, hc⟩

/-- The text of a block that is read, and what follows it. -/
theorem BlockKind.eq_source_of_read (k : BlockKind) {s body rest : Chars} (h : k.read s = some (body, rest)) :
    s = k.source body ++ rest := by
  obtain ⟨t, ht, hcut⟩ := Option.bind_eq_some_iff.1 h
  rw [Text.after?_eq_some_iff.1 ht, Text.cut?_eq_some hcut, BlockKind.source]
  simp only [List.append_assoc]

theorem veiled_veilBlocks (k : BlockKind) (s : Chars) : Veiled (veilBlocks k s) s := by
  induction hn : s.length using Nat.strongRecOn generalizing s with
  | ind n ih =>
    cases s with
    | nil => rw [veilBlocks, Text.substitute_nil]; exact .nil
    | cons c cs =>
      cases hr : k.read (c :: cs) with
      | none =>
        rw [veilBlocks, Text.substitute_cons_of_none (by rw [hr]; rfl)]
        rw [List.length_cons] at hn
        exact .cons (.inl rfl) (ih cs.length (by omega) cs rfl)
      | some r =>
        obtain ⟨body, rest⟩ := r
        have hlen := k.tag_read.length_lt hr
        have hveil : ((k.read (c :: cs)).map fun (body, rest) => (veil (k.source body), rest)) =
            some (veil (k.source body), rest) := by rw [hr]; rfl
        have hrest : Veiled (veilBlocks k rest) rest := ih rest.length (by omega) rest rfl
        rw [veilBlocks, Text.substitute_of_some hveil hlen, k.eq_source_of_read hr]
        exact (veiled_veil _).append hrest

/-- The visible text is the normalised template, with a veil over some of it. -/
theorem veiled_visible (source : Chars) : Veiled (visible source) (normalize source) :=
  (veiled_veilBlocks .verbatim _).trans ((veiled_veilBlocks .ignored _).trans (veiled_veilBlocks .comment _))

theorem Veiled.occurrences {s t : Chars} (h : Veiled s t) :
    Text.occurrences '\n' s = Text.occurrences '\n' t := by
  induction h with
  | nil => rfl
  | @cons c d _ _ hc _ ih =>
    rw [occurrences_cons, occurrences_cons, ih]
    rcases hc with rfl | ⟨rfl, hd⟩
    · rfl
    · rw [if_neg hd, if_neg (by decide)]

/-- What is in sight is there. -/
theorem Veiled.eq_of_not_mem {s t : Chars} (h : Veiled s t) (hs : '_' ∉ s) : s = t := by
  induction h with
  | nil => rfl
  | cons hc _ ih =>
    rw [List.mem_cons, not_or] at hs
    rcases hc with rfl | ⟨rfl, -⟩
    · rw [ih hs.2]
    · exact absurd rfl hs.1

end Translator

/-! ## Loop tags and their rows -/

/-- What a loop tag starts with. -/
def LoopTag.lead (tag : LoopTag) : Chars := if tag.opens then "\x7bloop=\x22".toList else "\x7b/loop\x7d".toList

namespace Directive

theorem lead_prefix_of_readLoop {s rest : Chars} {mark : LoopMark} (h : readLoop s = some (mark, rest))
    (line : Nat) : (LoopTag.mk mark.opens line).lead <+: s := by
  rw [readLoop_eq, Option.or_eq_some_iff] at h
  rcases h with h | ⟨-, h⟩
  · obtain ⟨s', hs, h⟩ := Option.bind_eq_some_iff.1 h
    obtain ⟨r, -, he⟩ := Option.map_eq_some_iff.1 h
    rw [Prod.mk.injEq] at he
    rw [← he.1]
    exact ⟨s', (Text.after?_eq_some_iff.1 hs).symm⟩
  · obtain ⟨s', hs, he⟩ := Option.map_eq_some_iff.1 h
    rw [Prod.mk.injEq] at he
    rw [← he.1]
    exact ⟨s', (Text.after?_eq_some_iff.1 hs).symm⟩

end Directive

namespace LoopTag

/-- A tag that is found stands in the text, behind as many line breaks as its line tells. -/
theorem eq_append_of_mem_tagsBehind {before s : Chars} {tag : LoopTag} (h : tag ∈ tagsBehind before s) :
    ∃ pre post, s = pre ++ (tag.lead ++ post) ∧ tag.line = 1 + Text.occurrences '\n' (before ++ pre) := by
  induction hn : s.length using Nat.strongRecOn generalizing before s with
  | ind n ih =>
    cases s with
    | nil => rw [tagsBehind] at h; cases h
    | cons c cs =>
      cases hr : Directive.readLoop (c :: cs) with
      | none =>
        rw [tagsBehind_cons_of_none before hr] at h
        rw [List.length_cons] at hn
        obtain ⟨pre, post, hs, hline⟩ := ih cs.length (by omega) h rfl
        refine ⟨c :: pre, post, by rw [hs]; rfl, ?_⟩
        rwa [List.append_assoc] at hline
      | some r =>
        obtain ⟨mark, rest⟩ := r
        rw [tagsBehind_of_some before hr, List.mem_cons] at h
        rcases h with rfl | h
        · obtain ⟨post, hpost⟩ := Directive.lead_prefix_of_readLoop hr (1 + Text.occurrences '\n' before)
          exact ⟨[], post, hpost.symm, by rw [List.append_nil]⟩
        · have hlen := Directive.tag_readLoop.length_lt hr
          obtain ⟨used, hused⟩ := Directive.tag_readLoop.rest_suffix hr
          obtain ⟨pre, post, hs, hline⟩ := ih rest.length (by omega) h rfl
          refine ⟨used ++ pre, post, by rw [← hused, hs, List.append_assoc], ?_⟩
          have htake : (c :: cs).take ((c :: cs).length - rest.length) = used := by
            rw [← hused]; simp
          rwa [htake, List.append_assoc] at hline

end LoopTag

namespace Translator

/-- The loop tags that a template shows, in their order and each with its line. -/
def visibleTags (source : Chars) : List LoopTag := LoopTag.tagsBehind [] (visible source)

/-- A loop tag that a template shows stands in the row of its line. -/
theorem row_of_mem_visibleTags {source : Chars} {tag : LoopTag} (h : tag ∈ visibleTags source) :
    ∃ row, (Text.rows source)[tag.line - 1]? = some row ∧ tag.lead <:+: normalize row := by
  obtain ⟨pre, post, hs, hline⟩ := LoopTag.eq_append_of_mem_tagsBehind h
  have hlead : '_' ∉ tag.lead ∧ '\n' ∉ tag.lead := by
    unfold LoopTag.lead
    split <;> decide
  -- the lead is in sight, so the normalised template has it at the same place
  have hveiled := veiled_visible source
  rw [hs] at hveiled
  obtain ⟨pre', rest', hn, hpre, hrest⟩ := hveiled.of_append
  obtain ⟨lead', post', rfl, hlead', -⟩ := hrest.of_append
  rw [← hlead'.eq_of_not_mem hlead.1] at hn
  obtain ⟨row', hrow', hin⟩ := Text.infix_of_rows hlead.2 pre' post'
  rw [← hn, rows_normalize, List.getElem?_map, Option.map_eq_some_iff] at hrow'
  obtain ⟨row, hrow, rfl⟩ := hrow'
  refine ⟨row, ?_, hin⟩
  rw [← hrow, hline, List.nil_append, hpre.occurrences]
  congr 1
  omega

/-- **The balance of a template.** The check says of a template what its visible loop tags call for: that
they pair up, the line of the first one that closes nothing, or the line of the last that stays open and how
many do. Each tag stands in the template's row of its line, because the template is normalised row by row
and blocks are hidden without a line break being moved. -/
theorem checkBalance_spec (source : Chars) :
    (∀ r, checkBalance source = r ↔ LoopTag.Verdict (visibleTags source) r) ∧
      (∀ tag ∈ visibleTags source,
        ∃ row, (Text.rows source)[tag.line - 1]? = some row ∧ tag.lead <:+: normalize row) ∧
      Text.rows (normalize source) = (Text.rows source).map normalize ∧
      Veiled (visible source) (normalize source) := by
  refine ⟨fun r => ?_, fun tag h => row_of_mem_visibleTags h, rows_normalize source, veiled_visible source⟩
  rw [checkBalance, loopTags_eq]
  exact LoopTag.balance_eq_iff _ r

-- the comment has a line break of its own
example : checkBalance "\x7b* a\nb *\x7d\n\x7bloop=\x22$a\x22\x7d".toList = .error (.unbalancedLoop 3 1) := by cbv

end Translator
end ViewBridge

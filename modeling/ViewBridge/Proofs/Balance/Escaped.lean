import ViewBridge.Proofs.Balance.Visible
import ViewBridge.Proofs.Item.Silence
/-!
# Loop tags of an escaped text

A translation starts from the text with its private characters escaped, the check of the loop tags from the text
itself. An escaped character stands in no tag that is asked about, so both see the same loop tags.

Results:
* `normalize_escape`: real quotes are put into an escaped text as into the text.
* `scan_beforeIncludes`: the loop tags in front of the includes are the tags that are checked.
-/
namespace ViewBridge

namespace Shelf

variable {lead : Chars}

theorem after?_escape (ho : opening ∉ lead) (s : Chars) :
    Text.after? lead (escape s) = (Text.after? lead s).map escape := by
  induction lead generalizing s with
  | nil => rfl
  | cons p ps ih =>
    rw [List.mem_cons, not_or] at ho
    cases s with
    | nil => rw [escape_nil]; rfl
    | cons c cs =>
      rw [escape_cons]
      split
      · rename_i hc
        subst hc
        simp [Text.after?, Ne.symm ho.1]
      · simp only [Text.after?]
        split
        · exact ih ho.2 cs
        · rfl

theorem span_escape {p : Char → Bool} (hp : p closing = p opening) (s : Chars) :
    (escape s).takeWhile p = escape (s.takeWhile p) ∧ (escape s).dropWhile p = escape (s.dropWhile p) := by
  induction s with
  | nil => rw [escape_nil]; exact ⟨escape_nil.symm, escape_nil.symm⟩
  | cons c cs ih =>
    rw [escape_cons, List.takeWhile_cons, List.dropWhile_cons]
    by_cases hc : c = opening
    · subst hc
      simp only [if_true, List.takeWhile_cons, List.dropWhile_cons, hp, ih.1, ih.2]
      split <;> simp [escape_cons]
    · simp only [if_neg hc, List.takeWhile_cons, List.dropWhile_cons, ih.1, ih.2]
      split <;> simp [escape_cons, hc]

theorem cut?_escape (hne : lead ≠ []) (ho : opening ∉ lead) (hc : closing ∉ lead) (s : Chars) :
    Text.cut? lead (escape s) = (Text.cut? lead s).map fun (pre, rest) => (escape pre, escape rest) := by
  obtain ⟨p, ps, rfl⟩ := List.exists_cons_of_ne_nil hne
  have hskip {c : Char} (hcs : c ∉ p :: ps) (s : Chars) : Text.after? (p :: ps) (c :: s) = none := by
    have : p ≠ c := fun he => hcs (he ▸ List.mem_cons_self)
    simp [Text.after?, this]
  induction s with
  | nil => rw [escape_nil]; rfl
  | cons c cs ih =>
    have hread := after?_escape ho (c :: cs)
    rw [escape_cons] at hread ⊢
    split at hread
    · rename_i hopen
      subst hopen
      simp only [if_true, Text.cut?, hskip ho, hskip hc, ih, Option.map_map]
      congr 1
      funext r
      simp [escape_cons]
    · rename_i hopen
      simp only [if_neg hopen, Text.cut?, hread, ih]
      cases Text.after? (p :: ps) (c :: cs) with
      | some rest => simp [escape_nil]
      | none =>
        simp only [Option.map_none, Option.map_map]
        congr 1
        funext r
        simp [escape_cons, hopen]

theorem contains_escape (s : Chars) : (escape s).contains '\n' = s.contains '\n' := by
  rw [Bool.eq_iff_iff, List.contains_iff_mem, List.contains_iff_mem, mem_escape (by decide)]

end Shelf

namespace Translator

open ViewBridge.Shelf (escape)

theorem readEntityBody_escape (s : Chars) : Directive.readEntityBody (escape s) =
    (Directive.readEntityBody s).map fun (body, rest) => (escape body, escape rest) := by
  have hcut (s : Chars) :=
    @Shelf.cut?_escape "&quot;\x7d".toList (by decide) (by decide) (by decide) s
  have hbody (c : Char) (hc : c ≠ '\n') (s : Chars) : Directive.readEntityBody (c :: s) =
      (Text.cut? "&quot;\x7d".toList s).bind fun (body, tail) =>
        if body.contains '\n' then none else some (c :: body, tail) := by
    rw [Directive.readEntityBody, if_neg hc]
  cases s with
  | nil => rw [Shelf.escape_nil]; rfl
  | cons c cs =>
    rw [Shelf.escape_cons]
    by_cases hopen : c = Shelf.opening
    · subst hopen
      have hclosing : Text.cut? "&quot;\x7d".toList (Shelf.closing :: escape cs) =
          (Text.cut? "&quot;\x7d".toList (escape cs)).map fun (pre, rest) => (Shelf.closing :: pre, rest) := rfl
      rw [if_pos rfl, hbody _ (by decide), hbody _ (by decide), hclosing, hcut]
      cases Text.cut? "&quot;\x7d".toList cs with
      | none => rfl
      | some r =>
        have hbreak : (Shelf.closing :: escape r.1).contains '\n' = r.1.contains '\n' := by
          rw [List.contains_cons, Shelf.contains_escape]
          rfl
        simp only [Option.map_some, Option.bind_some, hbreak]
        split
        · rfl
        · rw [Option.map_some, Shelf.escape_cons, if_pos rfl]
    · by_cases hline : c = '\n'
      · subst hline
        rfl
      · rw [if_neg hopen, hbody _ hline, hbody _ hline, hcut]
        cases Text.cut? "&quot;\x7d".toList cs with
        | none => rfl
        | some r =>
          simp only [Option.map_some, Option.bind_some, Shelf.contains_escape]
          split
          · rfl
          · rw [Option.map_some, Shelf.escape_cons, if_neg hopen]

theorem decodeEntities_escape (s : Chars) : decodeEntities (escape s) = escape (decodeEntities s) := by
  have hreplace (old new : String) (hne : old.toList ≠ []) (hold : IsSpoken old.toList)
      (hnew : IsSpoken new.toList) (s : Chars) :
      Text.replace old.toList new.toList (escape s) = escape (Text.replace old.toList new.toList s) := by
    rw [Recoding.escape_eq, Recoding.escape_eq, Recoding.replace_text _ hne hold hnew]
  simp only [decodeEntities, List.foldl_cons, List.foldl_nil]
  rw [hreplace "&quot;" "\x22", hreplace "&#039;" "'", hreplace "&#39;" "'", hreplace "&apos;" "'",
    hreplace "&lt;" "<", hreplace "&gt;" ">", hreplace "&amp;" "&"]
  all_goals decide +kernel

theorem lower_opening : decide ('a' ≤ Shelf.closing ∧ Shelf.closing ≤ 'z') =
    decide ('a' ≤ Shelf.opening ∧ Shelf.opening ≤ 'z') := by decide

theorem readEntityTag_escape (s : Chars) : Directive.readEntityTag (escape s) =
    (Directive.readEntityTag s).map fun ((name, body), rest) => ((name, escape body), escape rest) := by
  simp only [Directive.readEntityTag, Option.bind_eq_bind, Option.pure_def]
  rw [Shelf.after?_escape (by decide)]
  cases Text.after? "\x7b".toList s with
  | none => rfl
  | some s =>
    have hspan := Shelf.span_escape (p := fun c => decide ('a' ≤ c ∧ c ≤ 'z')) lower_opening s
    have hname : escape (s.takeWhile fun c => decide ('a' ≤ c ∧ c ≤ 'z')) =
        s.takeWhile fun c => decide ('a' ≤ c ∧ c ≤ 'z') :=
      Shelf.escape_eq_self fun hm => absurd (List.mem_takeWhile_imp hm) (by decide)
    simp only [Option.map_some, Option.bind_some, hspan.1, hspan.2, hname]
    split
    · rfl
    · rw [Shelf.after?_escape (by decide), Option.map_bind]
      cases Text.after? "=&quot;".toList (s.dropWhile fun c => decide ('a' ≤ c ∧ c ≤ 'z')) with
      | none => rfl
      | some s =>
        simp only [Option.map_some, Option.bind_some, Function.comp_apply, readEntityBody_escape]
        cases Directive.readEntityBody s <;> rfl

theorem readEntities_escape (s : Chars) :
    readEntities (escape s) = (readEntities s).map fun (out, rest) => (escape out, escape rest) := by
  rw [readEntities, readEntities, readEntityTag_escape]
  cases h : Directive.readEntityTag s with
  | none => rfl
  | some r =>
    obtain ⟨⟨name, body⟩, rest⟩ := r
    have hname : Shelf.opening ∉ name := fun hm => absurd (lower_of_readEntityTag h _ hm) (by decide)
    have hlead : Shelf.opening ∉ '\x7b' :: name ++ "=\x22".toList := by
      rw [List.cons_append, List.mem_cons, List.mem_append, not_or, not_or]
      exact ⟨by decide, hname, by decide⟩
    have htail : escape "\x22\x7d".toList = "\x22\x7d".toList := Shelf.escape_eq_self (by decide)
    simp only [Option.map_some, Shelf.escape_append, htail, decodeEntities_escape]
    rw [← Shelf.escape_append ('\x7b' :: name), Shelf.escape_eq_self hlead]

/-- Real quotes are put into an escaped text as into the text. -/
theorem normalize_escape (s : Chars) : normalize (escape s) = escape (normalize s) := by
  induction hn : s.length using Nat.strongRecOn generalizing s with
  | ind n ih =>
    cases s with
    | nil => rw [Shelf.escape_nil, normalize, Text.substitute_nil, Shelf.escape_nil]
    | cons c cs =>
      rw [List.length_cons] at hn
      have hread := readEntities_escape (c :: cs)
      have hlength {s out rest : Chars} (h : readEntities s = some (out, rest)) : rest.length < s.length := by
        obtain ⟨r, hr, he⟩ := Option.map_eq_some_iff.1 h
        rw [← (Prod.mk.inj he).2]
        exact Directive.tag_readEntityTag.length_lt hr
      cases h : readEntities (c :: cs) with
      | none =>
        have hcs := ih cs.length (by omega) cs rfl
        rw [h, Option.map_none] at hread
        rw [normalize, normalize, Text.substitute_cons_of_none h]
        rw [Shelf.escape_cons] at hread ⊢
        rw [Shelf.escape_cons]
        split
        · rename_i hc
          rw [if_pos hc] at hread
          have hclosing : readEntities (Shelf.closing :: escape cs) = none := rfl
          rw [Text.substitute_cons_of_none hread, Text.substitute_cons_of_none hclosing]
          exact congrArg (fun s => Shelf.opening :: Shelf.closing :: s) hcs
        · rename_i hc
          rw [if_neg hc] at hread
          rw [Text.substitute_cons_of_none hread]
          exact congrArg (List.cons c) hcs
      | some r =>
        obtain ⟨out, rest⟩ := r
        rw [h, Option.map_some] at hread
        have hlen := hlength h
        rw [normalize, normalize, Text.substitute_of_some h hlen, Text.substitute_of_some hread (hlength hread),
          Shelf.escape_append]
        rw [List.length_cons] at hlen
        exact congrArg _ (ih rest.length (by omega) rest rfl)

/-! ## Loop tags in front of the includes -/

/-- The text in which a translation looks for includes. -/
def beforeIncludes (t : Translator) (source : Chars) : Chars :=
  (t.runStages Stage.verbatim.upTo {} (escape source)).1

theorem alike_escape (s : Chars) : Alike (escape s) s := by
  induction s with
  | nil => rw [Shelf.escape_nil]; exact .nil
  | cons c cs ih =>
    rw [Shelf.escape_cons]
    split
    · rename_i hc
      subst hc
      have hpair : Hidden [Shelf.opening, Shelf.closing] :=
        ⟨by simp, List.forall_mem_cons.2 ⟨by decide, List.forall_mem_singleton.2 (by decide)⟩⟩
      have hone : Hidden [Shelf.opening] := ⟨by simp, List.forall_mem_singleton.2 (by decide)⟩
      exact .hidden hpair hone rfl ih
    · exact .cons c ih

theorem alike_beforeIncludes (t : Translator) (source : Chars) : Alike (t.beforeIncludes source) (visible source) := by
  have hstages : Stage.verbatim.upTo = [.entities, .comments, .verbatim] := rfl
  rw [beforeIncludes, hstages, runStages_early, normalize_escape]
  simp only [Pass.runAll]
  exact (((alike_escape (normalize source)).pass t .comment _).pass t .ignored _).pass t .verbatim _

/-- The loop tags in front of the includes are the tags that are checked. -/
theorem scan_beforeIncludes (t : Translator) (source : Chars) :
    LoopTag.scan 1 (t.beforeIncludes source) = loopTags source := by
  rw [loopTags_eq]
  exact scan_eq (t.alike_beforeIncludes source) []

end Translator
end ViewBridge

import ViewBridge.Helper.Call
import ViewBridge.Proofs.Infix
/-!
# Parts between separators

A text is divided at the occurrences of a separator, found from left to right and without overlap. A positive limit
stops the division early, so that the last part keeps what would be divided further; a negative one drops parts from
the end.

Results:
* `not_infix_of_mem_splitOn`: no part has the separator in it.
* `length_splitAtMost`, `dropLast_splitAtMost_prefix`: a division that stops early has the parts of the full one, but
  for its last part.
* `call_explode`, `call_implode_ofTexts`: what the two helpers do with texts.
* `splitLimited_parts`: what the parts are for each limit, and that the helpers undo each other.
-/
namespace ViewBridge.Text

variable {sep s : Chars}

/-! ## The parts of a division -/

theorem splitOn_of_cut?_eq_none (h : cut? sep s = none) : splitOn sep s = [s] := by
  rw [splitOn]
  split
  · rfl
  · split
    · rfl
    · simp_all

theorem splitOn_of_cut?_eq_some (hsep : sep ≠ []) {pre rest : Chars} (h : cut? sep s = some (pre, rest)) :
    splitOn sep s = pre :: splitOn sep rest := by
  rw [splitOn, dif_neg hsep]
  split <;> simp_all

/-- No part has the separator in it. -/
theorem not_infix_of_mem_splitOn (hsep : sep ≠ []) {p : Chars} (h : p ∈ splitOn sep s) : ¬ sep <:+: p := by
  induction hn : s.length using Nat.strongRecOn generalizing s with
  | ind n ih =>
    cases hcut : cut? sep s with
    | none =>
      rw [splitOn_of_cut?_eq_none hcut, List.mem_singleton] at h
      rw [h]
      exact (cut?_eq_none_iff hsep s).1 hcut
    | some found =>
      rw [splitOn_of_cut?_eq_some hsep hcut, List.mem_cons] at h
      rcases h with rfl | h
      · exact not_infix_of_cut? hsep hcut
      · have hlength := cut?_rest_length hcut
        have hpos := List.length_pos_iff.2 hsep
        exact ih found.2.length (by omega) h rfl

/-! ## A division that stops early -/

/-- There are as many parts as the limit allows and the text has. -/
theorem length_splitAtMost (hsep : sep ≠ []) (n : Nat) (s : Chars) :
    (splitAtMost sep n s).length = min (n + 1) (splitOn sep s).length := by
  induction n generalizing s with
  | zero =>
    have hpos := List.length_pos_iff.2 (splitOn_ne_nil sep s)
    rw [splitAtMost, List.length_singleton]
    omega
  | succ n ih =>
    rw [splitAtMost]
    split
    · rename_i hcut
      rw [splitOn_of_cut?_eq_none hcut, List.length_singleton]
      omega
    · rename_i pre rest hcut
      rw [splitOn_of_cut?_eq_some hsep hcut, List.length_cons, List.length_cons, ih]
      omega

/-- All parts but the last one are those of the full division. -/
theorem dropLast_splitAtMost_prefix (hsep : sep ≠ []) (n : Nat) (s : Chars) :
    (splitAtMost sep n s).dropLast <+: splitOn sep s := by
  induction n generalizing s with
  | zero => exact List.nil_prefix
  | succ n ih =>
    rw [splitAtMost]
    split
    · exact List.nil_prefix
    · rename_i pre rest hcut
      rw [splitOn_of_cut?_eq_some hsep hcut, List.dropLast_cons_of_ne_nil (splitAtMost_ne_nil sep n rest)]
      exact List.cons_prefix_cons.2 ⟨rfl, ih rest⟩

/-! ## Limits -/

theorem splitLimited_none (hsep : sep ≠ []) (s : Chars) : splitLimited s sep none = splitOn sep s := if_neg hsep

theorem splitLimited_of_nonneg (hsep : sep ≠ []) {n : Int} (hn : 0 ≤ n) (s : Chars) :
    splitLimited s sep (some n) = splitAtMost sep ((max n 1).toNat - 1) s := by
  rw [splitLimited, if_pos hn, piecesUpTo, if_neg hsep]

theorem splitLimited_of_neg (hsep : sep ≠ []) {n : Int} (hn : n < 0) (s : Chars) :
    splitLimited s sep (some n) = (splitOn sep s).take ((splitOn sep s).length - n.natAbs) := by
  rw [splitLimited, if_neg (by omega)]
  simp only [pieces, if_neg hsep]

end ViewBridge.Text

/-! ## The helpers -/

namespace ViewBridge.Helper

variable (c : HelperContext) (safe : Bool)

/-- The parts of a text at a separator. -/
theorem call_explode {separator : Chars} (h : separator ≠ []) (safe' : Bool) (s : Chars) :
    call c explode [.text safe separator, .text safe' s] = .ok (.ofTexts (Text.splitLimited s separator none)) := by
  have hcut : cutAt separator s none = .ok (.ofTexts (Text.splitLimited s separator none)) := if_neg h
  change Except.map Prod.fst ((cutAt separator s none).bind fun v => .ok (v, ([] : List Value))) = _
  rw [hcut]
  rfl

/-- Texts are joined by a glue that stands in front of them or behind them. -/
theorem call_implode_ofTexts (glue : Chars) (parts : List Chars) :
    call c implode [.text safe glue, .ofTexts parts] = .ok (.ofChars (Text.join glue parts)) ∧
      call c implode [.ofTexts parts, .text safe glue] = .ok (.ofChars (Text.join glue parts)) := by
  have hparts : (parts.map Value.ofChars).map Value.legacyText = parts := by
    rw [List.map_map]
    exact List.map_id parts
  have hjoin : Value.ofChars (Text.join glue ((parts.map Value.ofChars).map Value.legacyText)) =
      .ofChars (Text.join glue parts) := by rw [hparts]
  exact ⟨congrArg Except.ok hjoin, congrArg Except.ok hjoin⟩

end ViewBridge.Helper

namespace ViewBridge.Text

open Helper (call)

/-- The parts of a text at a separator, for each limit:

* without a limit, the parts joined are the text and none of them has the separator in it;
* a limit that is not negative bounds the number of parts, where zero counts as one; all but the last part are parts of
  the full division, and the parts joined are the text;
* a negative limit drops as many parts from the end as it says, or all if there are fewer;
* what the helper that divides makes of a text, the one that joins makes the text of again, in either order of its
  arguments. -/
theorem splitLimited_parts (s sep : Chars) (hsep : sep ≠ []) :
    let parts := splitLimited s sep none
    (join sep parts = s ∧ ∀ p ∈ parts, ¬ sep <:+: p) ∧
    (∀ n : Int, 0 ≤ n →
      let limited := splitLimited s sep (some n)
      limited.length = min (max n 1).toNat parts.length ∧ limited.dropLast <+: parts ∧ join sep limited = s) ∧
    (∀ n : Int, n < 0 → ∃ dropped,
      parts = splitLimited s sep (some n) ++ dropped ∧ dropped.length = min n.natAbs parts.length) ∧
    ∀ c safe safe',
      call c .explode [.text safe sep, .text safe' s] = .ok (.ofTexts parts) ∧
      call c .implode [.text safe sep, .ofTexts parts] = .ok (.ofChars s) ∧
      call c .implode [.ofTexts parts, .text safe sep] = .ok (.ofChars s) := by
  intro parts
  have hparts : parts = splitOn sep s := splitLimited_none hsep s
  have hjoin : join sep parts = s := by rw [hparts, join_splitOn]
  refine ⟨⟨hjoin, fun p hp => not_infix_of_mem_splitOn hsep (hparts ▸ hp)⟩, fun n hn => ?_, fun n hn => ?_,
    fun c safe safe' => ?_⟩
  · simp only [splitLimited_of_nonneg hsep hn, hparts]
    refine ⟨?_, dropLast_splitAtMost_prefix hsep _ s, join_splitAtMost sep _ s⟩
    rw [length_splitAtMost hsep]
    congr 1
    omega
  · rw [splitLimited_of_neg hsep hn, hparts]
    refine ⟨_, (List.take_append_drop _ _).symm, ?_⟩
    rw [List.length_drop]
    omega
  · obtain ⟨hbehind, hfront⟩ := Helper.call_implode_ofTexts c safe sep parts
    rw [hjoin] at hbehind hfront
    exact ⟨Helper.call_explode c safe hsep safe' s, hbehind, hfront⟩

/-- Occurrences that overlap: the first ones count. The limits are two, and the least number of 64 bits. -/
theorem splitLimited_parts_overlapping :
    let s := "aaaaa".toList
    let sep := "aa".toList
    sep ≠ [] ∧ splitLimited s sep none = [[], [], ['a']] ∧
    (splitLimited s sep (some 2)).length = 2 ∧ join sep (splitLimited s sep (some 2)) = s ∧
    ∃ dropped, splitLimited s sep none = splitLimited s sep (some Int64.minValue.toInt) ++ dropped ∧ dropped.length = 3 := by
  intro s sep
  have hsep : sep ≠ [] := by decide
  have hfull : splitLimited s sep none = [[], [], ['a']] := by
    have hfirst : cut? sep s = some ([], "aaa".toList) := by decide
    have hsecond : cut? sep "aaa".toList = some ([], ['a']) := by decide
    have hlast : cut? sep ['a'] = none := by decide
    rw [splitLimited_none hsep, splitOn_of_cut?_eq_some hsep hfirst, splitOn_of_cut?_eq_some hsep hsecond,
      splitOn_of_cut?_eq_none hlast]
  obtain ⟨-, hlimits, hdrops, -⟩ := splitLimited_parts s sep hsep
  obtain ⟨hlength, -, hjoin⟩ := hlimits 2 (by decide)
  obtain ⟨dropped, hdropped, hcount⟩ := hdrops Int64.minValue.toInt (by decide)
  rw [hfull] at hlength hcount
  exact ⟨hsep, hfull, hlength, hjoin, dropped, hdropped, hcount⟩

end ViewBridge.Text

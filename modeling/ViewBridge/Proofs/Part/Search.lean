import ViewBridge.Helper.Call
import ViewBridge.Proofs.Infix
import ViewBridge.Proofs.Part.Position
/-!
# Searching a text

The helper that looks for a text in another one counts characters, but finds its way by bytes: it turns the offset
into the byte that the character there starts at, searches behind that byte, and counts the characters up to the byte
that it found. All these bytes are starts of characters, so what it gives is the first position that the other text
starts at. At the end of a text there is no character and thus no byte to start from: the empty text stands there too,
but is not found.

Results:
* `divideAt?_append`: a text can be divided at the byte that one of its characters starts at.
* `position?_eq`: the search by bytes, over characters.
* `position?_eq_some`, `position?_eq_none_iff`: what is found is the first occurrence.
* `call_strpos_first`: what the helper that searches gives, by the helper that cuts.
-/
namespace ViewBridge.Text

variable {sep s pre rest : Chars}

/-! ## Bytes -/

theorem length_utf8_cons (c : Char) (s : Chars) : (utf8 (c :: s)).length = c.utf8Size + (utf8 s).length := by
  rw [utf8, List.flatMap_cons, List.length_append, String.length_utf8EncodeChar]
  rfl

theorem byteStarts_getElem? (b : Nat) (s : Chars) (n : Nat) :
    (byteStarts b s)[n]? = s[n]?.map fun c => (b + (utf8 (s.take n)).length, c) := by
  induction s generalizing b n with
  | nil => rfl
  | cons c s ih =>
    cases n with
    | zero => rfl
    | succ n =>
      rw [byteStarts, List.getElem?_cons_succ, ih, List.getElem?_cons_succ, List.take_succ_cons, length_utf8_cons,
        Nat.add_assoc]

/-- A text can be divided at the byte that one of its characters starts at. -/
theorem divideAt?_append (pre rest : Chars) : divideAt? (utf8 pre).length (pre ++ rest) = some (pre, rest) := by
  induction pre with
  | nil => rw [List.nil_append, utf8, List.flatMap_nil, List.length_nil, divideAt?]
  | cons c pre ih =>
    have hpos := c.utf8Size_pos
    obtain ⟨b, hb⟩ : ∃ b, (utf8 (c :: pre)).length = b + 1 :=
      Nat.exists_eq_add_one_of_ne_zero (by rw [length_utf8_cons]; omega)
    have hrest : b + 1 - c.utf8Size = (utf8 pre).length := by
      rw [length_utf8_cons] at hb
      omega
    rw [hb, List.cons_append, divideAt?, if_pos (by rw [length_utf8_cons] at hb; omega), hrest, ih]
    rfl

/-! ## The first occurrence -/

/-- The text in front of a cut is the shortest that the separator can follow. -/
theorem not_prefix_drop_of_cut? (h : cut? sep s = some (pre, rest)) {j : Nat} (hj : j < pre.length) :
    ¬ sep <+: s.drop j := by
  induction s generalizing pre rest j with
  | nil =>
    have hs := cut?_eq_some h
    simp_all
  | cons c s ih =>
    rw [cut?] at h
    split at h
    · obtain ⟨rfl, -⟩ := Prod.mk.inj (Option.some.inj h)
      exact absurd hj (Nat.not_lt_zero j)
    · rename_i hnone
      obtain ⟨⟨pre', rest'⟩, hcut, heq⟩ := Option.map_eq_some_iff.1 h
      obtain ⟨rfl, -⟩ := Prod.mk.inj heq
      cases j with
      | zero => exact (after?_eq_none_iff sep (c :: s)).1 hnone
      | succ j => exact ih hcut (Nat.lt_of_succ_lt_succ hj)

theorem not_prefix_drop_of_cut?_eq_none (h : cut? sep s = none) (j : Nat) : ¬ sep <+: s.drop j := by
  have hsep : sep ≠ [] := by
    rintro rfl
    cases s <;> simp [cut?, after?] at h
  exact fun hstart => (cut?_eq_none_iff hsep s).1 h (hstart.isInfix.trans (List.drop_suffix j s).isInfix)

end ViewBridge.Text

namespace ViewBridge.Helper

open Text (part part_eq exactStart exactEnd)

variable {h x : Chars} {o i : Nat}

/-! ## The search -/

/-- The search by bytes, over characters. -/
theorem position?_eq (h x : Chars) (o : Nat) :
    position? h x o =
      if o < h.length then (Text.cut? x (h.drop o)).map fun (before, _) => o + before.length else none := by
  have hstart := Text.byteStarts_getElem? 0 h o
  split
  · rename_i ho
    rw [List.getElem?_eq_getElem ho, Option.map_some, Nat.zero_add] at hstart
    have hbehind := Text.divideAt?_append (h.take o) (h.drop o)
    rw [List.take_append_drop] at hbehind
    cases hcut : Text.cut? x (h.drop o) with
    | none => simp [position?, hstart, hbehind, Text.firstByte?, hcut]
    | some found =>
      obtain ⟨before, rest⟩ := found
      have hfound := Text.divideAt?_append before (x ++ rest)
      rw [← List.append_assoc, ← Text.cut?_eq_some hcut] at hfound
      simp [position?, hstart, hbehind, Text.firstByte?, hcut, hfound]
  · rename_i ho
    rw [List.getElem?_eq_none (Nat.le_of_not_lt ho), Option.map_none] at hstart
    rw [position?, hstart]
    rfl

/-- What is found is the first occurrence behind the offset. -/
theorem position?_eq_some (hi : position? h x o = some i) :
    (o ≤ i ∧ i ≤ h.length) ∧ x <+: h.drop i ∧ ∀ j, o ≤ j → j < i → ¬ x <+: h.drop j := by
  rw [position?_eq] at hi
  split at hi
  · rename_i ho
    obtain ⟨⟨before, rest⟩, hcut, hi⟩ := Option.map_eq_some_iff.1 hi
    obtain rfl : o + before.length = i := hi
    have hsplit := Text.cut?_eq_some hcut
    have hlength := congrArg List.length hsplit
    simp only [List.length_drop, List.length_append] at hlength
    refine ⟨⟨Nat.le_add_right o _, by omega⟩, ⟨rest, ?_⟩, fun j hoj hj => ?_⟩
    · rw [← List.drop_drop, hsplit, List.append_assoc, List.drop_left]
    · have hnot := Text.not_prefix_drop_of_cut? hcut (j := j - o) (by omega)
      rwa [List.drop_drop, Nat.add_sub_cancel' hoj] at hnot
  · cases hi

/-- Nothing is found if nothing occurs behind the offset, and at the end of the text. -/
theorem position?_eq_none_iff (ho : o ≤ h.length) :
    position? h x o = none ↔ (∀ i, o ≤ i → i ≤ h.length → ¬ x <+: h.drop i) ∨ (o = h.length ∧ x = []) := by
  rcases Nat.lt_or_eq_of_le ho with hlt | rfl
  · rw [position?_eq, if_pos hlt, Option.map_eq_none_iff, or_iff_left (fun hend => Nat.ne_of_lt hlt hend.1)]
    refine ⟨fun hcut i hoi _ => ?_, fun hnot => ?_⟩
    · have hnot := Text.not_prefix_drop_of_cut?_eq_none hcut (i - o)
      rwa [List.drop_drop, Nat.add_sub_cancel' hoi] at hnot
    · cases hcut : Text.cut? x (h.drop o) with
      | none => rfl
      | some found =>
        have hi : position? h x o = some (o + found.1.length) := by rw [position?_eq, if_pos hlt, hcut]; rfl
        obtain ⟨⟨hoi, hih⟩, hstart, -⟩ := position?_eq_some hi
        exact absurd hstart (hnot _ hoi hih)
  · rw [position?_eq, if_neg (Nat.lt_irrefl _)]
    refine iff_of_true rfl ?_
    by_cases hx : x = []
    · exact .inr ⟨rfl, hx⟩
    · refine .inl fun i hi hih => ?_
      rw [Nat.le_antisymm hih hi, List.drop_length, List.prefix_nil]
      exact hx

/-! ## The helpers -/

variable (c : HelperContext) (v w : Value)

/-- The part of a text from a position on. -/
theorem call_substr {i : Nat} (hlen : v.legacyText.length < 2 ^ 63) (hi : i ≤ v.legacyText.length) :
    call c substr [v, .ofNat i] = .ok (.ofChars (v.legacyText.drop i)) := by
  have hfits : int64Min ≤ (i : Int) ∧ (i : Int) ≤ int64Max := by
    unfold int64Min int64Max
    simp only [Nat.pow_eq]
    omega
  have harg : Arguments.int64 (.ofNat i) = .ok (i : Int) := by
    simp only [Arguments.int64, Arguments.integer, Value.ofNat, Value.bounded?, if_pos hfits]
  have hpart : part v.legacyText i none = v.legacyText.drop i := by
    have hpart := part_eq hlen (.ofNat i) none
    rw [Int64.toInt_ofNat_of_lt (by omega)] at hpart
    rw [Option.map_none] at hpart
    rw [hpart, exactStart, if_neg (by omega), exactEnd, min_eq_left (by omega), Int.toNat_natCast, Int.toNat_natCast,
      List.take_length]
  rw [← hpart]
  change Except.map Prod.fst ((Except.map (fun a => (a, ([] : List Value))) (Arguments.int64 (.ofNat i))).bind _) = _
  rw [harg]
  rfl

/-- The search of a text in another one. -/
theorem call_strpos {o : Nat} (ho : o < 2 ^ 64) :
    call c strpos [v, w, .ofNat o] = .ok (match position? v.legacyText w.legacyText o with
      | some i => .ofNat i
      | Option.none => .bool false) := by
  have hfits : 0 ≤ (o : Int) ∧ (o : Int) ≤ (Nat.pow 2 64 - 1 : Nat) := by
    simp only [Nat.pow_eq]
    omega
  have harg : Arguments.natural 64 (.ofNat o) = .ok o := by
    simp only [Arguments.natural, Arguments.integer, Value.ofNat, Value.bounded?]
    rw [if_pos (by simpa using hfits)]
    rfl
  change Except.map Prod.fst ((Except.map (fun a => (some a, ([] : List Value))) (Arguments.natural 64 (.ofNat o))).bind _) = _
  rw [harg]
  rfl

/-- What the helper that cuts texts gives of a value from a position on starts with the text of another one. -/
def StartsAt (i : Nat) : Prop := ∃ t, call c substr [v, .ofNat i] = .ok (.ofChars t) ∧ w.legacyText <+: t

theorem startsAt_iff {i : Nat} (hlen : v.legacyText.length < 2 ^ 63) (hi : i ≤ v.legacyText.length) :
    StartsAt c v w i ↔ w.legacyText <+: v.legacyText.drop i := by
  refine ⟨?_, fun hstart => ⟨_, call_substr c v hlen hi, hstart⟩⟩
  rintro ⟨t, ht, hstart⟩
  rw [call_substr c v hlen hi, Except.ok.injEq, Value.ofChars, Value.ofChars, Value.text.injEq] at ht
  rwa [ht.2]

/-- The helper that searches gives a position or false, for every offset in the text or at its end:

* a position is the first one from the offset on where the part of the text starts with the other text;
* false means that there is no such position up to the end of the text, except that the empty text is not found at
  the end, where there is such a position. -/
theorem call_strpos_first {o : Nat} (hlen : v.legacyText.length < 2 ^ 63) (ho : o ≤ v.legacyText.length) :
    let answer := call c strpos [v, w, .ofNat o]
    ((∃ i, answer = .ok (.ofNat i)) ∨ answer = .ok (.bool false)) ∧
    (∀ i, answer = .ok (.ofNat i) →
      (o ≤ i ∧ i ≤ v.legacyText.length) ∧ StartsAt c v w i ∧ ∀ j, o ≤ j → j < i → ¬ StartsAt c v w j) ∧
    (answer = .ok (.bool false) ↔
      (∀ i, o ≤ i → i ≤ v.legacyText.length → ¬ StartsAt c v w i) ∨
        (o = v.legacyText.length ∧ w.legacyText = [])) := by
  intro answer
  have hanswer : answer = .ok (match position? v.legacyText w.legacyText o with
      | some i => .ofNat i
      | Option.none => .bool false) := call_strpos c v w (by omega)
  have hnone := position?_eq_none_iff (x := w.legacyText) ho
  cases hfound : position? v.legacyText w.legacyText o with
  | none =>
    rw [hfound] at hanswer
    refine ⟨.inr hanswer, fun i hi => ?_, iff_of_true hanswer ?_⟩
    · rw [hanswer] at hi
      cases hi
    · refine (hnone.1 hfound).imp (fun hnot i hoi hi => ?_) id
      rw [startsAt_iff c v w hlen hi]
      exact hnot i hoi hi
  | some k =>
    rw [hfound] at hanswer
    obtain ⟨⟨hok, hk⟩, hstart, hfirst⟩ := position?_eq_some hfound
    refine ⟨.inl ⟨k, hanswer⟩, fun i hi => ?_, iff_of_false ?_ fun hnot => ?_⟩
    · obtain rfl : k = i := Int.ofNat.inj (Value.int.inj (Except.ok.inj (hanswer.symm.trans hi)))
      refine ⟨⟨hok, hk⟩, (startsAt_iff c v w hlen hk).2 hstart, fun j hoj hj => ?_⟩
      rw [startsAt_iff c v w hlen (by omega)]
      exact hfirst j hoj hj
    · rw [hanswer]
      rintro ⟨⟩
    · have hempty := hnone.2 (hnot.imp (fun hnot i hoi hi => by
        rw [← startsAt_iff c v w hlen hi]
        exact hnot i hoi hi) id)
      rw [hfound] at hempty
      cases hempty

/-- Letters of two bytes stand in front of what is found. At the end of the text the empty text is not found, though the
part from there on starts with it. -/
theorem call_strpos_first_tilde :
    let c : HelperContext := { constants := [], extension := [], now := ⟨0, 0⟩ }
    let v := Value.ofChars "año año".toList
    (v.legacyText.length < 2 ^ 63 ∧ 2 ≤ v.legacyText.length ∧ 7 ≤ v.legacyText.length) ∧
    (StartsAt c v (.ofChars "ño".toList) 5 ∧ ¬ StartsAt c v (.ofChars "ño".toList) 3) ∧
    call c strpos [v, .ofChars [], .ofNat 7] = .ok (.bool false) ∧ StartsAt c v (.ofChars []) 7 := by
  intro c v
  have hlen : v.legacyText.length < 2 ^ 63 := by decide
  have hanswer : call c strpos [v, .ofChars "ño".toList, .ofNat 2] = .ok (.ofNat 5) :=
    call_strpos c v (.ofChars "ño".toList) (by decide)
  obtain ⟨-, hfirst, -⟩ := call_strpos_first c v (.ofChars "ño".toList) hlen (o := 2) (by decide)
  obtain ⟨-, hstart, hnot⟩ := hfirst 5 hanswer
  obtain ⟨-, -, hfalse⟩ := call_strpos_first c v (.ofChars []) hlen (o := 7) (by decide)
  exact ⟨⟨hlen, by decide, by decide⟩, ⟨hstart, hnot 3 (by decide) (by decide)⟩, hfalse.2 (.inr ⟨rfl, rfl⟩),
    (startsAt_iff c v (.ofChars []) hlen (by decide)).2 List.nil_prefix⟩

end ViewBridge.Helper

import ViewBridge.Proofs.Number.Whole
/-!
# Integers and their texts

A number and its decimal text are two ways to the same integer. A number that does not fit 64 bits takes a detour
through a double, which ends at the nearest bound; a text is read up to the first character that is no digit, and
counts as zero if what was read does not fit.

Results:
* `clamp_ofInt`: the detour through a double.
* `leadingInt_append`: what is read of a text that starts with an integer.
* `toInt_int_and_text`: both ways, which agree for the integers of 64 bits and for no others.
-/
namespace ViewBridge

/-! ## Numbers -/

namespace Binary

variable {n : ℤ}

/-- The detour through a double ends at the bound that is nearest. -/
theorem clamp_ofInt (hn : n < int64Min ∨ int64Max < n) :
    clamp int64Min int64Max (ofFloat (ofInt n)) = if n < 0 then int64Min else int64Max := by
  have hmin : int64Min = -2 ^ 63 := rfl
  have hmax : int64Max = 2 ^ 63 - 1 := rfl
  have hover : 2 ^ 63 ≤ n.natAbs := by omega
  rw [ofInt, nearest_eq _ _ Nat.one_pos, Nat.cast_one, div_one]
  rcases Nat.lt_or_ge (pattern n.natAbs) infinity with hlt | hge
  · obtain ⟨k, hk⟩ := exists_value_pattern_natCast n.natAbs
    have hkge : 2 ^ 63 ≤ k := by
      have hmono := value_pattern_natCast_mono hover
      rw [value_pattern_two_pow, hk] at hmono
      exact_mod_cast hmono
    have hclamp := truncate?_ofMagnitude hk (n < 0) hlt
    rw [min_eq_right hlt.le]
    rw [ofFloat_ofMagnitude _ hlt] at hclamp ⊢
    rw [clamp, hclamp, Option.getD_some]
    simp only [decide_eq_true_eq]
    split <;> omega
  · rw [min_eq_left hge, ofFloat_infinity, clamp]
    simp only [decide_eq_true_eq]

end Binary

namespace Value

/-- A number as an integer of 64 bits is the nearest one. -/
theorem toInt_int (n : ℤ) : toInt (.int n) = max int64Min (min int64Max n) := by
  have hmin : int64Min = -2 ^ 63 := rfl
  have hmax : int64Max = 2 ^ 63 - 1 := rfl
  rw [toInt]
  split
  · omega
  · rw [Binary.clamp_ofInt (by omega)]
    split <;> omega

end Value

/-! ## Texts -/

theorem exists_ofNat_eq_cons (n : ℕ) : ∃ d ds, Text.ofNat n = d :: ds ∧ Text.isDigit d = true := by
  have hne : Text.ofNat n ≠ [] := Nat.toDigits_ne_nil
  obtain ⟨d, ds, hds⟩ := List.exists_cons_of_ne_nil hne
  exact ⟨d, ds, hds, Shelf.isDigit_of_mem_ofNat (n := n) (hds ▸ List.mem_cons_self)⟩

theorem ne_sign_of_isDigit {d : Char} (hd : Text.isDigit d = true) : d ≠ '-' ∧ d ≠ '+' := by
  constructor <;> rintro rfl <;> revert hd <;> decide

theorem readInt?_ofInt (lo hi n : ℤ) : readInt? lo hi (Text.ofInt n) = if lo ≤ n ∧ n ≤ hi then some n else none := by
  have hall (m : ℕ) : Text.ofNat m ≠ [] ∧ (Text.ofNat m).all Text.isDigit = true :=
    ⟨Nat.toDigits_ne_nil, List.all_eq_true.2 fun _ => Shelf.isDigit_of_mem_ofNat⟩
  cases n with
  | ofNat m =>
    have hsign : takeSign (Text.ofNat m) = (false, Text.ofNat m) := by
      obtain ⟨d, ds, hds, hd⟩ := exists_ofNat_eq_cons m
      have hne := ne_sign_of_isDigit hd
      rw [hds]
      unfold takeSign
      split
      · rename_i heq
        exact absurd (List.cons.inj heq).1 hne.1
      · rename_i heq
        exact absurd (List.cons.inj heq).1 hne.2
      · rfl
    rw [Text.ofInt, readInt?, hsign]
    simp only [if_pos (hall m), Shelf.digitsValue_ofNat, Bool.false_eq_true, if_false]
    rfl
  | negSucc m =>
    rw [Text.ofInt, readInt?, takeSign]
    simp only [if_pos (hall (m + 1)), Shelf.digitsValue_ofNat, if_true]
    rfl

section
variable {tail : Chars} (htail : ∀ c ∈ tail.head?, Text.isDigit c = false)
include htail

/-- Digits are read up to what is none. -/
theorem takeWhile_ofNat_append (n : ℕ) : (Text.ofNat n ++ tail).takeWhile Text.isDigit = Text.ofNat n := by
  have hstop : tail.takeWhile Text.isDigit = [] := by
    cases tail with
    | nil => rfl
    | cons c tail => exact List.takeWhile_cons_of_neg (by rw [htail c rfl]; exact Bool.false_ne_true)
  rw [List.takeWhile_append_of_pos fun _ => Shelf.isDigit_of_mem_ofNat, hstop, List.append_nil]

/-- What is read of a text that starts with an integer: that integer, if it fits. -/
theorem leadingInt_append {blanks : Chars} (hblanks : ∀ c ∈ blanks, Text.isBlank c = true) (n : ℤ) :
    leadingInt (blanks ++ Text.ofInt n ++ tail) = if int64Min ≤ n ∧ n ≤ int64Max then n else 0 := by
  have hread : (readInt64? (Text.ofInt n)).getD 0 = if int64Min ≤ n ∧ n ≤ int64Max then n else 0 := by
    rw [readInt64?, readInt?_ofInt]
    split <;> rfl
  rw [leadingInt, List.append_assoc, List.dropWhile_append_of_pos hblanks, ← hread]
  cases n with
  | ofNat m =>
    obtain ⟨d, ds, hds, hd⟩ := exists_ofNat_eq_cons m
    have hblank : Text.isBlank d = false := Expression.isBlank_of_isNameChar (by rw [Text.isNameChar, hd, Bool.or_true])
    have hsign : (d == '-' || d == '+') = false := by
      rw [Bool.or_eq_false_iff, beq_eq_false_iff_ne, beq_eq_false_iff_ne]
      exact ne_sign_of_isDigit hd
    have hdrop : (Text.ofNat m ++ tail).dropWhile Text.isBlank = Text.ofNat m ++ tail := by
      rw [hds, List.cons_append, List.dropWhile_cons_of_neg (by rw [hblank]; exact Bool.false_ne_true)]
    have hnone : (Text.ofNat m ++ tail).takeWhile (fun c => c == '-' || c == '+') = [] := by
      rw [hds, List.cons_append, List.takeWhile_cons_of_neg (by rw [hsign]; exact Bool.false_ne_true)]
    simp only [Text.ofInt, hdrop, hnone, List.take_nil, List.length_nil, List.drop_zero, List.nil_append,
      takeWhile_ofNat_append htail]
  | negSucc m =>
    have hdrop : ('-' :: (Text.ofNat (m + 1) ++ tail)).dropWhile Text.isBlank = '-' :: (Text.ofNat (m + 1) ++ tail) :=
      rfl
    have hsign : (('-' :: (Text.ofNat (m + 1) ++ tail)).takeWhile fun c => c == '-' || c == '+').take 1 = ['-'] := rfl
    simp only [Text.ofInt, List.cons_append, hdrop, hsign, List.length_singleton, List.drop_one, List.tail_cons,
      List.nil_append, takeWhile_ofNat_append htail]

end

/-! ## Both ways -/

namespace Value

/-- Numbers are held within the bounds of 64 bits, and texts that start with an integer beyond them count as zero: the
two ways agree exactly for the integers that fit. -/
theorem toInt_int_and_text (n : ℤ) (safe : Bool) {blanks tail : Chars} (hblanks : ∀ c ∈ blanks, Text.isBlank c = true)
    (htail : ∀ c ∈ tail.head?, Text.isDigit c = false) :
    toInt (.int n) = max int64Min (min int64Max n) ∧
    toInt (.text safe (blanks ++ Text.ofInt n ++ tail)) = (if int64Min ≤ n ∧ n ≤ int64Max then n else 0) ∧
    (toInt (.int n) = toInt (.text safe (blanks ++ Text.ofInt n ++ tail)) ↔ int64Min ≤ n ∧ n ≤ int64Max) := by
  have htext : toInt (.text safe (blanks ++ Text.ofInt n ++ tail)) =
      if int64Min ≤ n ∧ n ≤ int64Max then n else 0 := leadingInt_append htail hblanks n
  refine ⟨toInt_int n, htext, ?_⟩
  have hmin : int64Min = -2 ^ 63 := rfl
  have hmax : int64Max = 2 ^ 63 - 1 := rfl
  rw [toInt_int, htext]
  split <;> omega

/-- One more than the greatest integer of 64 bits. -/
theorem toInt_int_and_text_overflow :
    (∀ c ∈ [' '], Text.isBlank c = true) ∧ (∀ c ∈ ['p', 'x'].head?, Text.isDigit c = false) ∧
    toInt (.int 9223372036854775808) = 9223372036854775807 ∧
    toInt (.ofChars " 9223372036854775808px".toList) = 0 := by
  have hblanks : ∀ c ∈ [' '], Text.isBlank c = true := List.forall_mem_singleton.2 rfl
  have htail : ∀ c ∈ ['p', 'x'].head?, Text.isDigit c = false := fun _ hc => Option.some.inj hc ▸ rfl
  have hspelled : " 9223372036854775808px".toList = [' '] ++ Text.ofInt 9223372036854775808 ++ ['p', 'x'] := by
    decide +kernel
  obtain ⟨hnumber, htext, -⟩ := toInt_int_and_text 9223372036854775808 false hblanks htail
  rw [hspelled]
  exact ⟨hblanks, htail, hnumber, htext⟩

end Value

end ViewBridge

import Mathlib.Algebra.Group.Nat.Defs
import Mathlib.Order.Lattice
import ViewBridge.Text.Part
/-!
# Parts between positions

An offset and a length are 64-bit integers, and the positions that they mean are computed with sums that stay in that
range. Compared with the same rules over all integers, no sum is off where it counts: a sum with a negative number
cannot leave the range, and one with a length leaves it only where the end of the text comes first.

Results:
* `toInt_startOf`, `toInt_endOf`: the positions are those over all integers.
* `between?_eq_some`: positions of the text have their characters between them.
* `part_exact`: a part has the characters between the two positions, and an offset divides a text in two parts.
-/
namespace ViewBridge.Text

/-! ## Positions over all integers -/

/-- The position that an offset means in a text of `n` characters. -/
def exactStart (n start : Int) : Int := if start < 0 then max (n + start) 0 else min start n

/-- The position where a part ends that starts at `b` and has the given length. -/
def exactEnd (n b : Int) : Option Int → Int
  | none => n
  | some l => if l < 0 then max (n + l) b else min (b + l) n

theorem exactStart_mem {n : Int} (hn : 0 ≤ n) (start : Int) : 0 ≤ exactStart n start ∧ exactStart n start ≤ n := by
  unfold exactStart
  split <;> omega

theorem exactEnd_mem {n b : Int} (hb : b ≤ n) (length : Option Int) :
    b ≤ exactEnd n b length ∧ exactEnd n b length ≤ n := by
  cases length with
  | none => exact ⟨hb, le_refl n⟩
  | some l =>
    unfold exactEnd
    split <;> omega

theorem exactStart_zero {n : Int} (hn : 0 ≤ n) : exactStart n 0 = 0 := by
  rw [exactStart, if_neg (lt_irrefl 0), min_eq_left hn]

/-- A number as a length, counted from the start, ends where it starts as an offset. -/
theorem exactEnd_zero (n k : Int) : exactEnd n 0 (some k) = exactStart n k := by
  rw [exactEnd, exactStart, Int.zero_add]

/-! ## Positions of 64 bits -/

section
variable {a b n : Int64}

theorem toInt_max (a b : Int64) : (max a b).toInt = max a.toInt b.toInt := by
  rw [show max a b = if a ≤ b then b else a from rfl]
  split <;> rename_i h <;> rw [Int64.le_iff_toInt_le] at h <;> omega

theorem toInt_min (a b : Int64) : (min a b).toInt = min a.toInt b.toInt := by
  rw [show min a b = if a ≤ b then a else b from rfl]
  split <;> rename_i h <;> rw [Int64.le_iff_toInt_le] at h <;> omega

/-- A sum of opposite signs stays in the range. -/
theorem toInt_saturatingAdd_of_neg (ha : 0 ≤ a.toInt) (hb : b.toInt < 0) :
    (saturatingAdd a b).toInt = a.toInt + b.toInt := by
  have hmin := Int64.le_toInt b
  have hmax := Int64.toInt_lt a
  refine Int64.toInt_ofIntClamp ?_ ?_
  · rw [Int64.toInt_minValue]
    omega
  · rw [Int64.toInt_maxValue]
    omega

/-- A sum that leaves the range lies behind each number of the range, and so does the end of the range. -/
theorem min_toInt_saturatingAdd (ha : 0 ≤ a.toInt) (hb : 0 ≤ b.toInt) (n : Int64) :
    min (saturatingAdd a b).toInt n.toInt = min (a.toInt + b.toInt) n.toInt := by
  have hn := Int64.toInt_le n
  by_cases hfits : a.toInt + b.toInt ≤ Int64.maxValue.toInt
  · rw [saturatingAdd, Int64.toInt_ofIntClamp (by rw [Int64.toInt_minValue]; omega) hfits]
  · have hlow : Int64.minValue.toInt ≤ a.toInt + b.toInt := by rw [Int64.toInt_minValue]; omega
    rw [saturatingAdd, Int64.ofIntClamp, dif_pos hlow, dif_neg hfits]
    omega

theorem toInt_startOf (hn : 0 ≤ n.toInt) (start : Int64) :
    (startOf n start).toInt = exactStart n.toInt start.toInt := by
  unfold startOf exactStart
  simp only [Int64.lt_iff_toInt_lt, Int64.toInt_zero]
  split
  · rename_i hstart
    rw [toInt_max, toInt_saturatingAdd_of_neg hn hstart, Int64.toInt_zero]
  · exact toInt_min start n

theorem toInt_endOf (hn : 0 ≤ n.toInt) (hb : 0 ≤ b.toInt) (length : Option Int64) :
    (endOf n b length).toInt = exactEnd n.toInt b.toInt (length.map Int64.toInt) := by
  cases length with
  | none => rfl
  | some l =>
    unfold endOf exactEnd
    simp only [Option.map_some, Int64.lt_iff_toInt_lt, Int64.toInt_zero]
    split
    · rename_i hl
      rw [toInt_max, toInt_saturatingAdd_of_neg hn hl]
    · rename_i hl
      rw [toInt_min, min_toInt_saturatingAdd hb (by omega) n]

/-- Positions of a text have their characters between them. -/
theorem between?_eq_some {s : Chars} (hb : 0 ≤ a.toInt) (he : a.toInt ≤ b.toInt) (hs : b.toInt ≤ s.length) :
    between? s a b = some ((s.take b.toInt.toNat).drop a.toInt.toNat) := by
  have toNat_eq (x : Int64) (hx : 0 ≤ x.toInt) : x.toUInt64.toNat = x.toInt.toNat :=
    Int64.toNat_toUInt64_of_le (by rwa [Int64.le_iff_toInt_le])
  simp only [between?]
  rw [toNat_eq a hb, toNat_eq b (by omega), if_pos (by omega)]

end

section
variable {s : Chars} (hs : s.length < 2 ^ 63) (start : Int64) (length : Option Int64)
include hs

/-- The positions of a part of a text are those over all integers. -/
theorem toInt_positions :
    (startOf (.ofNat s.length) start).toInt = exactStart s.length start.toInt ∧
      (endOf (.ofNat s.length) (startOf (.ofNat s.length) start) length).toInt =
        exactEnd s.length (exactStart s.length start.toInt) (length.map Int64.toInt) := by
  have hn : (Int64.ofNat s.length).toInt = s.length := Int64.toInt_ofNat_of_lt hs
  have hstart := toInt_startOf (n := .ofNat s.length) (by omega) start
  have hmem := exactStart_mem (n := s.length) (by omega) start.toInt
  rw [hn] at hstart
  have hend := toInt_endOf (n := .ofNat s.length) (b := startOf (.ofNat s.length) start) (by omega) (by omega) length
  rw [hn, hstart] at hend
  exact ⟨hstart, hend⟩

/-- A part of a text is always there: it has the characters between its positions. -/
theorem part?_eq_some :
    part? s start length =
      some ((s.take (exactEnd s.length (exactStart s.length start.toInt) (length.map Int64.toInt)).toNat).drop
        (exactStart s.length start.toInt).toNat) := by
  obtain ⟨hstart, hend⟩ := toInt_positions hs start length
  obtain ⟨hb, hbn⟩ := exactStart_mem (n := s.length) (by omega) start.toInt
  obtain ⟨hbe, hen⟩ := exactEnd_mem hbn (length.map Int64.toInt)
  simp only [part?, Int64.le_iff_toInt_le]
  split
  · rename_i hle
    rw [List.drop_eq_nil_of_le (by rw [List.length_take]; omega)]
  · rw [between?_eq_some (by omega) (by omega) (by omega), hstart, hend]

theorem part_eq :
    part s start.toInt (length.map Int64.toInt) =
      (s.take (exactEnd s.length (exactStart s.length start.toInt) (length.map Int64.toInt)).toNat).drop
        (exactStart s.length start.toInt).toNat := by
  have hlength : (length.map Int64.toInt).map Int64.ofInt = length := by cases length <;> simp
  rw [part, Int64.ofInt_toInt, hlength, part?_eq_some hs, Option.getD_some]

end

/-- A part of a text has the characters between two positions:

* both positions are what the rules for offsets and lengths give over all integers, for every offset and length of
  64 bits; they are in order and in the text, so there is always a part, and it has the characters between them;
* each number divides a text in two parts: one of that length, and one from that offset on. -/
theorem part_exact (s : Chars) (hs : s.length < 2 ^ 63) :
    (∀ start length,
      let b := startOf (.ofNat s.length) start
      let e := endOf (.ofNat s.length) b length
      b.toInt = exactStart s.length start.toInt ∧
      e.toInt = exactEnd s.length (exactStart s.length start.toInt) (length.map Int64.toInt) ∧
      (0 ≤ b.toInt ∧ b.toInt ≤ e.toInt ∧ e.toInt ≤ s.length) ∧
      part? s start length = some (part s start.toInt (length.map Int64.toInt)) ∧
      part s start.toInt (length.map Int64.toInt) = (s.take e.toInt.toNat).drop b.toInt.toNat) ∧
    ∀ k : Int64, part s 0 (some k.toInt) ++ part s k.toInt none = s := by
  refine ⟨fun start length => ?_, fun k => ?_⟩
  · obtain ⟨hstart, hend⟩ := toInt_positions hs start length
    obtain ⟨hb, hbn⟩ := exactStart_mem (n := s.length) (by omega) start.toInt
    obtain ⟨hbe, hen⟩ := exactEnd_mem hbn (length.map Int64.toInt)
    refine ⟨hstart, hend, ⟨by omega, by omega, by omega⟩, ?_, ?_⟩
    · rw [part?_eq_some hs, part_eq hs]
    · rw [part_eq hs, hstart, hend]
  · have hfront := part_eq hs 0 (some k)
    have hback := part_eq hs k none
    have hend (b : Int) : (exactEnd s.length b none).toNat = s.length := Int.toNat_natCast s.length
    rw [Option.map_some, Int64.toInt_zero, exactStart_zero (by omega), exactEnd_zero] at hfront
    rw [Option.map_none, hend, List.take_length] at hback
    rw [hfront, hback]
    exact List.take_append_drop _ s

/-- The offset and the length are the ends of their range: the part is the whole text. A negative number divides the
text in front of its end. -/
theorem part_exact_ends :
    let s := "factura".toList
    s.length < 2 ^ 63 ∧ part? s Int64.minValue (some Int64.maxValue) = some s ∧
    part s 0 (some (-3)) ++ part s (-3) none = s := by
  intro s
  have hs : s.length < 2 ^ 63 := by decide
  obtain ⟨hparts, hhalves⟩ := part_exact s hs
  obtain ⟨-, -, -, hpart, -⟩ := hparts Int64.minValue (some Int64.maxValue)
  exact ⟨hs, hpart.trans (by decide), hhalves (-3)⟩

end ViewBridge.Text

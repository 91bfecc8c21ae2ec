import ViewBridge.Helper.Call
import ViewBridge.Proofs.Number.Leading
/-!
# Keys of collections

A loop visits the positions of a sequence and the keys of a map, and counting counts them. Whether there is a key is
asked in another way: of a sequence, with the integer that the key stands for, as the keys of legacy arrays are; of a
map, with the lookup of the map itself, which orders keys by kind first, and which takes an undefined value for none.

Results:
* `pairs_keys`: a loop visits the keys that are listed, and no others.
* `toInt_of_standsFor`: the integer that a key stands for, within the bounds of 64 bits.
* `cmp_eq_iff_same`: but for doubles and collections, two keys are in one place of the order if they are of one kind and
  equal.
* `call_arrayKeyExists`: when there is a key, and how many there are.
* `not_forall_arrayKeyExists_same`: a text that is no key, and counts as one.
-/
namespace ViewBridge

open Value

/-! ## The keys that are listed -/

namespace Value

variable {a k key : Value} {ks items : List Value} {ms : List (Value × Value)} {i : ℤ} {x : Float}

theorem mem_zipWith_pairOf_iff {vs : List Value} (h : ks.length = vs.length) :
    (∃ v, pairOf key v ∈ List.zipWith pairOf ks vs) ↔ key ∈ ks := by
  have hpair (k v v' : Value) : pairOf key v = pairOf k v' ↔ key = k ∧ v = v' := by simp [pairOf]
  induction ks generalizing vs with
  | nil => simp
  | cons k ks ih =>
    cases vs with
    | nil => cases h
    | cons v vs =>
      simp only [List.zipWith_cons_cons, List.mem_cons, hpair, exists_or, ih (Nat.succ.inj h), exists_and_left,
        exists_eq, and_true]

/-- A loop visits the keys that are listed, and no others. -/
theorem pairs_keys (hks : a.keys = .ok ks) :
    ∃ ps, a.pairs = .ok ps ∧ ∀ key, key ∈ ks ↔ ∃ v, pairOf key v ∈ ps := by
  obtain ⟨vs, hvs⟩ : ∃ vs, a.values = .ok vs := by
    cases a <;> first | exact ⟨_, rfl⟩ | cases hks
  refine ⟨List.zipWith pairOf ks vs, by rw [pairs, hks, hvs]; rfl, fun key => ?_⟩
  rw [mem_zipWith_pairOf_iff (keys_length hks hvs)]

theorem mem_positions_iff {n : ℕ} : key ∈ positions n ↔ ∃ j < n, key = .int j := by
  simp only [positions, List.mem_map, List.mem_range, ofNat, eq_comm]

/-! ## Keys of sequences -/

/-- The integer that a key is: an integer or a truth value is one, and so is a whole double. -/
inductive IsInteger : Value → ℤ → Prop
  | int (n : ℤ) : IsInteger (.int n) n
  | bool (b : Bool) : IsInteger (.bool b) (ofBit b)
  | float {x : Float} {i : ℤ} (h : Binary.toInt? (Binary.ofFloat x) = some i) : IsInteger (.float x) i

/-- The integer that a key of a sequence stands for: that which it is, the integer part of a double, or the integer that
a text is the decimal form of. -/
inductive StandsFor : Value → ℤ → Prop
  | integer {k : Value} {i : ℤ} (h : IsInteger k i) : StandsFor k i
  | part {x : Float} {i : ℤ} (h : Binary.truncate? (Binary.ofFloat x) = some i) : StandsFor (.float x) i
  | text (safe : Bool) {i : ℤ} (hmin : int64Min ≤ i) (hmax : i ≤ int64Max) : StandsFor (.text safe (Text.ofInt i)) i

theorem clamp_of_truncate? {b : Binary} (h : b.truncate? = some i) :
    Binary.clamp int64Min int64Max b = max int64Min (min int64Max i) := by
  cases b with
  | nan => cases h
  | infinite neg => cases h
  | finite neg m q => rw [Binary.clamp, h, Option.getD_some]

/-- A whole number has a magnitude that its unit divides. -/
theorem exists_finite_of_toInt? {b : Binary} (h : b.toInt? = some i) :
    ∃ neg m q n, b = .finite neg m q ∧ m * Nat.pow 2 q.toNat = n * Nat.pow 2 (-q).toNat ∧
      i = if neg then -(n : ℤ) else n := by
  cases b with
  | nan => cases h
  | infinite neg => cases h
  | finite neg m q =>
    simp only [Binary.toInt?, Option.ite_none_right_eq_some, Option.some.injEq] at h
    exact ⟨neg, m, q, _, rfl, (Nat.div_mul_cancel (Nat.dvd_of_mod_eq_zero h.1)).symm, h.2.symm⟩

theorem truncate?_of_toInt? {b : Binary} (h : b.toInt? = some i) : b.truncate? = some i := by
  obtain ⟨neg, m, q, n, rfl, hmul, rfl⟩ := exists_finite_of_toInt? h
  have hunit : 0 < Nat.pow 2 (-q).toNat := Nat.pow_pos (by decide)
  rw [Binary.truncate?, hmul, Nat.mul_div_cancel n hunit]

/-- The integer that a key stands for, within the bounds of 64 bits. -/
theorem toInt_of_standsFor (h : StandsFor k i) : k.toInt = max int64Min (min int64Max i) := by
  have hmin : int64Min = -2 ^ 63 := rfl
  have hmax : int64Max = 2 ^ 63 - 1 := rfl
  cases h with
  | integer h =>
    cases h with
    | int => exact toInt_int i
    | bool b => cases b <;> rfl
    | float h => exact clamp_of_truncate? (truncate?_of_toInt? h)
  | part h => exact clamp_of_truncate? h
  | text safe hlo hhi =>
    have hread : leadingInt ([] ++ Text.ofInt i ++ []) = i := by
      rw [leadingInt_append (fun _ h => by cases h) (fun _ h => by cases h) i, if_pos ⟨hlo, hhi⟩]
    rw [List.append_nil, List.nil_append] at hread
    rw [toInt, hread]
    omega

/-- A key that is an integer equals what the integer equals. -/
theorem same_of_isInteger (h : IsInteger k i) (j : ℤ) : same k (.int j) = same (.int i) (.int j) := by
  cases h with
  | int | bool _ => rfl
  | float h =>
    obtain ⟨neg, m, q, n, hx, hmul, rfl⟩ := exists_finite_of_toInt? h
    have hpos : 0 < Nat.pow 2 (-q).toNat := Nat.pow_pos (by decide)
    have hunit : (Nat.pow 2 (-q).toNat : ℤ) ≠ 0 := by exact_mod_cast hpos.ne'
    have hscaled : (if neg then -((n * Nat.pow 2 (-q).toNat : ℕ) : ℤ) else ((n * Nat.pow 2 (-q).toNat : ℕ) : ℤ)) =
        (if neg then -(n : ℤ) else n) * (Nat.pow 2 (-q).toNat : ℤ) := by
      cases neg <;> simp
    simp only [same, numeric?, Numeric.same, Numeric.sameIntFloat, hx, Binary.cmpInt, hmul, hscaled]
    rw [Bool.eq_iff_iff, beq_iff_eq, beq_iff_eq, compare_eq_iff_eq, mul_left_inj' hunit]

/-- The integer equals a position exactly if it is one. -/
theorem same_position_iff {n : ℕ} : (∃ key ∈ positions n, same (.int i) key = true) ↔ 0 ≤ i ∧ i < n := by
  have hsame (j : ℤ) : same (.int i) (.int j) = true ↔ i = j := by simp [same, numeric?, Numeric.same]
  simp only [mem_positions_iff]
  constructor
  · rintro ⟨key, ⟨j, hj, rfl⟩, h⟩
    rw [(hsame j).1 h]
    omega
  · rintro ⟨hpos, hlt⟩
    exact ⟨.int i.toNat, ⟨i.toNat, by omega, rfl⟩, (hsame _).2 (by omega)⟩

/-! ## Keys of maps -/

theorem isSome_get?_iff : (get? k ms).isSome ↔ ∃ key ∈ ms.map Prod.fst, cmp key k = .eq := by
  induction ms with
  | nil => simp [get?]
  | cons m ms ih =>
    rw [get?]
    split
    · rename_i h
      simp [h]
    · rename_i h
      simp [ih, h]

/-- Values of different kinds are in the order of their kinds. -/
theorem cmp_of_kind_ne (h : key.kind ≠ k.kind) : cmp key k = compare key.kind.rank k.kind.rank := by
  cases key <;> cases k <;> first | rfl | exact absurd rfl h

theorem kind_eq_of_cmp_eq (h : cmp key k = .eq) : key.kind = k.kind := by
  have hrank (a b : Kind) : a.rank = b.rank → a = b := by cases a <;> cases b <;> decide
  by_contra hne
  rw [cmp_of_kind_ne hne, Nat.compare_eq_eq] at h
  exact hne (hrank _ _ h)

theorem compareOfLessAndEq_eq_iff (s t : Chars) : compareOfLessAndEq s t = .eq ↔ t = s := by
  refine ⟨fun h => ?_, fun h => h ▸ compareOfLessAndEq_self t⟩
  rw [compareOfLessAndEq] at h
  split at h
  · cases h
  · split at h
    · exact Eq.symm ‹_›
    · cases h

/-- Whether a value is neither a double nor a collection. -/
def isExact : Value → Bool
  | .float _ | .seq _ | .series _ | .map _ => false
  | _ => true

/-- But for doubles and collections, two keys are in one place of the order if they are of one kind and equal. -/
theorem cmp_eq_iff_same (hkey : key.isExact = true) (hk : k.isExact = true) :
    cmp key k = .eq ↔ key.kind = k.kind ∧ same k key = true := by
  by_cases hkind : key.kind = k.kind
  · rw [and_iff_right hkind]
    cases key with
    | float _ | seq _ | series _ | map _ => cases hkey
    | undefined =>
      cases k with
      | undefined => exact ⟨fun _ => rfl, fun _ => rfl⟩
      | _ => cases hkind
    | none =>
      cases k with
      | none => exact ⟨fun _ => rfl, fun _ => rfl⟩
      | _ => cases hkind
    | bool b =>
      cases k with
      | bool b' => cases b <;> cases b' <;> decide
      | _ => cases hkind
    | int m =>
      cases k with
      | int n => simp [cmp, same, numeric?, Numeric.same, Numeric.cmp, @eq_comm _ m n]
      | float _ => cases hk
      | _ => cases hkind
    | text _ s =>
      cases k with
      | text _ t => simp [cmp, same, compareOfLessAndEq_eq_iff]
      | _ => cases hkind
    | callable s =>
      cases k with
      | callable t => simp [cmp, same, compareOfLessAndEq_eq_iff]
      | _ => cases hkind
  · exact iff_of_false (fun h => hkind (kind_eq_of_cmp_eq h)) fun h => hkind h.1

end Value

/-! ## The helpers -/

namespace Helper

variable {k : Value} {ms : List (Value × Value)}

/-- A map has the keys under which something defined is found, and these are in the place of one that is listed. -/
theorem hasKey_map_iff :
    hasKey k (.map ms) = true ↔ ∃ key ∈ ms.map Prod.fst, cmp key k = .eq ∧ (Value.map ms).item k ≠ .undefined := by
  have hitem : (Value.map ms).item k = (get? k ms).getD .undefined := rfl
  have hplace : (get? k ms).isSome ↔ ∃ key ∈ ms.map Prod.fst, cmp key k = .eq := isSome_get?_iff
  rw [hasKey, hitem]
  cases hget : get? k ms with
  | none => simp
  | some v =>
    obtain ⟨key, hkey, hcmp⟩ := hplace.1 (by rw [hget]; rfl)
    cases v with
    | undefined => simp
    | _ => exact iff_of_true rfl ⟨key, hkey, hcmp, nofun⟩

/-- Counting gives the number of the keys that are listed, which a loop visits. A sequence has a key that is an integer
if it equals one of them; another key is taken for the integer that it stands for. A map has a key if that is in the
place of one of them and what is found there is defined; but for doubles and collections, the one key is then of the
kind of the other and equal to it. -/
theorem call_arrayKeyExists (c : HelperContext) {a : Value} {ks : List Value} (harray : a.isArray = true)
    (hks : a.keys = .ok ks) :
    call c .count [a] = .ok (.ofNat ks.length) ∧
    (∃ ps, a.pairs = .ok ps ∧ ∀ key, key ∈ ks ↔ ∃ v, pairOf key v ∈ ps) ∧
    ∀ k, ∃ b, call c .arrayKeyExists [k, a] = .ok (.bool b) ∧
      (∀ items, a = .seq items → (items.length : ℤ) ≤ int64Max → ∀ i,
        (IsInteger k i → (b = true ↔ ∃ key ∈ ks, same k key = true)) ∧
        (StandsFor k i → (b = true ↔ ∃ key ∈ ks, same (.int i) key = true))) ∧
      ∀ ms, a = .map ms →
        (b = true ↔ ∃ key ∈ ks, cmp key k = .eq ∧ a.item k ≠ .undefined) ∧
        (k.isExact = true → (∀ key ∈ ks, key.isExact = true) →
          (b = true ↔ ∃ key ∈ ks, key.kind = k.kind ∧ same k key = true ∧ a.item k ≠ .undefined)) := by
  refine ⟨?_, pairs_keys hks, fun k => ⟨hasKey k a, rfl, ?_, ?_⟩⟩
  · cases a with
    | seq items =>
      obtain rfl := Except.ok.inj hks
      have hsize : (positions items.length).length = items.length := by simp [positions]
      rw [hsize]
      rfl
    | map ms =>
      obtain rfl := Except.ok.inj hks
      rw [List.length_map]
      rfl
    | _ => cases harray
  · rintro items rfl hlength i
    obtain rfl := Except.ok.inj hks
    have hstands (h : StandsFor k i) :
        hasKey k (.seq items) = true ↔ ∃ key ∈ positions items.length, same (.int i) key = true := by
      have hmin : int64Min = -2 ^ 63 := rfl
      rw [same_position_iff, hasKey, toInt_of_standsFor h, decide_eq_true_eq]
      omega
    refine ⟨fun h => (hstands (.integer h)).trans (exists_congr fun key => and_congr_right fun hkey => ?_), hstands⟩
    obtain ⟨j, -, rfl⟩ := mem_positions_iff.1 hkey
    rw [same_of_isInteger h]
  · rintro ms rfl
    obtain rfl := Except.ok.inj hks
    refine ⟨hasKey_map_iff, fun hk hkeys => ?_⟩
    refine hasKey_map_iff.trans (exists_congr fun key => and_congr_right fun hkey => ?_)
    rw [cmp_eq_iff_same (hkeys key hkey) hk, and_assoc]

/-- A text that is the decimal form of a position, and a key whose value is undefined. -/
theorem call_arrayKeyExists_text :
    (Value.seq [.none]).isArray = true ∧ (Value.seq [.none]).keys = .ok [.int 0] ∧
    ((1 : ℕ) : ℤ) ≤ int64Max ∧ StandsFor (.ofChars ['0']) 0 ∧
    call ⟨[], [], ⟨0, 0⟩⟩ .count [.seq [.none]] = .ok (.int 1) ∧
    call ⟨[], [], ⟨0, 0⟩⟩ .arrayKeyExists [.ofChars ['0'], .seq [.none]] = .ok (.bool true) ∧
    call ⟨[], [], ⟨0, 0⟩⟩ .arrayKeyExists [.ofChars ['a'], .map [(.ofChars ['a'], .undefined)]] =
      .ok (.bool false) := by
  have hstands : StandsFor (.ofChars ['0']) 0 := .text false (i := 0) (by decide) (by decide)
  have hkeys : (Value.seq [.none]).keys = .ok [.int 0] := rfl
  have hkeys' : (Value.map [(.ofChars ['a'], .undefined)]).keys = .ok [.ofChars ['a']] := rfl
  obtain ⟨hcount, -, hseq⟩ := call_arrayKeyExists ⟨[], [], ⟨0, 0⟩⟩ rfl hkeys
  obtain ⟨b, htext, hb, -⟩ := hseq (.ofChars ['0'])
  obtain rfl : b = true := ((hb [.none] rfl (by decide) 0).2 hstands).2 ⟨.int 0, List.mem_singleton_self _, rfl⟩
  obtain ⟨-, -, hmap⟩ := call_arrayKeyExists ⟨[], [], ⟨0, 0⟩⟩ rfl hkeys'
  obtain ⟨b, hundefined, -, hb⟩ := hmap (.ofChars ['a'])
  obtain rfl : b = false := Bool.eq_false_iff.2 fun h => by
    obtain ⟨key, -, -, hitem⟩ := (hb _ rfl).1.1 h
    exact hitem rfl
  exact ⟨rfl, hkeys, by decide, hstands, hcount, htext, hundefined⟩

/-- The text of a position equals no key of a sequence, and is taken for one. -/
theorem not_forall_arrayKeyExists_same :
    ¬ ∀ (c : HelperContext) (a k : Value) (ks : List Value), a.isArray = true → a.keys = .ok ks →
      (call c .arrayKeyExists [k, a] = .ok (.bool true) ↔ ∃ key ∈ ks, same k key = true) := by
  intro h
  have hdiffers : same (.ofChars ['0']) (.int 0) = false := rfl
  obtain ⟨key, hkey, hsame⟩ := (h ⟨[], [], ⟨0, 0⟩⟩ (.seq [.none]) (.ofChars ['0']) [.int 0] rfl rfl).1 rfl
  rw [List.mem_singleton.1 hkey, hdiffers] at hsame
  cases hsame

end Helper

end ViewBridge

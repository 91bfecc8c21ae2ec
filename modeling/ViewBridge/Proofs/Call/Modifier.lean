import ViewBridge.Proofs.Call.Agreement
import ViewBridge.Proofs.Engine.Interpolation
/-!
# Modifiers and functions

A helper that a value is piped through is meant to print what the function of the same name prints. Some modifiers are
the functions, by another name; others are filters of the engine, which take a missing value for a word, letters and
blanks by rules of their own, and numbers as they are.

Results:
* `trimWhile_eq_iff`: when trimming by two sets of characters is the same.
* `print_number_eq_iff`: when a double is printed as a whole number.
* `piped_eq_printed_iff`: for which values a modifier prints what the function prints.
* `renderText_modifier_eq_call_iff`: the same of what an engine renders.
-/
namespace ViewBridge

/-! ## Trimmed texts -/

namespace Text

variable {p q : Char → Bool} {s : Chars} {c : Char}

theorem not_of_mem_head?_dropWhile (h : c ∈ (s.dropWhile p).head?) : p c = false := by
  have hne : s.dropWhile p ≠ [] := by
    rintro hnil
    rw [hnil] at h
    cases h
  have hhead := List.head_dropWhile_not p hne
  rw [List.head?_eq_some_head hne, Option.mem_some_iff] at h
  rwa [← h]

theorem dropEndWhile_prefix (p : Char → Bool) (s : Chars) : dropEndWhile p s <+: s := by
  have hsuffix := List.dropWhile_suffix p (l := s.reverse)
  rw [← List.reverse_prefix, List.reverse_reverse] at hsuffix
  exact hsuffix

/-- What is left of a text has ends that stay. -/
theorem not_of_mem_ends (h : c ∈ (trimWhile p s).head? ∨ c ∈ (trimWhile p s).getLast?) : p c = false := by
  rcases h with h | h
  · obtain ⟨t, ht⟩ := dropEndWhile_prefix p (s.dropWhile p)
    refine not_of_mem_head?_dropWhile (s := s) ?_
    rw [← ht, List.head?_append]
    exact Option.mem_def.2 (by rw [show (dropEndWhile p (s.dropWhile p)).head? = some c from h]; rfl)
  · rw [trimWhile, dropEndWhile, List.getLast?_reverse] at h
    exact not_of_mem_head?_dropWhile h

theorem dropWhile_append_of_all {a : Chars} (ha : ∀ c ∈ a, p c = true) (s : Chars) :
    (a ++ s).dropWhile p = s.dropWhile p := by
  induction a with
  | nil => rfl
  | cons c a ih =>
    rw [List.forall_mem_cons] at ha
    rw [List.cons_append, List.dropWhile_cons_of_pos ha.1, ih ha.2]

theorem dropWhile_append_of_head {m : Chars} (hm : ∀ c ∈ m.head?, p c = false) (hne : m ≠ []) (s : Chars) :
    (m ++ s).dropWhile p = m ++ s := by
  obtain ⟨c, m, rfl⟩ := List.exists_cons_of_ne_nil hne
  rw [List.cons_append, List.dropWhile_cons_of_neg (by rw [hm c rfl]; exact Bool.false_ne_true)]

/-- Trimming leaves what stands between characters to trim, if its ends stay. -/
theorem trimWhile_append {a m b : Chars} (ha : ∀ c ∈ a, p c = true) (hb : ∀ c ∈ b, p c = true)
    (hm : ∀ c, c ∈ m.head? ∨ c ∈ m.getLast? → p c = false) : trimWhile p (a ++ (m ++ b)) = m := by
  rw [trimWhile, dropWhile_append_of_all ha]
  rcases eq_or_ne m [] with rfl | hne
  · rw [List.nil_append, dropWhile_eq_nil hb]
    rfl
  · have hb' : ∀ c ∈ b.reverse, p c = true := fun c hc => hb c (List.mem_reverse.1 hc)
    have hlast : ∀ c ∈ m.reverse.head?, p c = false := fun c hc => hm c (.inr (by rwa [List.head?_reverse] at hc))
    have hend := dropWhile_append_of_head hlast (by rwa [ne_eq, List.reverse_eq_nil_iff]) []
    rw [List.append_nil] at hend
    rw [dropWhile_append_of_head (fun c hc => hm c (.inl hc)) hne, dropEndWhile, List.reverse_append,
      dropWhile_append_of_all hb', hend, List.reverse_reverse]

/-- Around what trimming leaves stands what is trimmed. -/
theorem exists_trimWhile (p : Char → Bool) (s : Chars) :
    ∃ a b, s = a ++ (trimWhile p s ++ b) ∧ (∀ c ∈ a, p c = true) ∧ ∀ c ∈ b, p c = true := by
  have hend (s : Chars) : s = dropEndWhile p s ++ (s.reverse.takeWhile p).reverse := by
    rw [dropEndWhile, ← List.reverse_append, List.takeWhile_append_dropWhile, List.reverse_reverse]
  refine ⟨s.takeWhile p, ((s.dropWhile p).reverse.takeWhile p).reverse, ?_, fun c hc => ?_, fun c hc => ?_⟩
  · rw [trimWhile, ← hend, List.takeWhile_append_dropWhile]
  · exact List.mem_takeWhile_imp hc
  · exact List.mem_takeWhile_imp (List.mem_reverse.1 hc)

/-- Characters that are trimmed anyway may be trimmed before. -/
theorem trimWhile_trimWhile (h : ∀ c, q c = true → p c = true) (s : Chars) :
    trimWhile p (trimWhile q s) = trimWhile p s := by
  obtain ⟨a, b, hs, ha, hb⟩ := exists_trimWhile q s
  obtain ⟨a', b', hm, ha', hb'⟩ := exists_trimWhile p (trimWhile q s)
  have hsplit : s = (a ++ a') ++ (trimWhile p (trimWhile q s) ++ (b' ++ b)) := by
    conv_lhs => rw [hs, hm]
    simp only [List.append_assoc]
  conv_rhs => rw [hsplit]
  refine (trimWhile_append (fun c hc => ?_) (fun c hc => ?_) fun c => not_of_mem_ends).symm
  · exact (List.mem_append.1 hc).elim (fun hc => h c (ha c hc)) (ha' c)
  · exact (List.mem_append.1 hc).elim (hb' c) (fun hc => h c (hb c hc))

theorem mem_ends_append {a m b : Chars} (h : c ∈ (a ++ (m ++ b)).head? ∨ c ∈ (a ++ (m ++ b)).getLast?) :
    c ∈ a ∨ c ∈ b ∨ c ∈ m.head? ∨ c ∈ m.getLast? := by
  rcases h with h | h
  · cases a with
    | cons d a => exact .inl (Option.some.inj h ▸ List.mem_cons_self)
    | nil =>
      cases m with
      | cons d m => exact .inr (.inr (.inl h))
      | nil => exact .inr (.inl (List.mem_of_mem_head? h))
  · rw [← List.append_assoc, List.getLast?_append] at h
    rcases Option.or_eq_some_iff.1 h with h | ⟨-, h⟩
    · exact .inr (.inl (List.mem_of_mem_getLast? h))
    · rw [List.getLast?_append] at h
      rcases Option.or_eq_some_iff.1 h with h | ⟨-, h⟩
      · exact .inr (.inr (.inr h))
      · exact .inl (List.mem_of_mem_getLast? h)

/-- The characters that two ways to trim meet at the ends of a text once neither of them is alone in trimming. -/
def EndsAlike (p q : Char → Bool) (s : Chars) : Prop :=
  let core := trimWhile (fun c => p c && q c) s
  ∀ c, c ∈ core.head? ∨ c ∈ core.getLast? → p c = false ∧ q c = false

/-- Two ways to trim a text leave the same exactly if, behind what both trim, neither finds something at an end. -/
theorem trimWhile_eq_iff (p q : Char → Bool) (s : Chars) : trimWhile p s = trimWhile q s ↔ EndsAlike p q s := by
  let core := trimWhile (fun c => p c && q c) s
  have hp : trimWhile p core = trimWhile p s := trimWhile_trimWhile (fun c hc => (Bool.and_eq_true_iff.1 hc).1) s
  have hq : trimWhile q core = trimWhile q s := trimWhile_trimWhile (fun c hc => (Bool.and_eq_true_iff.1 hc).2) s
  rw [← hp, ← hq]
  constructor
  · intro heq c hc
    -- what one of them finds at an end is not left by the other one, which therefore finds it too
    have hboth {p q : Char → Bool} (heq : trimWhile p core = trimWhile q core) (h : p c = true) : q c = true := by
      obtain ⟨a, b, hcore, ha, hb⟩ := exists_trimWhile q core
      have hends : c ∈ core.head? ∨ c ∈ core.getLast? := hc
      rw [hcore] at hends
      rcases mem_ends_append hends with hc | hc | hc
      · exact ha c hc
      · exact hb c hc
      · rw [← heq] at hc
        rw [not_of_mem_ends hc] at h
        cases h
    have hnot := not_of_mem_ends hc
    cases hpc : p c <;> cases hqc : q c
    · exact ⟨rfl, rfl⟩
    · rw [hboth heq.symm hqc] at hpc
      cases hpc
    · rw [hboth heq hpc] at hqc
      cases hqc
    · rw [hpc, hqc] at hnot
      cases hnot
  · intro h
    have hself {p : Char → Bool} (hends : ∀ c, c ∈ core.head? ∨ c ∈ core.getLast? → p c = false) :
        trimWhile p core = core := by
      have hnothing : ∀ c ∈ ([] : Chars), p c = true := fun c hc => nomatch hc
      have htrim := trimWhile_append hnothing hnothing hends
      rwa [List.nil_append, List.append_nil] at htrim
    rw [hself fun c hc => (h c hc).1, hself fun c hc => (h c hc).2]

end Text
/-! ## Printed numbers -/

theorem Text.ofInt_inj {m n : Int} (h : Text.ofInt m = Text.ofInt n) : m = n := by
  have hsign {k l : Nat} : '-' :: Text.ofNat k ≠ Text.ofNat l := by
    intro h
    have hdigit := Shelf.isDigit_of_mem_ofNat (c := '-') (n := l) (h ▸ List.mem_cons_self)
    cases hdigit
  cases m with
  | ofNat m =>
    cases n with
    | ofNat n => rw [Text.ofNat_inj h]
    | negSucc n => exact absurd h.symm hsign
  | negSucc m =>
    cases n with
    | ofNat n => exact absurd h hsign
    | negSucc n => rw [Nat.succ.inj (Text.ofNat_inj (List.cons.inj h).2)]

namespace FloatStyle

/-- A double is never printed as a whole number: it has a point, or it is a word. -/
theorem exists_mark_render_printed (x : Float) : ∃ c ∈ printed.render x, Text.isDigit c = false ∧ c ≠ '-' := by
  have hpoint (d : Digits) : '.' ∈ positional d := by
    unfold positional
    split
    · simp
    · dsimp only
      split <;> simp
  unfold render
  split
  · exact ⟨'N', by decide, rfl, by decide⟩
  · rename_i neg _
    refine ⟨'i', ?_, rfl, by decide⟩
    cases neg <;> decide
  · dsimp only
    split
    · exact ⟨'.', List.mem_append_right _ (by decide), rfl, by decide⟩
    · exact ⟨'.', List.mem_append_right _ (hpoint _), rfl, by decide⟩

theorem render_printed_ne_ofInt (x : Float) (n : Int) : printed.render x ≠ Text.ofInt n := by
  intro h
  obtain ⟨c, hc, hdigit, hsign⟩ := exists_mark_render_printed x
  rw [h] at hc
  have hdigit' : Text.isDigit c = true := by
    cases n with
    | ofNat n => exact Shelf.isDigit_of_mem_ofNat hc
    | negSucc n => exact Shelf.isDigit_of_mem_ofNat (List.mem_of_ne_of_mem hsign hc)
  rw [hdigit] at hdigit'
  cases hdigit'

end FloatStyle

namespace Value

/-- A double is a whole number below `10^15`, which is a number without decimals. -/
def IsWhole (x : Float) (n : Int) : Prop := Binary.toInt? (Binary.ofFloat x) = some n ∧ n.natAbs < 10 ^ 15

theorem number_of_isWhole {x : Float} {n : Int} (h : IsWhole x n) : number x = .int n := by
  rw [number, h.1]
  exact if_pos h.2

theorem number_of_not_isWhole {x : Float} (h : ∀ n, ¬ IsWhole x n) : number x = .float x := by
  unfold number
  split
  · rename_i n hn
    exact if_neg fun hlt => h n ⟨hn, hlt⟩
  · rfl

theorem print_number_eq_iff (x : Float) (n : Int) : (number x).print = Text.ofInt n ↔ IsWhole x n := by
  by_cases hwhole : ∃ m, IsWhole x m
  · obtain ⟨m, hm⟩ := hwhole
    rw [number_of_isWhole hm]
    refine ⟨fun h => ?_, fun h => ?_⟩
    · rwa [← Text.ofInt_inj h]
    · obtain rfl : m = n := Option.some.inj (hm.1.symm.trans h.1)
      rfl
  · rw [not_exists] at hwhole
    rw [number_of_not_isWhole hwhole]
    exact iff_of_false (FloatStyle.render_printed_ne_ofInt x n) (hwhole n)

/-- A double and a number are printed alike if the number is a double too. -/
theorem render_eq_print_number_iff (x y : Float) : FloatStyle.printed.render y = (number x).print ↔
    (∀ n, ¬ IsWhole x n) ∧ FloatStyle.printed.render y = FloatStyle.printed.render x := by
  by_cases hwhole : ∃ m, IsWhole x m
  · obtain ⟨m, hm⟩ := hwhole
    rw [number_of_isWhole hm]
    exact iff_of_false (FloatStyle.render_printed_ne_ofInt y m) fun h => h.1 m hm
  · rw [not_exists] at hwhole
    rw [number_of_not_isWhole hwhole]
    exact (and_iff_right hwhole).symm

end Value

/-! ## Modifiers and functions on a value -/

namespace Helper

/-- The helpers that are also written as modifiers. -/
def modifiers : List Helper :=
  [count, strtoupper, strtolower, ucfirst, trim, stripTags, nl2br, jsonEncode, round, floor, ceil, numberFormat, abs]

/-- The values that a modifier prints as the function of the same name does. A missing value is empty for a function
and a word for a filter, which measures texts and no other scalars, changes the case of all letters, trims blanks of all
kinds, hides markup in JSON, and takes numbers as they are, with their decimals. -/
def PipesAlike (v : Value) : Helper → Prop
  | count =>
    match v with
    | .text _ s => s.length = 1
    | .seq _ | .series _ | .map _ => True
    | _ => False
  | strtoupper | strtolower => v ≠ .none
  | ucfirst => v ≠ .none ∧ Text.lower (v.print.drop 1) = v.print.drop 1
  | trim => v ≠ .none ∧ Text.EndsAlike Text.isBlank (fun c => Text.trimmed.contains c) v.print
  | jsonEncode => ∀ s, v.jsonText? = some s → Lacks "<>&\x27".toList s
  | round =>
    match v with
    | .int n => Value.IsWhole (roundHalfAway (Binary.ofInt n) 0) n
    | .float x => (∀ n, ¬ Value.IsWhole (roundHalfAway x 0) n) ∧
      FloatStyle.printed.render (Binary.whole .halfAway (1.0 * x) / 1.0) =
        FloatStyle.printed.render (roundHalfAway x 0)
    | _ => False
  | abs =>
    match v with
    | .int n => Value.IsWhole (Binary.abs (Binary.ofInt n)) n.natAbs
    | .float x => ∀ n, ¬ Value.IsWhole (Binary.abs x) n
    | _ => False
  | _ => True

end Helper

namespace Template

open Translator (IsIdentifier)

/-- What a value that is piped through a filter prints in raw output. -/
def Filter.piped (filter : Chars) (v : Value) : Option Chars :=
  ((Filter.apply .markup filter [v] []).map Value.print).toOption

section
variable {v : Value} {c : HelperContext} {filter : Chars}

theorem piped_of_find? (reading : Arguments Value) (h : Filter.find? .markup filter = some reading) (v : Value) :
    Filter.piped filter v = ((reading.run [v]).map Value.print).toOption := by
  rw [Filter.piped, LoopTemplate.apply_of_find? h]

theorem legacyText_of_ne_none (h : v ≠ .none) : v.legacyText = v.print := by
  cases v with
  | none => exact absurd rfl h
  | _ => rfl

/-- A filter on the printed text is the function on the legacy text where both make the same of it; of none one makes
something and the other one nothing. -/
theorem onText_eq_iff {f g : Chars → Chars} (hnone : f "none".toList ≠ g []) :
    f v.print = g v.legacyText ↔ v ≠ .none ∧ f v.print = g v.print := by
  by_cases h : v = .none
  · subst h
    exact iff_of_false hnone fun h => h.1 rfl
  · rw [legacyText_of_ne_none h, and_iff_right h]

theorem piped_length_iff : Filter.piped "length".toList v = Helper.count.printed c v ↔ Helper.count.PipesAlike v := by
  have hcall : Helper.count.printed c v = some (Text.ofNat (Helper.size v)) := rfl
  rw [piped_of_find? (Helper.unary Filter.length) rfl, run_unary, hcall]
  cases v with
  | text safe s =>
    refine (Option.some.injEq _ _).to_iff.trans ⟨fun h => Text.ofNat_inj h, fun h => ?_⟩
    exact congrArg Text.ofNat (show s.length = 1 from h)
  | seq items | series items | map members => exact iff_of_true rfl trivial
  | _ => exact iff_of_false (fun h => nomatch h) id

theorem piped_upper_iff :
    Filter.piped "upper".toList v = Helper.strtoupper.printed c v ↔ Helper.strtoupper.PipesAlike v := by
  have hcall : Helper.strtoupper.printed c v = some (Text.upper v.legacyText) := rfl
  have hfilter : Filter.piped "upper".toList v = some (Text.upper v.print) :=
    piped_of_find? (Filter.onText Text.upper) rfl v
  rw [hcall, hfilter, Option.some.injEq, onText_eq_iff (by decide)]
  exact and_iff_left rfl

theorem piped_lower_iff :
    Filter.piped "lower".toList v = Helper.strtolower.printed c v ↔ Helper.strtolower.PipesAlike v := by
  have hcall : Helper.strtolower.printed c v = some (Text.lower v.legacyText) := rfl
  have hfilter : Filter.piped "lower".toList v = some (Text.lower v.print) :=
    piped_of_find? (Filter.onText Text.lower) rfl v
  rw [hcall, hfilter, Option.some.injEq, onText_eq_iff (by decide)]
  exact and_iff_left rfl

theorem piped_capitalize_iff :
    Filter.piped "capitalize".toList v = Helper.ucfirst.printed c v ↔ Helper.ucfirst.PipesAlike v := by
  have hcall : Helper.ucfirst.printed c v = some (Text.capitalFirst v.legacyText) := rfl
  have hfilter : Filter.piped "capitalize".toList v = some (Filter.capitalize v.print) :=
    piped_of_find? (Filter.onText Filter.capitalize) rfl v
  have hrest (s : Chars) : Filter.capitalize s = Text.capitalFirst s ↔ Text.lower (s.drop 1) = s.drop 1 := by
    cases s with
    | nil => exact iff_of_true rfl rfl
    | cons a s =>
      have hfirst : Filter.capitalize (a :: s) = Text.upperChar a ++ Text.lower s := by
        rw [Filter.capitalize, List.take_succ_cons, List.take_zero, Text.upper, List.flatMap_singleton]
        rfl
      rw [hfirst]
      exact List.append_cancel_left_eq _ _ _ |>.to_iff
  rw [hcall, hfilter, Option.some.injEq, onText_eq_iff (by decide), hrest]
  rfl

theorem piped_trim_iff : Filter.piped "trim".toList v = Helper.trim.printed c v ↔ Helper.trim.PipesAlike v := by
  have hcall : Helper.trim.printed c v = some (Text.trim v.legacyText none) := rfl
  have hfilter : Filter.piped "trim".toList v = some (Filter.trim v.print none) := by
    rw [piped_of_find? (do
      let s ← Arguments.required Arguments.printed
      let chars ← Arguments.optional Arguments.printed
      Arguments.done
      pure (.ofChars (Filter.trim s chars))) rfl]
    rfl
  rw [hcall, hfilter, Option.some.injEq, onText_eq_iff (f := (Filter.trim · none)) (g := (Text.trim · none)) (by decide)]
  exact and_congr_right fun _ => Text.trimWhile_eq_iff _ _ _

theorem piped_tojson_iff :
    Filter.piped "tojson".toList v = Helper.jsonEncode.printed c v ↔ Helper.jsonEncode.PipesAlike v := by
  have hfilter : Filter.piped "tojson".toList v = v.jsonText?.map fun s => s.flatMap Filter.markupEscape := by
    rw [Filter.piped, apply_tojson, Filter.jsonInMarkup, Value.jsonText?]
    cases v.toJson? <;> rfl
  rw [printed_jsonEncode, hfilter]
  exact jsonText?_markupEscape_eq_iff v

theorem piped_round_iff : Filter.piped "round".toList v = Helper.round.printed c v ↔ Helper.round.PipesAlike v := by
  have hcall : Helper.round.printed c v = some (Value.number (roundHalfAway v.toFloat 0)).print := rfl
  have hfilter : Filter.piped "round".toList v = ((Filter.round v 0).map Value.print).toOption := by
    have hrun (f : Value → Int → Except RenderError Value) : (do
        let v ← Arguments.required Arguments.any
        let places ← Arguments.optional Arguments.int32
        Arguments.done
        f v (places.getD 0) : Arguments Value).run [v] = f v 0 := by
      have hlift (result : Except RenderError Value) : (do
          let _ ← Arguments.required Arguments.any
          let _ ← Arguments.optional Arguments.int32
          Arguments.done
          result : Arguments Value).run [v] = result := by cases result <;> rfl
      exact hlift (f v 0)
    rw [piped_of_find? (do
      let v ← Arguments.required Arguments.any
      let places ← Arguments.optional Arguments.int32
      Arguments.done
      Filter.round v (places.getD 0)) rfl, hrun Filter.round]
  rw [hcall, hfilter]
  cases v with
  | int n =>
    refine (Option.some.injEq _ _).to_iff.trans (eq_comm.trans ?_)
    exact Value.print_number_eq_iff _ n
  | float x => exact (Option.some.injEq _ _).to_iff.trans (Value.render_eq_print_number_iff _ _)
  | _ => exact iff_of_false (fun h => nomatch h) id

theorem piped_abs_iff : Filter.piped "abs".toList v = Helper.abs.printed c v ↔ Helper.abs.PipesAlike v := by
  have hcall : Helper.abs.printed c v = some (Value.number (Binary.abs v.toFloat)).print := rfl
  rw [piped_of_find? (Helper.unary Filter.abs) rfl, run_unary, hcall]
  cases v with
  | int n =>
    have hwhole := Value.print_number_eq_iff (Binary.abs (Binary.ofInt n)) n.natAbs
    rw [Filter.abs, Value.exact]
    split
    · exact (Option.some.injEq _ _).to_iff.trans (eq_comm.trans hwhole)
    · rename_i hbounds
      refine iff_of_false (fun h => nomatch h) fun h => hbounds ?_
      have hlt : n.natAbs < 10 ^ 15 := h.2
      have hmin : Value.int128Min ≤ 0 := by decide
      have hmax : 10 ^ 15 ≤ Value.int128Max := by decide
      omega
  | float x =>
    refine (Option.some.injEq _ _).to_iff.trans ((Value.render_eq_print_number_iff _ _).trans ?_)
    exact and_iff_left rfl
  | _ => exact iff_of_false (fun h => nomatch h) id

end

/-- What a modifier prints is what the function prints for these values, and for no others. -/
theorem piped_eq_printed_iff {f : Helper} (hf : f ∈ Helper.modifiers) {filter : Chars}
    (h : FilterName.target? .minijinja f.name = some filter) (c : HelperContext) (v : Value) :
    Filter.piped filter v = f.printed c v ↔ f.PipesAlike v := by
  simp only [Helper.modifiers, List.mem_cons, List.not_mem_nil, or_false] at hf
  rcases hf with rfl | rfl | rfl | rfl | rfl | rfl | rfl | rfl | rfl | rfl | rfl | rfl | rfl
  all_goals obtain rfl := Option.some.inj h
  · exact piped_length_iff
  · exact piped_upper_iff
  · exact piped_lower_iff
  · exact piped_capitalize_iff
  · exact piped_trim_iff
  · exact iff_of_true (piped_of_find? (Helper.textual Html.stripTags) rfl v) trivial
  · exact iff_of_true (piped_of_find? (Helper.plain Helper.withBreaks) rfl v) trivial
  · exact piped_tojson_iff
  · exact piped_round_iff
  · exact iff_of_true (piped_of_find? (Helper.numeral (Binary.whole .floor)) rfl v) trivial
  · exact iff_of_true (piped_of_find? (Helper.numeral (Binary.whole .ceil)) rfl v) trivial
  · exact iff_of_true (piped_of_find? (Filter.numberFormat) rfl v) trivial
  · exact piped_abs_iff

/-! ## Expressions -/

/-- What an expression prints in raw output. -/
theorem toOption_output_marked (s : Scope) (x : Expr) :
    (s.output x.marked).toOption = (x.eval s).toOption.map Value.print := by
  cases h : x.eval s with
  | ok v => rw [Scope.output_marked h]; rfl
  | error cause =>
    rw [toOption_output, Expr.marked, Expr.eval, h]
    rfl

/-- What a filter prints of an expression in raw output. -/
theorem toOption_output_piped {s : Scope} {e : Expr} {v : Value} (hs : s.escaping = .markup) (h : e.eval s = .ok v)
    (filter : Chars) : (s.output (Expr.filter e filter [] []).marked).toOption = Filter.piped filter v := by
  have hmode : s.filterMode = .markup := by
    rw [Scope.filterMode, hs, if_neg (by decide)]
  rw [toOption_output_marked, Expr.eval_filter h, toOption_located, hmode, Filter.piped]
  cases Filter.apply .markup filter [v] [] <;> rfl

/-- A variable behind which a filter and the mark of raw output stand. -/
theorem read_piped {x filter : Chars} (hx : LoopTemplate.IsVariable x) (hfilter : IsIdentifier filter) :
    read (Dialect.minijinja.rawOutput (x ++ '|' :: filter)) =
      .ok [.output (Expr.filter (.var 1 x) filter [] []).marked] := by
  obtain ⟨ls, line, hphrase⟩ := exists_phrase_output (Engine.read_filtered hx hfilter)
  obtain ⟨p, o, hfill, -, -, hread⟩ := hphrase.read_filtered (show IsIdentifier "safe".toList by decide)
  cases p with
  | here =>
    rw [LastPlace.fill] at hfill
    rw [← hfill] at hread
    exact hread
  | _ => cases hfill

end Template

/-! ## The text of a modifier -/

namespace Translator

variable {name filter : Chars}

theorem isNameChar_or_bar (h : IsIdentifier name) (hfilter : IsIdentifier filter) :
    ∀ c ∈ name ++ '|' :: filter, Text.isNameChar c = true ∨ c = '|' := by
  intro c hc
  rcases List.mem_append.1 hc with hc | hc
  · exact .inl (h.2 c hc)
  · exact (List.mem_cons.1 hc).elim .inr fun hc => .inl (hfilter.2 c hc)

/-- A name with a modifier loses its sigil and is not changed otherwise. -/
theorem translate_piped (h : IsIdentifier name) (hfilter : IsIdentifier filter) :
    Expression.translate ('$' :: (name ++ '|' :: filter)) = name ++ '|' :: filter := by
  have hhead : (name ++ '|' :: filter).head? = name.head? := by
    obtain ⟨c, cs, rfl⟩ := List.exists_cons_of_ne_nil h.ne_nil
    rfl
  refine Expression.translate_word (hhead ▸ h.1) (isNameChar_or_bar h hfilter) fun hbars => ?_
  have hcount : 2 ≤ (name ++ '|' :: filter).count '|' := hbars.sublist.count_le '|'
  rw [List.count_append, List.count_cons_self, List.count_eq_zero.2 (h.not_mem rfl),
    List.count_eq_zero.2 (hfilter.not_mem rfl)] at hcount
  omega

theorem readAssignment_piped (h : IsIdentifier name) (hfilter : IsIdentifier filter) :
    Directive.readAssignment (name ++ '|' :: filter) = none := by
  have hchars : ∀ c ∈ name, Directive.isTargetChar c = true := fun c hc => isTargetChar_of_isNameChar (h.2 c hc)
  have hspan := Text.span_append_cons hchars (show Directive.isTargetChar '|' = false by decide)
  have hblank : Text.isBlank '|' = false := by decide
  obtain ⟨c, rest, rfl⟩ := List.exists_cons_of_ne_nil hfilter.ne_nil
  have hc : c ≠ '=' := fun hc => hfilter.not_mem (c := '=') rfl (hc ▸ List.mem_cons_self)
  simp [Directive.readAssignment, Directive.readCompound, Directive.readSimple, hspan, hblank, hc]

theorem filterNames_piped (d : Dialect) (h : IsIdentifier name) (hfilter : IsIdentifier filter) :
    FilterName.translate d (name ++ '|' :: filter) = name ++ '|' :: FilterName.segment d filter := by
  have hbar : '|' ∉ filter := hfilter.not_mem rfl
  have hsegment : FilterName.translate d ('|' :: (filter ++ [])) = _ := FilterName.translate_segment hbar (.inl rfl)
  rw [List.append_nil, FilterName.translate_nil, List.append_nil] at hsegment
  rw [FilterName.translate_append (h.not_mem rfl)]
  exact congrArg (name ++ ·) hsegment

end Translator

/-! ## Engines -/

namespace Engine

open Template Translator
open LoopTemplate (IsVariable outside)

/-- A variable tag with a modifier. -/
def modifierTag (x modifier : Chars) : Chars := (Item.var ('$' :: (x ++ '|' :: modifier))).source

variable {r : Resolver} {settings : EngineSettings} {e : Engine} {f : Helper} {x : Chars} {context : Value}

/-- The filter that a modifier stands for. -/
theorem exists_target?_of_mem_modifiers (hf : f ∈ Helper.modifiers) :
    ∃ filter, FilterName.target? .minijinja f.name = some filter ∧ IsIdentifier filter := by
  have every : ∀ g ∈ Helper.modifiers, (FilterName.target? .minijinja g.name).any fun s => IsIdentifier s := by
    decide +kernel
  have hid := every f hf
  cases htarget : FilterName.target? .minijinja f.name with
  | none =>
    rw [htarget] at hid
    cases hid
  | some filter =>
    rw [htarget] at hid
    exact ⟨filter, rfl, of_decide_eq_true hid⟩

theorem translate_modifierTag (t : Translator) (ht : t.dialect = .minijinja) (hx : IsIdentifier x) {filter : Chars}
    (hfilter : FilterName.target? .minijinja f.name = some filter) :
    t.translate (modifierTag x f.name) = Dialect.minijinja.rawOutput (x ++ '|' :: filter) := by
  have hname := isIdentifier_name f
  have hnot {c : Char} (hc : Text.isNameChar c = false) (hne : c ≠ '|' ∧ c ≠ '$') :
      c ∉ '$' :: (x ++ '|' :: f.name) :=
    List.not_mem_cons_of_ne_of_not_mem hne.2
      (List.not_mem_append (hx.not_mem hc) (List.not_mem_cons_of_ne_of_not_mem hne.1 (hname.not_mem hc)))
  have hstart : Directive.startsVariable ('$' :: (x ++ '|' :: f.name)) = true := by
    obtain ⟨c, cs, rfl⟩ := List.exists_cons_of_ne_nil hx.ne_nil
    exact hx.1
  have hwell : (Item.var ('$' :: (x ++ '|' :: f.name))).WellFormed :=
    ⟨hstart, hnot rfl (by decide), hnot rfl (by decide)⟩
  have htranslate := translate_piped hx hname
  have hset : Directive.readAssignment (Expression.translate ('$' :: (x ++ '|' :: f.name))) = none := by
    rw [htranslate]
    exact readAssignment_piped hx hname
  rw [modifierTag, translate_interpolation t hwell hset, interpolated, htranslate, filterNames_piped _ hx hname, ht,
    FilterName.segment, hfilter]
  rfl

/-- A modifier prints of a variable what a call of the function of the same name prints in raw output, for the values
that both take alike, and for no others. -/
theorem renderText_modifier_eq_call_iff (he : Engine.ofResolver r settings = .ok e) (hmodifier : f ∈ Helper.modifiers)
    (hf : f ∈ e.functions) (hx : IsVariable x) (hcontext : context.member f.name = .undefined) (t : FileTree)
    (cache : Cache) (now : Instant) :
    (e.renderText t cache now (modifierTag x f.name) context).1.toOption =
        (e.renderText t cache now (rawCall f.name x) context).1.toOption ↔
      f.PipesAlike (outside (e.tools now) context x) := by
  obtain ⟨rfl, hdialect, -⟩ := eq_of_ofResolver he
  obtain ⟨filter, hfilter, hid⟩ := exists_target?_of_mem_modifiers hmodifier
  let s := e.scope now anonymous context
  have hvalue : (Expr.var 1 x).eval s = .ok (outside (e.tools now) context x) :=
    LoopTemplate.eval_name (LoopTemplate.sees_context (e.tools now) context) (hx.2 "loop" (by decide)) 1
  have hframes : lookupIn s.frames f.name = none := by
    show lookupIn [{ context }] f.name = none
    rw [lookupIn_context, hcontext]
  have hmarkup : s.escaping = .markup := rfl
  have hanswer (result : Except RenderError Chars) : (result.mapError Error.render).toOption = result.toOption := by
    cases result <;> rfl
  have hread := read_piped hx hid
  rw [← translate_modifierTag e.resolver.translator hdialect hx.1 hfilter] at hread
  rw [renderText_output hread, renderText_rawCall f hx, hanswer, hanswer, toOption_output_piped hmarkup hvalue,
    toOption_output_call hmarkup hvalue hf hframes, piped_eq_printed_iff hmodifier hfilter]

/-- The first letter of a word is capitalized alike, but the modifier makes the other ones small. -/
theorem renderText_modifier_eq_call_iff_ucfirst :
    let r : Resolver := ⟨⟨[], "/view".toList⟩, ⟨.minijinja, "html".toList⟩⟩
    let settings : EngineSettings := { functions := ["ucfirst".toList] }
    let e : Engine := { resolver := r, functions := [.ucfirst], constants := [] }
    let f := Helper.ucfirst
    let context (s : Chars) : Value := .ofNamed [(['v'], .ofChars s)]
    let t := FileTree.empty []
    let tag := "\x7b$v|ucfirst\x7d".toList
    let raw := "\x7b\x7b (ucfirst(v))|safe \x7d\x7d".toList
    Engine.ofResolver r settings = .ok e ∧ f ∈ Helper.modifiers ∧ f ∈ e.functions ∧ IsVariable ['v'] ∧
      (∀ s, (context s).member f.name = .undefined) ∧
      (e.renderText t {} ⟨0, 0⟩ tag (context "abc".toList)).1.toOption =
        (e.renderText t {} ⟨0, 0⟩ raw (context "abc".toList)).1.toOption ∧
      (e.renderText t {} ⟨0, 0⟩ tag (context "aBC".toList)).1.toOption ≠
        (e.renderText t {} ⟨0, 0⟩ raw (context "aBC".toList)).1.toOption := by
  intro r settings e f context t tag raw
  have he : Engine.ofResolver r settings = .ok e := rfl
  have hmodifier : f ∈ Helper.modifiers := by decide
  have hf : f ∈ e.functions := List.mem_singleton_self f
  have hx : IsVariable ['v'] := by decide
  have hcontext (s : Chars) : (context s).member f.name = .undefined := rfl
  have htag : modifierTag ['v'] f.name = tag := by decide +kernel
  have hraw : rawCall f.name ['v'] = raw := by decide +kernel
  have hiff (s : Chars) := renderText_modifier_eq_call_iff he hmodifier hf hx (hcontext s) t {} ⟨0, 0⟩
  simp only [htag, hraw] at hiff
  have hplain (s : Chars) : Value.ofChars s ≠ .none := fun h => nomatch h
  have hsmall : f.PipesAlike (.ofChars "abc".toList) :=
    ⟨hplain _, show Text.lower "bc".toList = "bc".toList by decide +kernel⟩
  have hlarge : ¬ f.PipesAlike (.ofChars "aBC".toList) := fun h =>
    absurd (show Text.lower "BC".toList = "BC".toList from h.2) (by decide +kernel)
  exact ⟨he, hmodifier, hf, hx, hcontext, (hiff "abc".toList).2 hsmall, fun h => hlarge ((hiff "aBC".toList).1 h)⟩

end Engine
end ViewBridge

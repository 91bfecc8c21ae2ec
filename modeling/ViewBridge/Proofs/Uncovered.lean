import ViewBridge.Proofs.Quoting
/-!
# Characters outside literals

A rule that skips literals and one that does not do the same with a text whose literals hold nothing that the
rule looks for. So do a reader of quotes that knows escapes and one that does not, where no literal holds a
backslash.

Results:
* `uncovered_append`, `Complete.append`: texts one after the other.
* `Uncovered.readLiteral`: a character that stands outside literals does not stand in the one that is open.
-/
namespace ViewBridge.Expression

variable {x : Char}

/-- Whether a character stands outside literals only, for a reader of quotes in some mode. -/
def Uncovered (x : Char) : Mode → Chars → Prop
  | _, [] => True
  | m, c :: s => (c = x → m = .outside) ∧ Uncovered x (m.step true c) s

theorem uncovered_append {m : Mode} {s t : Chars} :
    Uncovered x m (s ++ t) ↔ Uncovered x m s ∧ Uncovered x (m.run true s) t := by
  induction s generalizing m with
  | nil => simp [Uncovered]
  | cons c s ih => simp [Uncovered, ih, and_assoc]

theorem uncovered_of_not_mem {m : Mode} {s : Chars} (h : x ∉ s) : Uncovered x m s := by
  induction s generalizing m with
  | nil => trivial
  | cons c s ih =>
    rw [List.mem_cons, not_or] at h
    exact ⟨fun hc => absurd hc.symm h.1, ih h.2⟩

/-- A text that has a character outside its literals only and leaves none of them open. -/
def Complete (x : Char) (s : Chars) : Prop := Uncovered x .outside s ∧ Mode.run true .outside s = .outside

theorem Complete.append {s t : Chars} (hs : Complete x s) (ht : Complete x t) : Complete x (s ++ t) := by
  refine ⟨uncovered_append.2 ⟨hs.1, ?_⟩, ?_⟩
  · rw [hs.2]; exact ht.1
  · rw [Mode.run_append, hs.2, ht.2]

theorem complete_of_unquoted {s : Chars} (h : ∀ c ∈ s, isQuote c = false) : Complete x s := by
  induction s with
  | nil => exact ⟨trivial, rfl⟩
  | cons c s ih =>
    rw [List.forall_mem_cons] at h
    have hstep : Mode.step true .outside c = .outside := by rw [Mode.step, h.1]; rfl
    rw [Complete, Uncovered, Mode.run_cons, hstep]
    exact ⟨⟨fun _ => rfl, (ih h.2).1⟩, (ih h.2).2⟩

instance decidableUncovered (x : Char) : (m : Mode) → (s : Chars) → Decidable (Uncovered x m s)
  | _, [] => .isTrue trivial
  | m, c :: s =>
    have := decidableUncovered x (m.step true c) s
    inferInstanceAs (Decidable (_ ∧ _))

instance (x : Char) (s : Chars) : Decidable (Complete x s) := inferInstanceAs (Decidable (_ ∧ _))

/-- A text has no quotes, or a first one. -/
theorem unquoted_or_cut (s : Chars) : (∀ c ∈ s, isQuote c = false) ∨
    ∃ plain q rest, s = plain ++ q :: rest ∧ isQuote q = true ∧ ∀ c ∈ plain, isQuote c = false := by
  induction s with
  | nil => exact .inl (List.forall_mem_nil _)
  | cons c s ih =>
    cases hc : isQuote c with
    | true => exact .inr ⟨[], c, s, rfl, hc, List.forall_mem_nil _⟩
    | false =>
      rcases ih with h | ⟨plain, q, rest, rfl, hq, h⟩
      · exact .inl (List.forall_mem_cons.2 ⟨hc, h⟩)
      · exact .inr ⟨c :: plain, q, rest, rfl, hq, List.forall_mem_cons.2 ⟨hc, h⟩⟩

/-- A character that stands outside literals does not stand in the one that is open. -/
theorem Uncovered.readLiteral {q : Char} (hq : isQuote q = true) {s : Chars} (h : Uncovered x (.inside q) s) :
    x ∉ (readLiteral q s).1 ∧ Uncovered x .outside (readLiteral q s).2 := by
  induction hn : s.length using Nat.strongRecOn generalizing s with
  | ind n ih =>
    have hopen {y : Char} {P : Prop} (h : (y = x → Mode.inside q = .outside) ∧ P) : x ≠ y :=
      fun hx => absurd (h.1 hx.symm) Mode.noConfusion
    obtain _ | ⟨c, _ | ⟨d, s⟩⟩ := s
    · exact ⟨List.not_mem_nil, trivial⟩
    · have hc : x ≠ c := hopen h
      exact ⟨by simpa [Expression.readLiteral] using hc, trivial⟩
    · simp only [List.length_cons] at hn
      have hc : x ≠ c := hopen h
      have htail := h.2
      by_cases hslash : c = '\\'
      · rw [Mode.step, if_pos hslash] at htail
        have hd : x ≠ d := fun hx => absurd (htail.1 hx.symm) Mode.noConfusion
        have hrest := ih s.length (by omega) htail.2 rfl
        rw [Expression.readLiteral, if_pos hslash]
        exact ⟨by simp [hc, hd, hrest.1], hrest.2⟩
      rw [Mode.step, if_neg hslash] at htail
      by_cases hcq : c = q
      · rw [if_pos (by simp [hcq, hq])] at htail
        rw [Expression.readLiteral, if_neg hslash, if_pos hcq]
        exact ⟨by simpa using hc, htail⟩
      · rw [if_neg (by simp [hcq])] at htail
        have hrest := ih (s.length + 1) (by omega) htail rfl
        rw [readLiteral_cons hslash hcq (List.cons_ne_nil d s)]
        exact ⟨by simp [hc, hrest.1], hrest.2⟩

end ViewBridge.Expression

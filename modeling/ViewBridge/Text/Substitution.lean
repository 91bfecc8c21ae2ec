import ViewBridge.Text.Basic
/-!
# Substituting from left to right

A recogniser looks at the text from one position on and answers what the directive it sees there becomes,
together with the rest of the text. A substituting pass asks it at every position: where it answers, the
answer is written and the pass goes on after the directive; where it does not, the character is copied.
So the leftmost directive wins and no two overlap.

Results:
* `substitute_eq_self`: a text in which nothing is recognised is unchanged.
* `substituteFrom_snd_of_const`: a pass whose recogniser never touches the state leaves it alone.
-/
namespace ViewBridge.Text

/-- Substitute with a state that is threaded through the recognised directives. -/
def substituteFrom {σ : Type} (find : σ → Chars → Option (Chars × σ × Chars)) (st : σ) (s : Chars) :
    Chars × σ :=
  match s with
  | [] => ([], st)
  | c :: cs =>
    match find st (c :: cs) with
    | some (out, st', rest) =>
      if rest.length ≤ cs.length then
        let (tail, last) := substituteFrom find st' rest
        (out ++ tail, last)
      else
        let (tail, last) := substituteFrom find st cs
        (c :: tail, last)
    | none =>
      let (tail, last) := substituteFrom find st cs
      (c :: tail, last)
termination_by s.length
decreasing_by all_goals simp only [List.length_cons]; omega

/-- Substitute without a state. -/
def substitute (find : Chars → Option (Chars × Chars)) (s : Chars) : Chars :=
  match s with
  | [] => []
  | c :: cs =>
    match find (c :: cs) with
    | some (out, rest) =>
      if rest.length ≤ cs.length then out ++ substitute find rest else c :: substitute find cs
    | none => c :: substitute find cs
termination_by s.length
decreasing_by all_goals simp only [List.length_cons]; omega

@[simp] theorem substitute_nil (find : Chars → Option (Chars × Chars)) : substitute find [] = [] := by
  rw [substitute]

@[simp] theorem substituteFrom_nil {σ : Type} (find : σ → Chars → Option (Chars × σ × Chars))
    (st : σ) : substituteFrom find st [] = ([], st) := by
  rw [substituteFrom]

theorem substitute_cons_of_none {find : Chars → Option (Chars × Chars)} {c : Char} {cs : Chars}
    (h : find (c :: cs) = none) : substitute find (c :: cs) = c :: substitute find cs := by
  rw [substitute, h]

theorem substitute_of_some {find : Chars → Option (Chars × Chars)} {s out rest : Chars}
    (h : find s = some (out, rest)) (hl : rest.length < s.length) :
    substitute find s = out ++ substitute find rest := by
  cases s with
  | nil => simp at hl
  | cons c cs =>
    rw [substitute, h]
    simp only [List.length_cons] at hl
    simp [show rest.length ≤ cs.length by omega]

theorem substituteFrom_cons_of_none {σ : Type} {find : σ → Chars → Option (Chars × σ × Chars)}
    {st : σ} {c : Char} {cs : Chars} (h : find st (c :: cs) = none) :
    substituteFrom find st (c :: cs) =
      (c :: (substituteFrom find st cs).1, (substituteFrom find st cs).2) := by
  rw [substituteFrom, h]

theorem substituteFrom_of_some {σ : Type} {find : σ → Chars → Option (Chars × σ × Chars)}
    {st st' : σ} {s out rest : Chars} (h : find st s = some (out, st', rest)) (hl : rest.length < s.length) :
    substituteFrom find st s =
      (out ++ (substituteFrom find st' rest).1, (substituteFrom find st' rest).2) := by
  cases s with
  | nil => simp at hl
  | cons c cs =>
    rw [substituteFrom, h]
    simp only [List.length_cons] at hl
    simp [show rest.length ≤ cs.length by omega]

/-- Nothing recognised at any position, nothing changed. -/
theorem substitute_eq_self {find : Chars → Option (Chars × Chars)} {s : Chars}
    (h : ∀ t, t <:+ s → find t = none) : substitute find s = s := by
  induction s with
  | nil => simp
  | cons c cs ih =>
    rw [substitute_cons_of_none (h _ (List.suffix_refl _)),
      ih fun t ht => h t (ht.trans (List.suffix_cons c cs))]

/-- The substituted text of a pass whose recogniser reads no state. -/
theorem substituteFrom_snd_of_const {σ : Type} {find : σ → Chars → Option (Chars × σ × Chars)}
    (h : ∀ st s out st' rest, find st s = some (out, st', rest) → st' = st) (st : σ) (s : Chars) :
    (substituteFrom find st s).2 = st := by
  induction hn : s.length using Nat.strongRecOn generalizing s with
  | ind n ih =>
    cases s with
    | nil => simp
    | cons c cs =>
      rw [substituteFrom]
      simp only [List.length_cons] at hn
      split
      · rename_i out st' rest hf
        have := h _ _ _ _ _ hf
        subst this
        split
        · exact ih rest.length (by omega) rest rfl
        · exact ih cs.length (by omega) cs rfl
      · exact ih cs.length (by omega) cs rfl

end ViewBridge.Text

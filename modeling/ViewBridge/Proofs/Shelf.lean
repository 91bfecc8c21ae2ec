import ViewBridge.Proofs.Pass
import ViewBridge.Translator.Shelf
/-!
# Placeholders and literal shield characters

A text that was escaped has no placeholder in it, whatever stands around it, and is given back unchanged
when the shelf is emptied. A placeholder can only come into being over a seam if the text in front of the
seam stops in the middle of one.

Results:
* `restore_append_placeholder`: what is on the shelf comes back in its place.
* `restore_escape_append`, `restore_append_escape`: escaped text in front of and behind any other text is
  restored on its own.
-/
namespace ViewBridge.Shelf

/-! ## Escaping -/

@[simp] theorem escape_nil : escape [] = [] := by
  rw [escape, Text.replace_eq_substitute _ (by simp), Text.substitute_nil]

theorem escape_cons (c : Char) (s : Chars) :
    escape (c :: s) = if c = opening then opening :: closing :: escape s else c :: escape s := by
  simp only [escape, Text.replace_eq_substitute _ (List.cons_ne_nil _ _)]
  split
  · rename_i hc
    subst hc
    have hfind : Text.exchange [opening] [opening, closing] (opening :: s) =
        some ([opening, closing], s) := by simp [Text.exchange, Text.after?]
    rw [Text.substitute_of_some hfind (by simp)]
    rfl
  · rename_i hc
    rw [Text.substitute_cons_of_none]
    simp [Text.exchange, Text.after?, Ne.symm hc]

theorem escape_append (s t : Chars) : escape (s ++ t) = escape s ++ escape t := by
  induction s with
  | nil => simp
  | cons c cs ih =>
    rw [List.cons_append, escape_cons, escape_cons, ih]
    split <;> rfl

theorem escape_eq_self {s : Chars} (h : opening ∉ s) : escape s = s := by
  induction s with
  | nil => simp
  | cons c cs ih =>
    simp only [List.mem_cons, not_or] at h
    rw [escape_cons, if_neg (Ne.symm h.1), ih h.2]

theorem mem_escape {c : Char} {s : Chars} (hc : c ≠ closing) : c ∈ escape s ↔ c ∈ s := by
  induction s with
  | nil => simp
  | cons d ds ih =>
    rw [escape_cons]
    split <;> simp_all

@[simp] theorem unescape_nil : unescape [] = [] := by
  rw [unescape, Text.replace_eq_substitute _ (by simp), Text.substitute_nil]

theorem unescape_pair (s : Chars) : unescape (opening :: closing :: s) = opening :: unescape s := by
  simp only [unescape, Text.replace_eq_substitute _ (List.cons_ne_nil _ _)]
  have hfind : Text.exchange [opening, closing] [opening] (opening :: closing :: s) =
      some ([opening], s) := by simp [Text.exchange, Text.after?]
  rw [Text.substitute_of_some hfind (by simp only [List.length_cons]; omega)]
  rfl

theorem unescape_cons {c : Char} {s : Chars} (h : c ≠ opening ∨ s.head? ≠ some closing) :
    unescape (c :: s) = c :: unescape s := by
  simp only [unescape, Text.replace_eq_substitute _ (List.cons_ne_nil _ _)]
  rw [Text.substitute_cons_of_none]
  rw [Text.exchange, Option.map_eq_none_iff]
  cases hr : Text.after? [opening, closing] (c :: s) with
  | none => rfl
  | some rest =>
    have := Text.after?_eq_some_iff.1 hr
    simp only [List.cons_append, List.nil_append, List.cons.injEq] at this
    rcases h with h | h
    · exact absurd this.1 h
    · exact absurd (by rw [this.2]; rfl) h

theorem unescape_escape_append (s r : Chars) : unescape (escape s ++ r) = s ++ unescape r := by
  induction s with
  | nil => simp
  | cons c cs ih =>
    rw [escape_cons]
    split
    · rename_i hc
      rw [List.cons_append, List.cons_append, unescape_pair, ih, hc]
      rfl
    · rename_i hc
      rw [List.cons_append, unescape_cons (.inl hc), ih]
      rfl

/-! ## Reading placeholders over a seam -/

/-- Whether a text that starts inside what may be a placeholder, or not, also stops inside one: behind an
opening character there were only digits and line breaks. -/
def hangs (inside : Bool) (s : Chars) : Bool :=
  s.foldl (fun inside c => c == opening || inside && (Text.isDigit c || c == '\n')) inside

theorem hangs_append (inside : Bool) (s t : Chars) : hangs inside (s ++ t) = hangs (hangs inside s) t :=
  List.foldl_append

theorem hangs_of_outside {inside : Bool} {s : Chars} (h : hangs inside s = false) :
    hangs false s = false := by
  induction s generalizing inside with
  | nil => rfl
  | cons c cs ih =>
    cases inside with
    | false => exact h
    | true =>
      simp only [hangs, List.foldl_cons, Bool.false_and, Bool.true_and] at h ⊢
      cases hc : c == opening with
      | true => simpa [hc] using h
      | false => exact ih (by simpa [hangs, hc] using h)

theorem hangs_suffix {inside : Bool} {s t : Chars} (h : hangs inside s = false) (ht : t <:+ s) :
    hangs false t = false := by
  obtain ⟨u, rfl⟩ := ht
  rw [hangs_append] at h
  exact hangs_of_outside h

/-- A last character that no placeholder has inside settles a text. -/
theorem hangs_concat (inside : Bool) (s : Chars) {c : Char}
    (hc : c ≠ opening ∧ Text.isDigit c = false ∧ c ≠ '\n') : hangs inside (s ++ [c]) = false := by
  simp [hangs, hc]

theorem hangs_of_getLast? {s : Chars} {c : Char} (h : s.getLast? = some c)
    (hc : c ≠ opening ∧ Text.isDigit c = false ∧ c ≠ '\n') (inside : Bool) : hangs inside s = false := by
  obtain ⟨t, rfl⟩ := List.getLast?_eq_some_iff.1 h
  exact hangs_concat inside t hc

theorem hangs_escape (s : Chars) : hangs false (escape s) = false := by
  induction s with
  | nil => rw [escape_nil]; rfl
  | cons c cs ih =>
    rw [escape_cons]
    split
    · exact ih
    · rename_i hc
      simpa [hangs, beq_eq_false_iff_ne.2 hc] using ih

theorem hangs_of_forall {s : Chars} (h : ∀ c ∈ s, Text.isDigit c = true ∨ c = '\n') :
    hangs true s = true := by
  induction s with
  | nil => rfl
  | cons c cs ih =>
    have hc := h c List.mem_cons_self
    have hstep : (c == opening || true && (Text.isDigit c || c == '\n')) = true := by
      rcases hc with hc | hc <;> simp [hc]
    rw [hangs, List.foldl_cons, hstep]
    exact ih fun d hd => h d (List.mem_cons_of_mem c hd)

/-- Behind an opening character, a text that does not hang goes on after the digits and line breaks. -/
theorem dropWhile_ne_nil_of_hangs {s : Chars} (h : hangs true s = false) :
    (s.dropWhile Text.isDigit).dropWhile (· == '\n') ≠ [] := by
  intro hnil
  have hall : ∀ c ∈ s, Text.isDigit c = true ∨ c = '\n' := by
    intro c hc
    rw [← List.takeWhile_append_dropWhile (p := Text.isDigit) (l := s), List.mem_append] at hc
    rcases hc with hc | hc
    · exact .inl (List.mem_takeWhile_imp hc)
    · exact .inr (by simpa using List.dropWhile_eq_nil_iff.1 hnil c hc)
  rw [hangs_of_forall hall] at h
  cases h

/-- What is read as a placeholder in a text that does not hang is read with any tail behind it. -/
theorem readPlaceholder_append {inside : Bool} {s : Chars} (hne : s ≠ [])
    (h : hangs inside s = false) (t : Chars) :
    readPlaceholder (s ++ t) = (readPlaceholder s).map fun (n, rest) => (n, rest ++ t) := by
  obtain ⟨c, cs, rfl⟩ := List.exists_cons_of_ne_nil hne
  by_cases hc : c = opening
  · subst hc
    have hend := dropWhile_ne_nil_of_hangs (s := cs) (by simpa [hangs] using h)
    have hdigits : cs.dropWhile Text.isDigit ≠ [] := by
      intro hnil
      rw [hnil] at hend
      exact hend rfl
    simp only [readPlaceholder, List.cons_append, Text.dropWhile_append_of_ne_nil hdigits,
      Text.takeWhile_append_of_ne_nil hdigits, Text.dropWhile_append_of_ne_nil hend]
    obtain ⟨d, tail, hd⟩ := List.exists_cons_of_ne_nil hend
    rw [hd, List.cons_append]
    simp only
    split
    · split <;> rfl
    · rfl
  · simp [readPlaceholder, hc]

theorem readPlaceholder_suffix {s rest : Chars} {n : Nat} (h : readPlaceholder s = some (n, rest)) :
    rest <:+ s := by
  unfold readPlaceholder at h
  split at h
  · rename_i c cs
    simp only at h
    split at h
    · split at h
      · rename_i d tail hd
        split at h
        · simp only [Option.some.injEq, Prod.mk.injEq] at h
          have hs : d :: tail <:+ cs := hd ▸
            (List.dropWhile_suffix _).trans (List.dropWhile_suffix _)
          exact h.2 ▸ (List.suffix_cons d tail).trans (hs.trans (List.suffix_cons c cs))
        · cases h
      · cases h
    · cases h
  · cases h

theorem take_suffix {shelf : List Chars} {s body rest : Chars} (h : take shelf s = some (body, rest)) :
    rest <:+ s := by
  obtain ⟨r, hr, h⟩ := Option.bind_eq_some_iff.1 h
  obtain ⟨b, -, h⟩ := Option.map_eq_some_iff.1 h
  rw [Prod.mk.injEq] at h
  exact h.2 ▸ readPlaceholder_suffix hr

/-! ## Emptying the shelf -/

theorem take_cons_of_ne {c : Char} (hc : c ≠ opening) (shelf : List Chars) (s : Chars) :
    take shelf (c :: s) = none := by
  simp [take, readPlaceholder, hc]

theorem take_pair (shelf : List Chars) (s : Chars) : take shelf (opening :: closing :: s) = none := by
  have hd : Text.isDigit closing = false := by decide
  simp [take, readPlaceholder, hd]

theorem substitute_take_escape_append (shelf : List Chars) (s r : Chars) :
    Text.substitute (take shelf) (escape s ++ r) = escape s ++ Text.substitute (take shelf) r := by
  induction s with
  | nil => simp
  | cons c cs ih =>
    rw [escape_cons]
    split
    · rw [List.cons_append, List.cons_append, Text.substitute_cons_of_none (take_pair _ _),
        Text.substitute_cons_of_none (take_cons_of_ne (by decide) _ _), ih]
      rfl
    · rename_i hc
      rw [List.cons_append, Text.substitute_cons_of_none (take_cons_of_ne hc _ _), ih]
      rfl

theorem restore_escape_append (shelf : List Chars) (s r : Chars) :
    restore shelf (escape s ++ r) = s ++ restore shelf r := by
  rw [restore, substitute_take_escape_append, unescape_escape_append, restore]

theorem substitute_take_append {shelf : List Chars} {s : Chars} (h : hangs false s = false) (t : Chars) :
    Text.substitute (take shelf) (s ++ t) =
      Text.substitute (take shelf) s ++ Text.substitute (take shelf) t := by
  refine Text.substitute_append take_suffix fun v hv hs => ?_
  rw [take, take, readPlaceholder_append hv (hangs_suffix h hs)]
  cases readPlaceholder v with
  | none => rfl
  | some r => simp [Function.comp_def]

theorem unescape_append {s : Chars} (h : hangs false s = false) (t : Chars) :
    unescape (s ++ t) = unescape s ++ unescape t := by
  simp only [unescape, Text.replace_eq_substitute _ (List.cons_ne_nil _ _)]
  refine Text.substitute_append ?_ fun v hv hs => ?_
  · exact fun hf => ⟨[opening, closing], (Text.exchange_eq_some hf).2.symm⟩
  · have hv' := hangs_suffix h hs
    obtain ⟨d, ds, rfl⟩ := List.exists_cons_of_ne_nil hv
    by_cases hd : d = opening
    · -- a text that does not hang does not stop behind an opening character
      have hds : ds ≠ [] := by
        rintro rfl
        simp [hangs, hd] at hv'
      obtain ⟨e, es, rfl⟩ := List.exists_cons_of_ne_nil hds
      by_cases he : closing = e <;> simp [Text.exchange, Text.after?, hd, he]
    · simp [Text.exchange, Text.after?, Ne.symm hd]

/-- Texts that end behind every placeholder they may have begun are left so by a pass that only writes
such texts. -/
theorem hangs_substituteFrom {σ : Type} {find : σ → Chars → Option (Chars × σ × Chars)}
    (hrest : ∀ {st v out st' rest}, find st v = some (out, st', rest) → rest <:+ v)
    (hout : ∀ {st v out st' rest}, find st v = some (out, st', rest) → ∀ b, hangs b out = false)
    {b : Bool} {s : Chars} (h : hangs b s = false) (st : σ) :
    hangs b (Text.substituteFrom find st s).1 = false := by
  induction hn : s.length using Nat.strongRecOn generalizing s st b with
  | ind n ih =>
    cases s with
    | nil => simpa using h
    | cons c cs =>
      simp only [List.length_cons] at hn
      have hcopy : hangs b (c :: (Text.substituteFrom find st cs).1) = false := by
        rw [hangs, List.foldl_cons] at h ⊢
        exact ih cs.length (by omega) (s := cs) h st rfl
      rw [Text.substituteFrom]
      cases hf : find st (c :: cs) with
      | none => exact hcopy
      | some r =>
        obtain ⟨out, st', rest⟩ := r
        simp only
        split
        · rw [hangs_append, hout hf b]
          exact ih rest.length (by omega) (hangs_suffix h (hrest hf)) st' rfl
        · exact hcopy

theorem hangs_substitute {find : Chars → Option (Chars × Chars)}
    (hrest : ∀ {v out rest}, find v = some (out, rest) → rest <:+ v)
    (hout : ∀ {v out rest}, find v = some (out, rest) → ∀ b, hangs b out = false)
    {b : Bool} {s : Chars} (h : hangs b s = false) : hangs b (Text.substitute find s) = false := by
  rw [Text.substitute_eq_substituteFrom]
  exact hangs_substituteFrom (fun hf => hrest (Text.stateless_eq_some hf))
    (fun hf => hout (Text.stateless_eq_some hf)) h ()

/-- The bodies on a shelf end behind every placeholder they may have begun. -/
def Settled (shelf : List Chars) : Prop := ∀ body ∈ shelf, ∀ b, hangs b body = false

theorem restore_append_escape {shelf : List Chars} (hshelf : Settled shelf) {s : Chars}
    (h : hangs false s = false) (t : Chars) :
    restore shelf (s ++ escape t) = restore shelf s ++ t := by
  have hbodies : hangs false (Text.substitute (take shelf) s) = false := by
    refine hangs_substitute take_suffix ?_ h
    intro v out rest hf
    obtain ⟨r, -, hf⟩ := Option.bind_eq_some_iff.1 hf
    obtain ⟨body, hb, he⟩ := Option.map_eq_some_iff.1 hf
    rw [Prod.mk.injEq] at he
    exact he.1 ▸ hshelf body (List.mem_of_getElem? hb)
  have htail := substitute_take_escape_append shelf t []
  have hunescape := unescape_escape_append t []
  simp only [List.append_nil, Text.substitute_nil, unescape_nil] at htail hunescape
  rw [restore, substitute_take_append h, htail, unescape_append hbodies, hunescape, restore]

/-! ## Placeholders -/

theorem isDigit_of_mem_ofNat {c : Char} {n : Nat} (h : c ∈ Text.ofNat n) : Text.isDigit c = true := by
  have := Nat.isDigit_of_mem_toDigits (by decide) (by decide) h
  simpa [Char.isDigit, Text.isDigit, Char.le_def] using this

theorem digitsValue_concat (s : Chars) (c : Char) :
    digitsValue (s ++ [c]) = digitsValue s * 10 + (c.toNat - 48) := by
  simp [digitsValue]

theorem digitsValue_ofNat (n : Nat) : digitsValue (Text.ofNat n) = n := by
  have hdigit : ∀ d < 10, (Nat.digitChar d).toNat - 48 = d := by decide
  induction n using Nat.strongRecOn with
  | ind n ih =>
    by_cases hn : n < 10
    · rw [Text.ofNat, Nat.toDigits_of_lt_base hn, ← List.nil_append [n.digitChar], digitsValue_concat,
        hdigit n hn]
      simp [digitsValue]
    · have hdiv := ih (n / 10) (by omega)
      rw [Text.ofNat] at hdiv
      rw [Text.ofNat, Nat.toDigits_of_base_le (by omega) (by omega), digitsValue_concat, hdiv,
        hdigit _ (by omega)]
      omega

theorem mem_placeholder {c : Char} {n : Nat} {body : Chars} (h : c ∈ placeholder n body) :
    c = opening ∨ c = closing ∨ Text.isDigit c = true ∨ c = '\n' := by
  simp only [placeholder, List.mem_append, List.mem_cons, List.mem_replicate, List.not_mem_nil,
    or_false] at h
  rcases h with ((h | h) | ⟨-, h⟩) | h
  · exact .inl h
  · exact .inr (.inr (.inl (isDigit_of_mem_ofNat h)))
  · exact .inr (.inr (.inr h))
  · exact .inr (.inl h)

theorem placeholder_append (n : Nat) (body t : Chars) :
    placeholder n body ++ t =
      opening :: (Text.ofNat n ++ (List.replicate (Text.occurrences '\n' body) '\n' ++ closing :: t)) := by
  simp [placeholder]

theorem readPlaceholder_placeholder (n : Nat) (body t : Chars) :
    readPlaceholder (placeholder n body ++ t) = some (n, t) := by
  have hdigits : ∀ c ∈ Text.ofNat n, Text.isDigit c = true := fun c => isDigit_of_mem_ofNat
  have hbreaks : ∀ c ∈ List.replicate (Text.occurrences '\n' body) '\n', (c == '\n') = true := by
    intro c hc
    rw [List.eq_of_mem_replicate hc]
    rfl
  have hne : Text.ofNat n ≠ [] := Nat.toDigits_ne_nil
  rw [placeholder_append]
  generalize List.replicate (Text.occurrences '\n' body) '\n' = breaks at hbreaks
  have hstop : (breaks ++ closing :: t).takeWhile Text.isDigit = [] ∧
      (breaks ++ closing :: t).dropWhile Text.isDigit = breaks ++ closing :: t := by
    cases breaks with
    | nil => exact ⟨rfl, rfl⟩
    | cons c cs =>
      have hc : Text.isDigit c = false := by
        rw [eq_of_beq (hbreaks c List.mem_cons_self)]
        rfl
      simp [hc]
  have htake : (Text.ofNat n ++ (breaks ++ closing :: t)).takeWhile Text.isDigit = Text.ofNat n := by
    rw [List.takeWhile_append_of_pos hdigits, hstop.1, List.append_nil]
  have hdrop : ((Text.ofNat n ++ (breaks ++ closing :: t)).dropWhile Text.isDigit).dropWhile
      (· == '\n') = closing :: t := by
    rw [List.dropWhile_append_of_pos hdigits, hstop.2, List.dropWhile_append_of_pos hbreaks]
    rfl
  simp only [readPlaceholder, htake, hdrop, digitsValue_ofNat]
  simp [hne]

theorem substitute_take_placeholder_append {shelf : List Chars} {n : Nat} {out : Chars}
    (h : shelf[n]? = some out) (body t : Chars) :
    Text.substitute (take shelf) (placeholder n body ++ t) = out ++ Text.substitute (take shelf) t := by
  have htake : take shelf (placeholder n body ++ t) = some (out, t) := by
    simp [take, readPlaceholder_placeholder, h]
  have hlen : t.length < (placeholder n body ++ t).length := by
    simp only [placeholder, List.length_append, List.length_cons]
    omega
  exact Text.substitute_of_some htake hlen

/-- A placeholder for what is on the shelf gives it back. -/
theorem restore_placeholder_append {shelf : List Chars} {n : Nat} {out : Chars}
    (h : shelf[n]? = some (escape out)) (body t : Chars) :
    restore shelf (placeholder n body ++ t) = out ++ restore shelf t := by
  rw [restore, substitute_take_placeholder_append h, unescape_escape_append, restore]

theorem restore_placeholder {shelf : List Chars} {n : Nat} {out : Chars} (h : shelf[n]? = some out)
    (body : Chars) : restore shelf (placeholder n body) = unescape out := by
  have := substitute_take_placeholder_append h body []
  rw [List.append_nil, Text.substitute_nil, List.append_nil] at this
  rw [restore, this]

/-- No placeholder goes on over the start of another one. -/
theorem readPlaceholder_append_opening {s : Chars} (hs : s ≠ []) (t : Chars) :
    readPlaceholder (s ++ opening :: t) =
      (readPlaceholder s).map fun (n, rest) => (n, rest ++ opening :: t) := by
  obtain ⟨c, cs, rfl⟩ := List.exists_cons_of_ne_nil hs
  have hdigit : Text.isDigit opening = false := rfl
  have hbreak : (opening == '\n') = false := rfl
  have hclosing : opening ≠ closing := by decide
  simp only [List.cons_append, readPlaceholder, Text.takeWhile_append_cons hdigit,
    Text.dropWhile_append_cons hdigit, Text.dropWhile_append_cons (p := (· == '\n')) hbreak]
  split
  · cases (cs.dropWhile Text.isDigit).dropWhile (· == '\n') with
    | nil => simp [hclosing]
    | cons d ds =>
      simp only [List.cons_append]
      split <;> rfl
  · rfl

theorem unescape_append_cons {c : Char} (ho : c ≠ opening) (hc : c ≠ closing) (s t : Chars) :
    unescape (s ++ c :: t) = unescape s ++ unescape (c :: t) := by
  simp only [unescape, Text.replace_eq_substitute _ (List.cons_ne_nil _ _)]
  refine Text.substitute_append ?_ fun v _ _ => ?_
  · exact fun hf => ⟨[opening, closing], (Text.exchange_eq_some hf).2.symm⟩
  · rw [Text.exchange, Text.after?_append_cons (by simp [ho, hc]), Text.exchange, Option.map_map,
      Option.map_map]
    rfl

/-- What is on the shelf comes back in the place of its placeholder, whatever stands around it. -/
theorem restore_append_placeholder {shelf : List Chars} {n : Nat} {c : Char} {out : Chars}
    (h : shelf[n]? = some (escape (c :: out))) (ho : c ≠ opening) (hc : c ≠ closing) (s body t : Chars) :
    restore shelf (s ++ (placeholder n body ++ t)) = restore shelf s ++ (c :: out ++ restore shelf t) := by
  have hseam : Text.substitute (take shelf) (s ++ (placeholder n body ++ t)) =
      Text.substitute (take shelf) s ++ Text.substitute (take shelf) (placeholder n body ++ t) := by
    refine Text.substitute_append take_suffix fun v hv _ => ?_
    rw [placeholder_append, take, readPlaceholder_append_opening hv, take]
    cases readPlaceholder v with
    | none => rfl
    | some r => simp [Function.comp_def]
  have hbrace : escape (c :: out) = c :: escape out := by rw [escape_cons, if_neg ho]
  have hplace := restore_placeholder_append h body t
  rw [restore, substitute_take_placeholder_append h, hbrace, List.cons_append] at hplace
  rw [restore, hseam, substitute_take_placeholder_append h, hbrace, List.cons_append,
    unescape_append_cons ho hc, hplace]
  rfl

end ViewBridge.Shelf

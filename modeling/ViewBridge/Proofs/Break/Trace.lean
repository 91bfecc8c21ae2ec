import ViewBridge.Proofs.Break.Emission
/-!
# Lines of a translation

A translation can be followed character by character: what is copied keeps its line, and what is written for a
directive counts its lines from the one on which the directive starts. So every character of the translation has a
line of the template. The translation loses the line breaks that its directives lose, and no others; if it loses none,
every character stands on its line.

Results:
* `Text.count_substituteFrom`: the line breaks of a pass.
* `Text.traceFrom_numbered`: a pass that loses no line break.
* `translate_lines`: the lines of a translation.
-/
namespace ViewBridge

namespace Text

/-- The characters of a text, each with its line, counted from the first one. -/
def numbered (line : Nat) : Chars → List (Char × Nat)
  | [] => []
  | c :: cs => (c, line) :: numbered (if c = '\n' then line + 1 else line) cs

theorem map_fst_numbered (line : Nat) (s : Chars) : (numbered line s).map Prod.fst = s := by
  induction s generalizing line with
  | nil => rfl
  | cons c cs ih => rw [numbered, List.map_cons, ih]

theorem numbered_append (line : Nat) (s t : Chars) :
    numbered line (s ++ t) = numbered line s ++ numbered (line + s.count '\n') t := by
  induction s generalizing line with
  | nil => rfl
  | cons c cs ih =>
    rw [List.cons_append, numbered, ih, numbered, List.cons_append, List.count_cons]
    congr 3
    by_cases hc : c = '\n'
    · simp [hc]; omega
    · simp [hc]

section
variable {σ : Type} (find : σ → Chars → Option (Chars × σ × Chars))

/-- A pass over characters with their lines: what is written for a directive counts from the line on which the
directive starts. -/
def traceFrom (st : σ) (s : List (Char × Nat)) : List (Char × Nat) × σ :=
  match s with
  | [] => ([], st)
  | c :: cs =>
    match find st (c.1 :: cs.map Prod.fst) with
    | some (out, st', rest) =>
      if rest.length ≤ cs.length then
        let (tail, last) := traceFrom st' (cs.drop (cs.length - rest.length))
        (numbered c.2 out ++ tail, last)
      else
        let (tail, last) := traceFrom st cs
        (c :: tail, last)
    | none =>
      let (tail, last) := traceFrom st cs
      (c :: tail, last)
termination_by s.length
decreasing_by all_goals simp only [List.length_cons, List.length_drop]; omega

/-- The directives of a pass, each with what is written for it. -/
def directivesFrom (st : σ) (s : Chars) : List (Chars × Chars) :=
  match s with
  | [] => []
  | c :: cs =>
    match find st (c :: cs) with
    | some (out, st', rest) =>
      if rest.length ≤ cs.length then
        ((c :: cs).take (cs.length + 1 - rest.length), out) :: directivesFrom st' rest
      else directivesFrom st cs
    | none => directivesFrom st cs
termination_by s.length
decreasing_by all_goals simp only [List.length_cons]; omega

end

/-- A recogniser whose answer is about the first part of the text, which is not empty. -/
def Advances {σ : Type} (find : σ → Chars → Option (Chars × σ × Chars)) : Prop :=
  ∀ st s out st' rest, find st s = some (out, st', rest) → ∃ used, used ≠ [] ∧ s = used ++ rest

section
variable {σ : Type} {find : σ → Chars → Option (Chars × σ × Chars)} {st st' : σ}

@[simp] theorem traceFrom_nil : traceFrom find st [] = ([], st) := by rw [traceFrom]

@[simp] theorem directivesFrom_nil : directivesFrom find st [] = [] := by rw [directivesFrom]

theorem traceFrom_cons_of_none {c : Char × Nat} {cs : List (Char × Nat)}
    (h : find st (c.1 :: cs.map Prod.fst) = none) :
    traceFrom find st (c :: cs) = (c :: (traceFrom find st cs).1, (traceFrom find st cs).2) := by
  rw [traceFrom, h]

theorem directivesFrom_cons_of_none {c : Char} {cs : Chars} (h : find st (c :: cs) = none) :
    directivesFrom find st (c :: cs) = directivesFrom find st cs := by
  rw [directivesFrom, h]

theorem traceFrom_of_some {used rest : List (Char × Nat)} {c : Char × Nat} {out : Chars}
    (h : find st ((c :: used ++ rest).map Prod.fst) = some (out, st', rest.map Prod.fst)) :
    traceFrom find st (c :: used ++ rest) =
      (numbered c.2 out ++ (traceFrom find st' rest).1, (traceFrom find st' rest).2) := by
  rw [List.cons_append, List.map_cons] at h
  have hlen : rest.length ≤ (used ++ rest).length := by rw [List.length_append]; omega
  have hdrop : (used ++ rest).drop ((used ++ rest).length - rest.length) = rest := by
    rw [List.length_append, Nat.add_sub_cancel, List.drop_left]
  rw [List.cons_append, traceFrom, h]
  simp only [List.length_map, hlen, if_true, hdrop]

theorem directivesFrom_of_some {used rest out : Chars} (hne : used ≠ [])
    (h : find st (used ++ rest) = some (out, st', rest)) :
    directivesFrom find st (used ++ rest) = (used, out) :: directivesFrom find st' rest := by
  obtain ⟨c, cs, rfl⟩ := List.exists_cons_of_ne_nil hne
  have hlen : rest.length ≤ (cs ++ rest).length := by rw [List.length_append]; omega
  have htake : (c :: cs ++ rest).take ((cs ++ rest).length + 1 - rest.length) = c :: cs := by
    rw [show (cs ++ rest).length + 1 - rest.length = (c :: cs).length by
      rw [List.length_append, List.length_cons]; omega, List.take_left]
  rw [List.cons_append] at h ⊢ htake
  rw [directivesFrom, h]
  simp only [hlen, if_true, htake]

/-- A pass taken apart: at its end, at a directive, or at a character that is copied. -/
theorem pass_induction {σ : Type} {find : σ → Chars → Option (Chars × σ × Chars)} (hadvances : Advances find)
    {motive : σ → Chars → Prop} (nil : ∀ st : σ, motive st [])
    (read : ∀ (st st' : σ) (used rest out : Chars), used ≠ [] → find st (used ++ rest) = some (out, st', rest) →
      motive st' rest → motive st (used ++ rest))
    (copy : ∀ (st : σ) (c : Char) (cs : Chars), find st (c :: cs) = none → motive st cs → motive st (c :: cs))
    (st : σ) (s : Chars) : motive st s := by
  induction hn : s.length using Nat.strongRecOn generalizing s st with
  | ind n ih =>
    cases hread : find st s with
    | some r =>
      obtain ⟨out, st', rest⟩ := r
      obtain ⟨used, hne, rfl⟩ := hadvances _ _ _ _ _ hread
      have hpos := List.length_pos_iff.2 hne
      rw [List.length_append] at hn
      exact read st st' used rest out hne hread (ih rest.length (by omega) st' rest rfl)
    | none =>
      cases s with
      | nil => exact nil st
      | cons c cs =>
        rw [List.length_cons] at hn
        exact copy st c cs hread (ih cs.length (by omega) st cs rfl)

theorem length_lt_of_append {used rest : Chars} (hne : used ≠ []) : rest.length < (used ++ rest).length := by
  have := List.length_pos_iff.2 hne
  rw [List.length_append]
  omega

/-- What a pass leaves of a character and what its directives have of it, is what the text and what is written for
them have of it. -/
theorem count_substituteFrom (hadvances : Advances find) (x : Char) (st : σ) (s : Chars) :
    (substituteFrom find st s).1.count x + ((directivesFrom find st s).map fun d => d.1.count x).sum =
      s.count x + ((directivesFrom find st s).map fun d => d.2.count x).sum := by
  induction st, s using pass_induction hadvances with
  | nil st => simp
  | read st st' used rest out hne hread ih =>
    rw [substituteFrom_of_some hread (length_lt_of_append hne), directivesFrom_of_some hne hread]
    simp only [List.map_cons, List.sum_cons, List.count_append]
    omega
  | copy st c cs hread ih =>
    rw [substituteFrom_cons_of_none hread, directivesFrom_cons_of_none hread, List.count_cons, List.count_cons]
    omega

/-- The characters of a pass that is followed are those of the pass. -/
theorem traceFrom_fst (hadvances : Advances find) (st : σ) (s : List (Char × Nat)) :
    ((traceFrom find st s).1.map Prod.fst, (traceFrom find st s).2) = substituteFrom find st (s.map Prod.fst) := by
  generalize hs : s.map Prod.fst = chars
  induction st, chars using pass_induction hadvances generalizing s with
  | nil st =>
    rw [List.map_eq_nil_iff.1 hs]
    simp
  | read st st' used rest out hne hread ih =>
    obtain ⟨s₁, s₂, rfl, rfl, rfl⟩ := List.map_eq_append_iff.1 hs
    obtain ⟨c, cs, rfl⟩ := List.exists_cons_of_ne_nil (fun h => hne (by rw [h]; rfl) : s₁ ≠ [])
    rw [← List.map_append] at hread
    rw [traceFrom_of_some hread, substituteFrom_of_some (List.map_append ▸ hread) (length_lt_of_append hne),
      ← ih s₂ rfl, List.map_append, map_fst_numbered]
  | copy st c cs hread ih =>
    obtain ⟨c', cs', rfl, rfl, rfl⟩ := List.map_eq_cons_iff.1 hs
    rw [traceFrom_cons_of_none hread, substituteFrom_cons_of_none hread, ← ih cs' rfl, List.map_cons]

/-- A pass whose directives lose no line break keeps every line. -/
theorem traceFrom_numbered (hadvances : Advances find) (line : Nat) (st : σ) (s : Chars)
    (h : ∀ d ∈ directivesFrom find st s, d.2.count '\n' = d.1.count '\n') :
    traceFrom find st (numbered line s) =
      (numbered line (substituteFrom find st s).1, (substituteFrom find st s).2) := by
  induction st, s using pass_induction hadvances generalizing line with
  | nil st => simp [numbered]
  | read st st' used rest out hne hread ih =>
    rw [directivesFrom_of_some hne hread, List.forall_mem_cons] at h
    obtain ⟨c, cs, rfl⟩ := List.exists_cons_of_ne_nil hne
    have hread' : find st (((c, line) :: numbered (if c = '\n' then line + 1 else line) cs ++
        numbered (line + (c :: cs).count '\n') rest).map Prod.fst) =
          some (out, st', (numbered (line + (c :: cs).count '\n') rest).map Prod.fst) := by
      rw [List.map_append, List.map_cons, map_fst_numbered, map_fst_numbered]
      exact hread
    rw [numbered_append, numbered, traceFrom_of_some hread', substituteFrom_of_some hread (length_lt_of_append hne),
      ih _ h.2, numbered_append, h.1]
  | copy st c cs hread ih =>
    rw [directivesFrom_cons_of_none hread] at h
    have hread' : find st ((c, line).1 :: (numbered (if c = '\n' then line + 1 else line) cs).map Prod.fst) = none := by
      rw [map_fst_numbered]
      exact hread
    rw [numbered, traceFrom_cons_of_none hread', substituteFrom_cons_of_none hread, ih _ h]
    rfl

/-- What holds of every directive that is read from a text with a property that the rest of it keeps. -/
theorem forall_directivesFrom (hadvances : Advances find) {P : σ → Chars → Prop} {Q : Chars × Chars → Prop}
    (hread : ∀ {st st' used rest out}, find st (used ++ rest) = some (out, st', rest) → P st (used ++ rest) →
      P st' rest ∧ Q (used, out))
    (hcopy : ∀ {st c cs}, P st (c :: cs) → P st cs) {st : σ} {s : Chars} (h : P st s) :
    ∀ d ∈ directivesFrom find st s, Q d := by
  induction st, s using pass_induction hadvances with
  | nil st => simp
  | read st st' used rest out hne hr ih =>
    obtain ⟨hrest, hused⟩ := hread hr h
    rw [directivesFrom_of_some hne hr]
    exact List.forall_mem_cons.2 ⟨hused, ih hrest⟩
  | copy st c cs hr ih =>
    rw [directivesFrom_cons_of_none hr]
    exact ih (hcopy h)

end

end Text

theorem Shelf.readPlaceholder_length {s rest : Chars} {n : Nat} (h : readPlaceholder s = some (n, rest)) :
    rest.length < s.length := by
  unfold readPlaceholder at h
  split at h
  · rename_i c cs
    simp only at h
    split at h
    · split at h
      · rename_i d tail hd
        split at h
        · cases h
          have hs : d :: rest <:+ cs := hd ▸ (List.dropWhile_suffix _).trans (List.dropWhile_suffix _)
          have := hs.length_le
          rw [List.length_cons] at this ⊢
          omega
        · cases h
      · cases h
    · cases h
  · cases h

namespace Translator

open ViewBridge.Shelf (Sound)

/-! ## Passes one after the other -/

namespace Pass

/-- Passes over characters with their lines. -/
def traceAll : List Pass → Progress → List (Char × Nat) → List (Char × Nat) × Progress
  | [], p, s => (s, p)
  | x :: xs, p, s => traceAll xs (Text.traceFrom x.find p s).2 (Text.traceFrom x.find p s).1

/-- The directives of passes, each with what is written for it. -/
def directivesAll : List Pass → Progress → Chars → List (Chars × Chars)
  | [], _, _ => []
  | x :: xs, p, s => Text.directivesFrom x.find p s ++ directivesAll xs (x.run p s).2 (x.run p s).1

theorem advances (x : Pass) : Text.Advances x.find := by
  intro p s out p' rest hf
  obtain ⟨a, hr, -, -⟩ := find_eq_some hf
  obtain ⟨used, rfl⟩ := x.tag.ends hr
  exact ⟨used ++ ['\x7d'], by simp, by simp⟩

theorem count_runAll (xs : List Pass) (c : Char) (p : Progress) (s : Chars) :
    (runAll xs p s).1.count c + ((directivesAll xs p s).map fun d => d.1.count c).sum =
      s.count c + ((directivesAll xs p s).map fun d => d.2.count c).sum := by
  induction xs generalizing p s with
  | nil => rfl
  | cons x xs ih =>
    have hx := Text.count_substituteFrom x.advances c p s
    have hxs := ih (x.run p s).2 (x.run p s).1
    rw [run] at hxs
    rw [runAll, directivesAll, List.map_append, List.map_append, List.sum_append, List.sum_append, run]
    omega

theorem traceAll_fst (xs : List Pass) (p : Progress) (s : List (Char × Nat)) :
    ((traceAll xs p s).1.map Prod.fst, (traceAll xs p s).2) = runAll xs p (s.map Prod.fst) := by
  induction xs generalizing p s with
  | nil => rfl
  | cons x xs ih =>
    rw [traceAll, runAll, run, ← Text.traceFrom_fst x.advances]
    exact ih _ _

theorem traceAll_numbered (xs : List Pass) (line : Nat) (p : Progress) (s : Chars)
    (h : ∀ d ∈ directivesAll xs p s, d.2.count '\n' = d.1.count '\n') :
    traceAll xs p (Text.numbered line s) = (Text.numbered line (runAll xs p s).1, (runAll xs p s).2) := by
  induction xs generalizing p s with
  | nil => rfl
  | cons x xs ih =>
    rw [directivesAll, List.forall_mem_append] at h
    rw [traceAll, Text.traceFrom_numbered x.advances line p s h.1, runAll]
    exact ih _ _ h.2

theorem directivesAll_append (xs ys : List Pass) (p : Progress) (s : Chars) :
    directivesAll (xs ++ ys) p s =
      directivesAll xs p s ++ directivesAll ys (runAll xs p s).2 (runAll xs p s).1 := by
  induction xs generalizing p s with
  | nil => rfl
  | cons x xs ih =>
    rw [List.cons_append, directivesAll, directivesAll, ih, List.append_assoc]
    rfl

/-! ## Careful passes -/

theorem Level.directives {x : Pass} (h : x.Level) (p : Progress) (s : Chars) :
    ∀ d ∈ Text.directivesFrom x.find p s, d.2.count '\n' = d.1.count '\n' := by
  refine Text.forall_directivesFrom x.advances (P := fun _ _ => True) (fun {p p' used rest out} hf _ => ⟨trivial, ?_⟩)
    (fun _ => trivial) trivial
  obtain ⟨a, hr, rfl, -⟩ := find_eq_some hf
  have := h.write (p := p) hr
  rw [List.count_append] at this
  exact Nat.add_right_cancel this

theorem Careful.directives {x : Pass} (h : x.Careful) {p : Progress} {s : Chars} (hs : Sound p.shelf s) :
    ∀ d ∈ Text.directivesFrom x.find p s, d.2.count '\n' ≤ d.1.count '\n' := by
  refine Text.forall_directivesFrom x.advances (P := fun p s => Sound p.shelf s)
    (fun {p p' used rest out} hf hs => ?_) (fun hs => hs.tail) hs
  obtain ⟨a, hr, rfl, rfl⟩ := find_eq_some hf
  obtain ⟨hshelf, -, hbreaks⟩ := h.write hs hr
  rw [List.count_append] at hbreaks
  exact ⟨hs.right.mono hshelf, Nat.le_of_add_le_add_right hbreaks⟩

/-- A pass that leaves on the shelf what is there, and a sound text sound. -/
structure Guards (x : Pass) : Prop where
  write : ∀ {p s a rest}, Sound p.shelf s → x.read s = some (a, rest) →
    p.shelf <+: (x.write p a).2.shelf ∧ Sound (x.write p a).2.shelf (x.write p a).1

theorem Guards.run {x : Pass} (h : x.Guards) {p : Progress} {s : Chars} (hs : Sound p.shelf s) :
    p.shelf <+: (x.run p s).2.shelf ∧ Sound (x.run p s).2.shelf (x.run p s).1 := by
  refine @Shelf.sound_substituteFrom _ _ Progress.shelf (fun {p v out p' rest} hf hv => ?_) p s hs
  obtain ⟨a, hr, rfl, rfl⟩ := find_eq_some hf
  refine ⟨?_, h.write hv hr⟩
  obtain ⟨used, hused, rfl⟩ := x.advances _ _ _ _ _ hf
  obtain ⟨c, behind, rfl⟩ := List.exists_cons_of_ne_nil hused
  obtain rfl : c = '\x7b' := by simpa using x.tag.opens hr
  exact ⟨[], '\x7b', behind, rfl, List.not_mem_nil, rfl⟩

theorem Guards.runAll {xs : List Pass} (h : ∀ x ∈ xs, x.Guards) {p : Progress} {s : Chars} (hs : Sound p.shelf s) :
    p.shelf <+: (Pass.runAll xs p s).2.shelf ∧ Sound (Pass.runAll xs p s).2.shelf (Pass.runAll xs p s).1 := by
  induction xs generalizing p s with
  | nil => exact ⟨List.prefix_refl _, hs⟩
  | cons x xs ih =>
    obtain ⟨hgrows, hsound⟩ := (h x List.mem_cons_self).run hs
    exact (ih (fun y hy => h y (List.mem_cons_of_mem x hy)) hsound).imp_left hgrows.trans

theorem Careful.guards {x : Pass} (h : x.Careful) : x.Guards where
  write hs hr := ⟨(h.write hs hr).1, (h.write hs hr).2.1⟩

theorem Careful.sound {x : Pass} (h : x.Careful) {p : Progress} {s : Chars} (hs : Sound p.shelf s) :
    Sound (x.run p s).2.shelf (x.run p s).1 := (h.guards.run hs).2

theorem Careful.runAll {xs : List Pass} (h : ∀ x ∈ xs, x.Careful) {p : Progress} {s : Chars} (hs : Sound p.shelf s) :
    Sound (Pass.runAll xs p s).2.shelf (Pass.runAll xs p s).1 ∧
      ∀ d ∈ directivesAll xs p s, d.2.count '\n' ≤ d.1.count '\n' := by
  induction xs generalizing p s with
  | nil => exact ⟨hs, by simp [directivesAll]⟩
  | cons x xs ih =>
    have hx := h x List.mem_cons_self
    obtain ⟨hsound, hdirectives⟩ := ih (fun y hy => h y (List.mem_cons_of_mem x hy)) (hx.sound hs)
    exact ⟨hsound, List.forall_mem_append.2 ⟨hx.directives hs, hdirectives⟩⟩

theorem Level.runAll {xs : List Pass} (h : ∀ x ∈ xs, x.Level) (p : Progress) (s : Chars) :
    ∀ d ∈ directivesAll xs p s, d.2.count '\n' = d.1.count '\n' := by
  induction xs generalizing p s with
  | nil => simp [directivesAll]
  | cons x xs ih =>
    exact List.forall_mem_append.2 ⟨(h x List.mem_cons_self).directives p s,
      ih (fun y hy => h y (List.mem_cons_of_mem x hy)) _ _⟩

end Pass

/-! ## The shelf -/

/-- The recogniser of escaped pairs. -/
def readPair : Chars → Option (Chars × Chars) := Text.exchange [Shelf.opening, Shelf.closing] [Shelf.opening]

theorem advances_stateless {find : Chars → Option (Chars × Chars)}
    (h : ∀ s out rest, find s = some (out, rest) → ∃ used, used ≠ [] ∧ s = used ++ rest) :
    Text.Advances (Text.stateless find) :=
  fun _ s out _ rest hf => h s out rest (Text.stateless_eq_some hf)

theorem advances_pair : Text.Advances (Text.stateless readPair) :=
  advances_stateless fun _ _ _ h => ⟨_, by simp, (Text.exchange_eq_some h).2⟩

theorem advances_take (shelf : List Chars) : Text.Advances (Text.stateless (Shelf.take shelf)) := by
  refine advances_stateless fun s out rest h => ?_
  obtain ⟨⟨n, rest'⟩, hread, h⟩ := Option.bind_eq_some_iff.1 h
  obtain ⟨body, -, he⟩ := Option.map_eq_some_iff.1 h
  obtain ⟨-, rfl⟩ := Prod.mk.inj he
  obtain ⟨used, rfl⟩ := Shelf.readPlaceholder_suffix hread
  refine ⟨used, ?_, rfl⟩
  rintro rfl
  have hlen := Shelf.readPlaceholder_length hread
  exact absurd hlen (Nat.lt_irrefl _)

theorem level_pair (s : Chars) :
    ∀ d ∈ Text.directivesFrom (Text.stateless readPair) () s, d.2.count '\n' = d.1.count '\n' := by
  refine Text.forall_directivesFrom advances_pair (P := fun _ _ => True) (fun hf _ => ⟨trivial, ?_⟩)
    (fun _ => trivial) trivial
  obtain ⟨rfl, hs⟩ := Text.exchange_eq_some (Text.stateless_eq_some hf)
  rw [List.append_cancel_right hs]
  rfl

/-- A body has as many line breaks as its placeholder. -/
theorem level_take {shelf : List Chars} {s : Chars} (h : Sound shelf s) :
    ∀ d ∈ Text.directivesFrom (Text.stateless (Shelf.take shelf)) () s, d.2.count '\n' = d.1.count '\n' := by
  refine Text.forall_directivesFrom (advances_take shelf) (P := fun _ s => Sound shelf s)
    (fun {_ _ used rest out} hf hs => ⟨hs.right, ?_⟩) (fun hs => hs.tail) h
  have htake := Text.stateless_eq_some hf
  generalize hv : used ++ rest = v at hs htake
  cases hs with
  | nil => cases htake
  | cons hc _ => rw [Shelf.take_cons_of_ne hc] at htake; cases htake
  | word hw _ =>
    cases hw with
    | pair => rw [List.cons_append, List.cons_append, List.nil_append, Shelf.take_pair] at htake; cases htake
    | @body n made hmade =>
      rw [Shelf.take, Shelf.readPlaceholder_placeholder, Option.bind_some] at htake
      simp only [hmade, Option.map_some] at htake
      obtain ⟨rfl, rfl⟩ := Prod.mk.inj (Option.some.inj htake)
      rw [List.append_cancel_right hv]
      exact (occurrences_placeholder n made).symm

/-! ## Lines of a translation -/

/-- The passes in front of the includes. -/
def frontPasses (t : Translator) : List Pass := entityPass :: blockKinds.map (BlockKind.pass t)

/-- The text of a template behind the passes over entities and blocks. -/
def behindBlocks (t : Translator) (source : Chars) : Chars × Progress :=
  Pass.runAll t.frontPasses {} (Shelf.escape source)

/-- The directives that the passes behind the blocks read, each with what is written for it. -/
def directives (t : Translator) (source : Chars) : List (Chars × Chars) :=
  Pass.directivesAll t.latePasses (t.behindBlocks source).2 (t.behindBlocks source).1

/-- A translation that is followed character by character, to the line of the template that each one comes from. -/
def traced (t : Translator) (source : Chars) : List (Char × Nat) :=
  let run := Pass.traceAll (Stage.pipeline.flatMap t.passes) {} (Text.numbered 1 (Shelf.escape source))
  let bodies := (Text.traceFrom (Text.stateless (Shelf.take run.2.shelf)) () run.1).1
  (Text.traceFrom (Text.stateless readPair) () bodies).1

theorem pipeline_eq_append (t : Translator) : Stage.pipeline.flatMap t.passes = t.frontPasses ++ t.latePasses := by
  rw [pipeline_eq_cons, frontPasses, List.cons_append]

theorem level_frontPasses (t : Translator) : ∀ x ∈ t.frontPasses, x.Level := by
  intro x hx
  rcases List.mem_cons.1 hx with rfl | hx
  · exact level_entities
  · obtain ⟨k, -, rfl⟩ := List.mem_map.1 hx
    exact level_block t k

theorem careful_frontPasses (t : Translator) : ∀ x ∈ t.frontPasses, x.Careful := by
  intro x hx
  rcases List.mem_cons.1 hx with rfl | hx
  · exact careful_entities
  · obtain ⟨k, -, rfl⟩ := List.mem_map.1 hx
    exact careful_block t k

theorem count_escape (s : Chars) : (Shelf.escape s).count '\n' = s.count '\n' := by
  induction s with
  | nil => rw [Shelf.escape_nil]
  | cons c cs ih =>
    rw [Shelf.escape_cons]
    split
    · rename_i hc
      rw [hc, List.count_cons_of_ne (by decide), List.count_cons_of_ne (by decide), List.count_cons_of_ne (by decide), ih]
    · rw [List.count_cons, List.count_cons, ih]

/-- A pass that loses no line break leaves all of them. -/
theorem count_of_level {σ : Type} {find : σ → Chars → Option (Chars × σ × Chars)} (hadvances : Text.Advances find)
    {st : σ} {s : Chars} (h : ∀ d ∈ Text.directivesFrom find st s, d.2.count '\n' = d.1.count '\n') :
    (Text.substituteFrom find st s).1.count '\n' = s.count '\n' := by
  have := Text.count_substituteFrom hadvances '\n' st s
  rw [List.map_congr_left h] at this
  exact Nat.add_right_cancel this

theorem count_behindBlocks (t : Translator) (source : Chars) :
    (t.behindBlocks source).1.count '\n' = source.count '\n' := by
  have := Pass.count_runAll t.frontPasses '\n' {} (Shelf.escape source)
  rw [List.map_congr_left (Pass.Level.runAll t.level_frontPasses {} (Shelf.escape source))] at this
  rw [behindBlocks, Nat.add_right_cancel this, count_escape]

/-- What the passes behind the blocks leave. -/
theorem runAll_pipeline (t : Translator) (source : Chars) :
    Pass.runAll (Stage.pipeline.flatMap t.passes) {} (Shelf.escape source) =
      Pass.runAll t.latePasses (t.behindBlocks source).2 (t.behindBlocks source).1 := by
  rw [pipeline_eq_append, Pass.runAll_append]
  rfl

theorem restore_eq (shelf : List Chars) (s : Chars) :
    Shelf.restore shelf s = (Text.substituteFrom (Text.stateless readPair) ()
      (Text.substituteFrom (Text.stateless (Shelf.take shelf)) () s).1).1 := by
  rw [Shelf.restore, Shelf.unescape, Text.replace_eq_substitute _ (by simp), Text.substitute_eq_substituteFrom,
    Text.substitute_eq_substituteFrom]
  rfl

theorem count_restore {shelf : List Chars} {s : Chars} (h : Sound shelf s) :
    (Shelf.restore shelf s).count '\n' = s.count '\n' := by
  rw [restore_eq, count_of_level advances_pair (level_pair _), count_of_level (advances_take shelf) (level_take h)]

theorem sound_behindBlocks (t : Translator) (source : Chars) :
    Sound (t.behindBlocks source).2.shelf (t.behindBlocks source).1 :=
  (Pass.Careful.runAll t.careful_frontPasses (Shelf.sound_escape source)).1

theorem sum_map_sub {ds : List (Chars × Chars)} (h : ∀ d ∈ ds, d.2.count '\n' ≤ d.1.count '\n') :
    (ds.map fun d => d.1.count '\n' - d.2.count '\n').sum + (ds.map fun d => d.2.count '\n').sum =
      (ds.map fun d => d.1.count '\n').sum := by
  induction ds with
  | nil => rfl
  | cons d ds ih =>
    rw [List.forall_mem_cons] at h
    have := ih h.2
    simp only [List.map_cons, List.sum_cons]
    omega

/-- The lines of a translation: no directive is written with more line breaks than it has; the translation has the line
breaks of the template but for those that directives lose; followed character by character, it is the translation; and
if no line break is lost, every character stands on the line that it comes from. -/
theorem translate_lines (t : Translator) (hext : Plain t.extension) (source : Chars) :
    (∀ d ∈ t.directives source, d.2.count '\n' ≤ d.1.count '\n') ∧
      (t.translate source).count '\n' + ((t.directives source).map fun d => d.1.count '\n' - d.2.count '\n').sum =
        source.count '\n' ∧
      (t.traced source).map Prod.fst = t.translate source ∧
      ((t.translate source).count '\n' = source.count '\n' →
        t.traced source = Text.numbered 1 (t.translate source)) := by
  obtain ⟨hsound, hle⟩ := Pass.Careful.runAll (careful_latePasses hext) (t.sound_behindBlocks source)
  have hsum : (t.translate source).count '\n' +
      ((t.directives source).map fun d => d.1.count '\n' - d.2.count '\n').sum = source.count '\n' := by
    have hcount := Pass.count_runAll t.latePasses '\n' (t.behindBlocks source).2 (t.behindBlocks source).1
    have hlost := sum_map_sub hle
    rw [t.count_behindBlocks] at hcount
    rw [t.translate_eq, runStages_eq, t.runAll_pipeline, count_restore hsound, directives]
    omega
  refine ⟨hle, hsum, ?_, fun hkept => ?_⟩
  · have hrun := Pass.traceAll_fst (Stage.pipeline.flatMap t.passes) {} (Text.numbered 1 (Shelf.escape source))
    rw [Text.map_fst_numbered] at hrun
    rw [t.translate_eq, runStages_eq, ← hrun, restore_eq, ← Text.traceFrom_fst (advances_take _),
      ← Text.traceFrom_fst advances_pair]
    rfl
  · have hlevel : ∀ d ∈ t.directives source, d.2.count '\n' = d.1.count '\n' := by
      intro d hd
      have hnone : ((t.directives source).map fun d => d.1.count '\n' - d.2.count '\n').sum = 0 := by omega
      have hzero := List.sum_eq_zero_iff_forall_eq_nat.1 hnone _ (List.mem_map_of_mem hd)
      have := hle d hd
      omega
    have hpasses : ∀ d ∈ Pass.directivesAll (Stage.pipeline.flatMap t.passes) {} (Shelf.escape source),
        d.2.count '\n' = d.1.count '\n' := by
      rw [pipeline_eq_append, Pass.directivesAll_append, List.forall_mem_append]
      exact ⟨Pass.Level.runAll t.level_frontPasses _ _, hlevel⟩
    have hrun := Pass.traceAll_numbered _ 1 {} (Shelf.escape source) hpasses
    rw [← t.runAll_pipeline] at hsound
    rw [traced, hrun, t.translate_eq, runStages_eq, restore_eq]
    simp only
    rw [Text.traceFrom_numbered (advances_take _) _ _ _ (level_take hsound),
      Text.traceFrom_numbered advances_pair _ _ _ (level_pair _)]

/-- A comment with a line break, and a variable behind it. -/
theorem translate_lines_comment :
    let t : Translator := ⟨.twig, "html".toList⟩
    let source := "\x7b*\n*\x7d\n\x7b$x\x7d".toList
    Plain t.extension ∧ (t.translate source).count '\n' = source.count '\n' ∧
      t.traced source = Text.numbered 1 "\x7b# \n #\x7d\n\x7b\x7b x|raw \x7d\x7d".toList := by
  intro t source
  have hext : Plain t.extension := by decide
  have hout : t.translate source = "\x7b# \n #\x7d\n\x7b\x7b x|raw \x7d\x7d".toList := by decide +kernel
  have hcount : (t.translate source).count '\n' = source.count '\n' := by rw [hout]; decide
  exact ⟨hext, hcount, hout ▸ (t.translate_lines hext source).2.2.2 hcount⟩

end Translator
end ViewBridge

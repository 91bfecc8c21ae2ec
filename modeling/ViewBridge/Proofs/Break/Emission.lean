import ViewBridge.Proofs.Break.Sound
import ViewBridge.Proofs.Balance.Line
import ViewBridge.Proofs.Balance.Depth
/-!
# Line breaks of directives

No pass writes more line breaks for a directive than the directive has, and what it writes is sound. The passes
over blocks and over entities write exactly as many.

Results:
* `tame_emitInclude`, `tame_emitIf`, `tame_emitElseif`, `tame_emitVariable`, `tame_emitFunction`: directives with one
  expression.
* `careful_pipeline`: every pass of the pipeline.
* `level_early`: the passes in front of the includes keep every line break.
-/
namespace ViewBridge

/-! ## Texts on one line -/

namespace Shelf

/-- A sound text on one line. -/
structure Still (shelf : List Chars) (s : Chars) : Prop where
  not_mem : '\n' ∉ s
  sound : Sound shelf s

namespace Still

variable {shelf : List Chars} {s t : Chars}

theorem count (h : Still shelf s) : s.count '\n' = 0 := List.count_eq_zero.2 h.not_mem

theorem append (hs : Still shelf s) (ht : Still shelf t) : Still shelf (s ++ t) :=
  ⟨fun hm => (List.mem_append.1 hm).elim hs.not_mem ht.not_mem, hs.sound.append ht.sound⟩

end Still

end Shelf

/-- A text without line breaks and shields. -/
def Plain (s : Chars) : Prop := '\n' ∉ s ∧ Shelf.opening ∉ s

instance (s : Chars) : Decidable (Plain s) := inferInstanceAs (Decidable (_ ∧ _))

namespace Plain

variable {s t : Chars}

theorem count (h : Plain s) : s.count '\n' = 0 := List.count_eq_zero.2 h.1

theorem still (h : Plain s) {shelf : List Chars} : Shelf.Still shelf s := ⟨h.1, .of_not_mem h.2⟩

theorem append (hs : Plain s) (ht : Plain t) : Plain (s ++ t) :=
  ⟨fun hm => (List.mem_append.1 hm).elim hs.1 ht.1, fun hm => (List.mem_append.1 hm).elim hs.2 ht.2⟩

theorem cons {c : Char} (hc : c ≠ '\n' ∧ c ≠ Shelf.opening) (hs : Plain s) : Plain (c :: s) :=
  append (s := [c]) ⟨by simpa using hc.1.symm, by simpa using hc.2.symm⟩ hs

theorem of_forall {p : Char → Bool} (hp : p '\n' = false ∧ p Shelf.opening = false) (h : ∀ c ∈ s, p c = true) :
    Plain s :=
  ⟨fun hm => absurd (h _ hm) (by simp [hp.1]), fun hm => absurd (h _ hm) (by simp [hp.2])⟩

theorem takeWhile {p : Char → Bool} (hp : p '\n' = false ∧ p Shelf.opening = false) (s : Chars) :
    Plain (s.takeWhile p) := of_forall hp fun _ => List.mem_takeWhile_imp

end Plain

namespace Shelf.Tame

variable {shelf : List Chars} {s t a b : Chars}

theorem of_suffix (h : t <:+ s) : Tame shelf s t := ⟨h.sublist.count_le '\n', fun hs => hs.of_suffix h⟩

theorem dropWhile (p : Char → Bool) (s : Chars) : Tame shelf s (s.dropWhile p) := of_suffix (List.dropWhile_suffix p)

theorem after? {lead rest : Chars} (h : Text.after? lead s = some rest) : Tame shelf s rest :=
  of_suffix (Text.after?_eq_some_iff.1 h ▸ List.suffix_append lead rest)

theorem tail (c : Char) (s : Chars) : Tame shelf (c :: s) s := of_suffix (List.suffix_cons c s)

/-- What stands in front of a foreign character. -/
theorem front {c : Char} (hc : foreign c = true) (s t : Chars) : Tame shelf (s ++ c :: t) s where
  breaks := by rw [List.count_append]; omega
  sound h := h.left_of_cons hc

theorem takeWhile {p : Char → Bool} (hp : ∀ c, p c = false → foreign c = true) (s : Chars) :
    Tame shelf s (s.takeWhile p) :=
  ⟨(List.takeWhile_prefix p).sublist.count_le '\n', Sound.takeWhile hp⟩

theorem of_still (h : Still shelf t) : Tame shelf s t := ⟨by rw [h.count]; omega, fun _ => h.sound⟩

theorem still (h : Tame shelf s t) (hs : Still shelf s) : Still shelf t where
  not_mem := List.count_eq_zero.1 (Nat.le_zero.1 (hs.count ▸ h.breaks))
  sound := h.sound hs.sound

/-- A text between two on one line. -/
theorem frame (h : Tame shelf a b) {u v : Chars} (hu : Still shelf u) (hv : Still shelf v) :
    Tame shelf a (u ++ b ++ v) where
  breaks := by
    have := h.breaks
    rw [List.count_append, List.count_append, hu.count, hv.count]
    omega
  sound hs := (hu.sound.append (h.sound hs)).append hv.sound

theorem behind (h : Tame shelf a b) {u : Chars} (hu : Still shelf u) : Tame shelf a (u ++ b) :=
  List.append_nil (u ++ b) ▸ h.frame hu ⟨List.not_mem_nil, .nil⟩

theorem within (h : Tame shelf a b) {u v : Chars} (hu : Plain u) (hv : Plain v) : Tame shelf a (u ++ b ++ v) :=
  h.frame hu.still hv.still

theorem tag (h : Tame shelf a b) : Tame shelf a (Dialect.tag b) := h.within (by decide) (by decide)

theorem output (h : Tame shelf a b) : Tame shelf a (Dialect.output b) := h.within (by decide) (by decide)

theorem rawOutput (d : Dialect) (h : Tame shelf a b) : Tame shelf a (d.rawOutput b) :=
  output (h.within (u := []) (by decide) (by cases d <;> decide))

theorem operand (h : Tame shelf a b) : Tame shelf a (operand b) := by
  unfold ViewBridge.operand
  split
  · exact h.within (u := ['(']) (v := [')']) (by decide) (by decide)
  · exact h

end Shelf.Tame

/-! ## What directives hold -/

namespace Directive

open ViewBridge.Shelf (Sound Tame foreign)

variable {shelf : List Chars}

theorem plain_takeWhile_targetChar (e : Chars) : Plain (e.takeWhile isTargetChar) := Plain.takeWhile (by decide) e

theorem tame_readAssignment {e : Chars} {a : Assignment} (h : readAssignment e = some a) :
    Plain a.name ∧ (∀ op ∈ a.operator, isJoining op = true) ∧ Tame shelf e a.value := by
  have hname := plain_takeWhile_targetChar e
  have hspaced {u value : Chars} (hd : (e.dropWhile isTargetChar).dropWhile Text.isBlank = u ++ value) :
      Tame shelf e (value.dropWhile Text.isBlank) :=
    .of_suffix ((List.dropWhile_suffix _).trans ((hd ▸ List.suffix_append u value).trans
      ((List.dropWhile_suffix _).trans (List.dropWhile_suffix _))))
  rcases Option.or_eq_some_iff.1 h with h | ⟨-, h⟩
  · simp only [readCompound] at h
    rcases Option.or_eq_some_iff.1 h with h | ⟨-, h⟩
    · split at h
      · rename_i op value hd
        split at h
        · rename_i hop
          cases h
          exact ⟨hname, by simpa using hop.2, hspaced (u := [op, '=']) hd⟩
        · cases h
      · cases h
    · split at h
      · rename_i value hd
        split at h
        · cases h
          refine ⟨⟨fun hm => hname.1 (List.mem_of_mem_dropLast hm), fun hm => hname.2 (List.mem_of_mem_dropLast hm)⟩,
            by simp; decide, .of_suffix ?_⟩
          exact (List.dropWhile_suffix _).trans ((hd ▸ List.suffix_cons '=' value).trans (List.dropWhile_suffix _))
        · cases h
      · cases h
  · simp only [readSimple] at h
    split at h
    · cases h
    · split at h
      · rename_i value hd
        split at h
        · cases h
        · cases h
          exact ⟨hname, by simp, hspaced (u := ['=']) hd⟩
      · cases h

theorem tame_readArguments {s args : Chars} (h : readArguments s = some args) : Tame shelf s args := by
  obtain ⟨s₁, h₁, h⟩ := Option.bind_eq_some_iff.1 h
  rw [Text.before?_eq_some_iff] at h
  exact (Tame.after? h₁).trans (h ▸ .front (c := ')') rfl args [])

theorem readChain_suffix (fuel : Nat) (s : Chars) : (readChain fuel s).2 <:+ s := by
  fun_induction readChain fuel s with
  | case1 s => exact List.suffix_refl s
  | case2 fuel s c rest hs hc names tail hr ih =>
    rw [hr] at ih
    have hsuffix : c :: rest <:+ s := Text.after?_eq_some_iff.1 hs ▸ List.suffix_append _ _
    exact (ih.trans (List.dropWhile_suffix _)).trans ((List.suffix_cons c rest).trans hsuffix)
  | case3 fuel s c rest hs hc => exact List.suffix_refl s
  | case4 fuel s hs => exact List.suffix_refl s

theorem plain_of_mem_readChain (fuel : Nat) (s : Chars) : ∀ name ∈ (readChain fuel s).1, Plain name := by
  fun_induction readChain fuel s with
  | case1 s => simp
  | case2 fuel s c rest hs hc names tail hr ih =>
    rw [hr] at ih
    have hchar : c ≠ '\n' ∧ c ≠ Shelf.opening := by constructor <;> (rintro rfl; cases hc)
    exact List.forall_mem_cons.2 ⟨.cons hchar (.takeWhile (by decide) rest), ih⟩
  | case3 fuel s c rest hs hc => simp
  | case4 fuel s hs => simp

/-- What the shape of a function body holds. -/
theorem tame_readFunctionBody (s : Chars) :
    match readFunctionBody s with
    | .method object chain args => Plain object ∧ (∀ name ∈ chain, Plain name) ∧ Tame shelf s args
    | .call name args => Plain name ∧ ∀ a ∈ args, Tame shelf s a
    | .other => True := by
  cases hm : readMethodCall s with
  | some body =>
    simp only [readFunctionBody, hm, Option.some_or, Option.getD_some]
    simp only [readMethodCall, Option.bind_eq_bind] at hm
    obtain ⟨s₁, h₁, hm⟩ := Option.bind_eq_some_iff.1 hm
    split at hm
    · cases hm
    · split at hm
      · cases hm
      · obtain ⟨args, hargs, hm⟩ := Option.bind_eq_some_iff.1 hm
        split at hm
        · cases hm
          have hrest := (readChain_suffix s₁.length (s₁.dropWhile Text.isNameChar)).trans (List.dropWhile_suffix _)
          exact ⟨.takeWhile (by decide) s₁, plain_of_mem_readChain _ _,
            ((Tame.after? h₁).trans (.of_suffix hrest)).trans ((Tame.dropWhile _ _).trans (tame_readArguments hargs))⟩
        · cases hm
  | none =>
    cases hp : readPlainCall s with
    | some body =>
      simp only [readFunctionBody, hm, hp, Option.none_or, Option.getD_some]
      simp only [readPlainCall] at hp
      split at hp
      · cases hp
      · split at hp
        · cases hp
          exact ⟨.takeWhile (by decide) s, by simp⟩
        · obtain ⟨args, hargs, hp⟩ := Option.bind_eq_some_iff.1 hp
          split at hp
          · cases hp
            refine ⟨.takeWhile (by decide) s, fun a ha => ?_⟩
            obtain rfl : args = a := by simpa using ha
            exact ((Tame.dropWhile _ s).trans (.dropWhile _ _)).trans (tame_readArguments hargs)
          · cases hp
    | none => simp [readFunctionBody, hm, hp]

theorem plain_readCounter {s word rest : Chars} (h : readCounter s = some (word, rest)) :
    Plain word ∧ rest <:+ s := by
  simp only [readCounter, Option.bind_eq_bind] at h
  obtain ⟨s₁, h₁, h⟩ := Option.bind_eq_some_iff.1 h
  split at h
  · cases h
  · cases h
    refine ⟨.takeWhile ⟨by decide +kernel, isWordChar_opening⟩ s₁, ?_⟩
    exact ((List.dropWhile_suffix _).trans (List.dropWhile_suffix _)).trans
      (Text.after?_eq_some_iff.1 h₁ ▸ List.suffix_append _ _)

theorem tame_readBound {part bound : Chars} (h : readBound part = some bound) : Tame shelf part bound := by
  unfold readBound at h
  split at h
  · rename_i hnil
    obtain ⟨c, hc, rfl⟩ := Option.map_eq_some_iff.1 h
    have hmem := List.mem_of_getLast? hc
    have hblank : Text.isBlank c = true := by
      by_contra hne
      have := List.dropWhile_eq_nil_iff.1 hnil c hmem
      exact hne this
    refine ⟨(List.singleton_sublist.2 hmem).count_le '\n', fun _ => .cons ?_ .nil⟩
    rintro rfl
    cases hblank
  · cases h
    rename_i hne
    exact @Tame.trimWhile shelf Text.isBlank rfl part

theorem tame_readComparison {part bound : Chars} {inclusive : Bool}
    (h : readComparison part = some (inclusive, bound)) : Tame shelf part bound := by
  unfold readComparison at h
  split at h
  · rename_i after ha
    split at h
    · rename_i b hb
      cases h
      exact (Tame.after? ha).trans (tame_readBound hb)
    · cases h
      exact .of_still (Plain.still (by decide))
  · simp only [Option.bind_eq_bind, Option.pure_def] at h
    obtain ⟨after, ha, h⟩ := Option.bind_eq_some_iff.1 h
    obtain ⟨b, hb, h⟩ := Option.bind_eq_some_iff.1 h
    cases h
    exact (Tame.after? ha).trans (tame_readBound hb)

theorem tame_readCounting {s : Chars} {c : CountingLoop} (h : readCounting s = some c) :
    Plain c.var ∧ Plain c.first ∧ Tame shelf s c.last := by
  simp only [readCounting, Option.bind_eq_bind] at h
  obtain ⟨⟨var, s₁⟩, h₁, h⟩ := Option.bind_eq_some_iff.1 h
  obtain ⟨s₂, h₂, h⟩ := Option.bind_eq_some_iff.1 h
  split at h
  · cases h
  · obtain ⟨s₃, h₃, h⟩ := Option.bind_eq_some_iff.1 h
    obtain ⟨⟨compared, s₄⟩, h₄, h⟩ := Option.bind_eq_some_iff.1 h
    obtain ⟨⟨inclusive, last⟩, h₅, h⟩ := Option.bind_eq_some_iff.1 h
    obtain ⟨s₆, h₆, h⟩ := Option.bind_eq_some_iff.1 h
    obtain ⟨s₇, h₇, h⟩ := Option.bind_eq_some_iff.1 h
    split at h
    · cases h
      obtain ⟨hvar, hs₁⟩ := plain_readCounter h₁
      have hs₂ : Tame shelf s s₂ := (Tame.of_suffix hs₁).trans (.after? h₂)
      have hs₃ : Tame shelf s s₃ :=
        (((hs₂.trans (.dropWhile _ _)).trans (.dropWhile _ _)).trans (.dropWhile _ _)).trans (.after? h₃)
      have hs₄ : Tame shelf s s₄ := (hs₃.trans (.dropWhile _ _)).trans (.of_suffix (plain_readCounter h₄).2)
      have hpart : ∀ c, (c != ';') = false → foreign c = true := by
        intro c hc
        obtain rfl : c = ';' := by simpa using hc
        rfl
      exact ⟨hvar, .takeWhile ⟨by decide +kernel, isAnyDigit_opening⟩ _,
        (hs₄.trans (.takeWhile hpart s₄)).trans (tame_readComparison h₅)⟩
    · cases h

theorem tame_bindingName (s : Chars) : Tame shelf s (bindingName s) := by
  refine Tame.trans ⟨List.filter_sublist.count_le '\n', fun h => ?_⟩ (.trimWhile rfl _)
  induction h with
  | nil => exact .nil
  | cons hc _ ih =>
    rw [List.filter_cons]
    split
    · exact .cons hc ih
    · exact ih
  | @word w s hw _ ih =>
    have hself : w.filter (· != '$') = w := List.filter_eq_self.2 fun c hc => by
      rw [bne_iff_ne]
      rintro rfl
      exact hw.solid.not_mem rfl hc
    rw [List.filter_append, hself]
    exact .word hw ih

/-- The names that a loop tag binds stand on one line. -/
theorem tame_bindingTexts {inner key : Chars} {value : Option Chars} (h : bindingTexts inner = some (key, value)) :
    (Tame shelf inner key ∧ key.count '\n' = 0) ∧ ∀ v ∈ value, Tame shelf inner v ∧ v.count '\n' = 0 := by
  have hzero (hbreak : ¬ inner.contains '\n' = true) {t : Chars} (ht : Tame shelf inner t) : t.count '\n' = 0 := by
    have := ht.breaks
    rw [List.contains_iff_mem] at hbreak
    rw [List.count_eq_zero.2 hbreak] at this
    omega
  unfold bindingTexts at h
  split at h
  · cases h
  · rename_i hbreak
    split at h
    · rename_i more
      split at h
      · cases h
        exact ⟨⟨.refl _, hzero hbreak (.refl _)⟩, by simp⟩
      · rename_i k v hc
        cases h
        have hinner := Text.cut?_eq_some hc
        rw [List.append_assoc] at hinner
        have hk : Tame shelf ('$' :: more) ('$' :: k) := by
          rw [hinner]
          exact .front (c := ' ') rfl ('$' :: k) ("=> $".toList ++ v)
        have hv : Tame shelf ('$' :: more) ('$' :: v) := by
          rw [hinner]
          exact .of_suffix ⟨'$' :: (k ++ " => ".toList), by simp⟩
        refine ⟨⟨hk, hzero hbreak hk⟩, fun v' hv' => ?_⟩
        obtain rfl : '$' :: v = v' := by simpa using hv'
        exact ⟨hv, hzero hbreak hv⟩
    · cases h

end Directive

namespace Translator

open ViewBridge.Shelf (Sound Tame Still foreign)

variable {shelf : List Chars}

/-! ## What directives become -/

theorem tame_emitInclude {t : Translator} (hext : Plain t.extension) (file : Chars) :
    Tame shelf file (t.emitInclude file) := by
  obtain ⟨d, extension⟩ := t
  have hdynamic {e : Chars} (h : Tame shelf file e) : Tame shelf file (d.includeDynamic e) := by
    cases d with
    | twig => exact (h.within (by decide) (by decide)).output
    | minijinja => exact (h.within (by decide) (by decide)).tag
  have hliteral {e : Chars} (h : Tame shelf file e) : Tame shelf file (d.includeLiteral e) := by
    cases d with
    | twig => exact (h.within (by decide) (by decide)).output
    | minijinja => exact (h.within (by decide) (by decide)).tag
  unfold emitInclude
  split
  · exact hdynamic (Expression.tame_expression file)
  · split
    · exact hliteral (.refl file)
    · exact hliteral ((Tame.refl file).within (u := []) (by decide) (hext.cons (by decide)))

theorem tame_emitIf (e : Chars) : Tame shelf e (emitIf e) :=
  ((Expression.tame_expression e).behind (Plain.still (by decide))).tag

theorem tame_emitElseif (t : Translator) (e : Chars) : Tame shelf e (t.emitElseif e) := by
  have hkeyword : Plain (t.dialect.elseifKeyword ++ [' ']) := by cases t.dialect <;> decide
  rw [emitElseif, List.append_cons]
  exact ((Expression.tame_expression e).behind hkeyword.still).tag

theorem tame_emitVariable (t : Translator) (body : Chars) : Tame shelf body (t.emitVariable body) := by
  have he := @Expression.tame_expression shelf body
  unfold emitVariable
  simp only
  split
  · rename_i a ha
    obtain ⟨name, operator, value⟩ := a
    obtain ⟨hname, hop, hvalue⟩ := @Directive.tame_readAssignment shelf _ _ ha
    have hhead : Plain ("set ".toList ++ name ++ " = ".toList) :=
      (Plain.append (by decide) hname).append (by decide)
    cases operator with
    | none => exact ((he.trans hvalue).behind (hhead.append (show Plain [] by decide)).still).tag
    | some op =>
      have hchar : (if op = '.' then '~' else op) ≠ '\n' ∧ (if op = '.' then '~' else op) ≠ Shelf.opening := by
        have := hop op rfl
        split <;> constructor <;> (try decide) <;> (rintro rfl; cases this)
      have hjoined : Plain (name ++ [' ', if op = '.' then '~' else op, ' ']) :=
        hname.append (.cons (by decide) (.cons hchar (by decide)))
      exact ((he.trans hvalue).behind (hhead.append hjoined).still).tag
  · exact (he.trans (FilterName.tame_filterNames _ _)).rawOutput _

theorem plain_filterOf? {d : Dialect} {helper filter : Chars} (h : d.filterOf? helper = some filter) :
    Plain filter := by
  have every : ∀ s ∈ Dialect.filters.map String.toList, Plain s := by decide
  exact every filter (Dialect.filterOf?_mem h)

theorem tame_emitFunction (t : Translator) (body : Chars) : Tame shelf body (t.emitFunction body) := by
  have hbody := @Directive.tame_readFunctionBody shelf body
  unfold emitFunction
  split
  · rename_i object chain args heq
    rw [heq] at hbody
    obtain ⟨hobject, hchain, hargs⟩ := hbody
    have hmembers : Plain (chain.flatMap fun m => '.' :: m) := by
      constructor <;> (intro hm; obtain ⟨m, hmem, hm⟩ := List.mem_flatMap.1 hm)
      · exact ((hchain m hmem).cons (c := '.') (by decide)).1 hm
      · exact ((hchain m hmem).cons (c := '.') (by decide)).2 hm
    have hcall : Tame shelf body ('(' :: Expression.translate args) :=
      (hargs.trans (Expression.tame_expression args)).behind (u := ['(']) (Plain.still (by decide))
    exact (hcall.within ((hobject.cons (c := '(') (by decide)).append hmembers) (by decide)).rawOutput _
  · rename_i name args heq
    rw [heq] at hbody
    obtain ⟨hname, hargs⟩ := hbody
    have hcall {made : Chars} (hmade : Tame shelf body made) :
        Tame shelf body ((if made ≠ [] ∧ ¬ Directive.hasTopComma {} made then t.dialect.filterForm? name made
          else none).getD (t.dialect.rawOutput ('(' :: name ++ '(' :: made ++ "))".toList))) := by
      have hopened : Tame shelf body ('(' :: made) := hmade.behind (u := ['(']) (Plain.still (by decide))
      have hplain : Tame shelf body (t.dialect.rawOutput ('(' :: name ++ '(' :: made ++ "))".toList)) :=
        (hopened.within (hname.cons (c := '(') (by decide)) (by decide)).rawOutput _
      split
      · cases hf : t.dialect.filterForm? name made with
        | none => exact hplain
        | some out =>
          obtain ⟨filter, hfilter, rfl⟩ := Option.map_eq_some_iff.1 hf
          have htail : Plain ('|' :: filter) := (plain_filterOf? hfilter).cons (by decide)
          exact (hmade.operand.within (u := []) (by decide) htail).output
      · exact hplain
    cases args with
    | none => exact hcall (.of_still (Plain.still (by decide)))
    | some args => exact hcall ((hargs args rfl).trans (Expression.tame_expression args))
  · exact ((Expression.tame_expression body).within (u := ['(']) (by decide) (by decide)).rawOutput _

theorem plain_numbered {name : String} (depth : Int) (h : Plain name.toList) : Plain (numbered name depth) := by
  have hdigits (n : Nat) : Plain (Text.ofNat n) :=
    Plain.of_forall (by decide) fun _ => Shelf.isDigit_of_mem_ofNat
  cases depth with
  | ofNat n => exact h.append (hdigits n)
  | negSucc n => exact h.append ((hdigits (n + 1)).cons (c := '-') (by decide))

theorem tame_emitLoop (t : Translator) (depth : Int) {header : Directive.LoopHeader}
    (hkey : ∀ key ∈ header.key, Still shelf key) (hvalue : ∀ value ∈ header.value, Still shelf value) :
    Tame shelf header.collection (t.emitLoop depth header) := by
  obtain ⟨d, extension⟩ := t
  have hcollection := @Expression.tame_expression shelf header.collection
  have hpair {key value : Chars} (hk : Still shelf key) (hv : Still shelf value) :
      Tame shelf header.collection (d.forPair key value (Expression.translate header.collection)) := by
    have hhead : Still shelf ("for ".toList ++ key ++ ", ".toList ++ value ++ " in ".toList) :=
      ((((Plain.still (by decide)).append hk).append (Plain.still (by decide))).append hv).append
        (Plain.still (by decide))
    cases d with
    | twig => exact (hcollection.behind hhead).tag
    | minijinja => exact (hcollection.operand.frame hhead (Plain.still (by decide))).tag
  have hsingle {value : Chars} (hv : Still shelf value) :
      Tame shelf header.collection (d.forSingle value (Expression.translate header.collection)) := by
    have hhead : Still shelf ("for ".toList ++ value ++ " in ".toList) :=
      ((Plain.still (by decide)).append hv).append (Plain.still (by decide))
    cases d with
    | twig => exact (hcollection.behind hhead).tag
    | minijinja => exact (hcollection.operand.frame hhead (Plain.still (by decide))).tag
  have hname {s : Chars} (h : Still shelf s) : Still shelf (Directive.bindingName s) :=
    (Directive.tame_bindingName s).still h
  unfold emitLoop
  split
  · rename_i c hc
    obtain ⟨hvar, hfirst, hlast⟩ := @Directive.tame_readCounting shelf _ _ hc
    have hbound : Tame shelf header.collection (d.upperBound (Expression.translate c.last) c.inclusive) := by
      have hoperand := (hlast.trans (Expression.tame_expression c.last)).operand
      have htail {u : Chars} (hu : Plain u) := hoperand.within (u := []) (by decide) hu
      cases d <;> cases c.inclusive
      · exact htail (by decide)
      · exact hoperand
      · exact hoperand
      · exact htail (by decide)
    have hhead : Plain ("for ".toList ++ c.var ++ " in range(".toList ++ c.first ++ ", ".toList) :=
      ((((Plain.append (by decide) hvar).append (by decide)).append hfirst).append (by decide))
    exact (hbound.within hhead (by decide)).tag
  · simp only
    split
    · rename_i key value hk hv
      obtain ⟨k, hkey', rfl⟩ := Option.map_eq_some_iff.1 hk
      obtain ⟨v, hvalue', rfl⟩ := Option.map_eq_some_iff.1 hv
      exact hpair (hname (hkey k hkey')) (hname (hvalue v hvalue'))
    · rename_i value hk hv
      obtain ⟨k, hkey', rfl⟩ := Option.map_eq_some_iff.1 hk
      exact hsingle (hname (hkey k hkey'))
    · have hkey : Plain (numbered "key" depth) := plain_numbered depth (by decide)
      have hvalue : Plain (numbered "value" depth) := plain_numbered depth (by decide)
      have hset {u v : Chars} (hu : Plain u) (hv : Plain v) : Plain (Dialect.tag (u ++ v)) :=
        (Plain.append (by decide) (hu.append hv)).append (by decide)
      exact ((hpair hkey.still hvalue.still).within (u := []) (by decide) (hset (by decide) hvalue)).within (u := [])
        (by decide) (hset (by decide) hkey)

/-! ## Passes -/

/-- A pass that reads a sound text writes no more line breaks than it reads, and leaves it sound. -/
structure Pass.Careful (x : Pass) : Prop where
  write : ∀ {p s a rest}, Sound p.shelf s → x.read s = some (a, rest) →
    p.shelf <+: (x.write p a).2.shelf ∧ Sound (x.write p a).2.shelf (x.write p a).1 ∧
      (x.write p a).1.count '\n' + rest.count '\n' ≤ s.count '\n'

/-- A pass that writes as many line breaks as it reads. -/
structure Pass.Level (x : Pass) : Prop where
  write : ∀ {p s a rest}, x.read s = some (a, rest) → (x.write p a).1.count '\n' + rest.count '\n' = s.count '\n'

namespace Pass

variable {α : Type} {read : Chars → Option (α × Chars)}

theorem careful_plain (tag : Directive.Tag read) {make : α → Chars}
    (h : ∀ {shelf s a rest}, Sound shelf s → read s = some (a, rest) →
      Sound shelf (make a) ∧ (make a).count '\n' + rest.count '\n' ≤ s.count '\n') :
    (plain tag make).Careful :=
  ⟨fun hs hread => ⟨List.prefix_refl _, h hs hread⟩⟩

/-- A pass over tags that hold a text in front of a foreign character. -/
theorem careful_body {read : Chars → Option (Chars × Chars)} (tag : Directive.Tag read) {make : Chars → Chars}
    (hmake : ∀ shelf body, Tame shelf body (make body))
    (hread : ∀ {s body rest}, read s = some (body, rest) →
      ∃ lead c tail, foreign c = true ∧ s = lead ++ (body ++ c :: (tail ++ rest))) :
    (plain tag make).Careful := by
  refine careful_plain tag fun {shelf s body rest} hs hr => ?_
  obtain ⟨lead, c, tail, hc, rfl⟩ := hread hr
  refine ⟨(hmake shelf body).sound (hs.right.left_of_cons hc), ?_⟩
  have := (hmake shelf body).breaks
  simp only [List.count_append, List.count_cons]
  omega

theorem careful_argument {read : Chars → Option (Chars × Chars)} (tag : Directive.Tag read) {make : Chars → Chars}
    (hmake : ∀ shelf body, Tame shelf body (make body))
    (hread : ∀ {s body rest}, read s = some (body, rest) →
      ∃ lead, Directive.readArgument lead s = some (body, rest)) :
    (plain tag make).Careful := by
  refine careful_body tag hmake fun {s body rest} hr => ?_
  obtain ⟨lead, hr⟩ := hread hr
  exact ⟨lead, '\x22', ['\x7d'], rfl, Directive.readArgument_eq_some hr⟩

/-- A tag without a text of its own. -/
theorem level_fixed (legacy statement : String) (hlegacy : Plain legacy.toList) (hstatement : Plain statement.toList) :
    (fixed legacy statement).Level := by
  refine ⟨fun {p s a rest} hr => ?_⟩
  obtain ⟨rest', hs, he⟩ := Option.map_eq_some_iff.1 hr
  obtain ⟨-, rfl⟩ := Prod.mk.inj he
  have hlead : Plain ('\x7b' :: legacy.toList ++ ['\x7d']) := (hlegacy.cons (by decide)).append (by decide)
  have htag : Plain (Dialect.tag statement.toList) := (Plain.append (by decide) hstatement).append (by decide)
  rw [Text.after?_eq_some_iff.1 hs, List.count_append, hlead.count,
    show ((fixed legacy statement).write p a).1 = Dialect.tag statement.toList from rfl, htag.count]

theorem careful_fixed (legacy statement : String) (hlegacy : Plain legacy.toList) (hstatement : Plain statement.toList) :
    (fixed legacy statement).Careful := by
  refine ⟨fun {p s a rest} _ hr => ?_⟩
  have htag : Plain (Dialect.tag statement.toList) := (Plain.append (by decide) hstatement).append (by decide)
  exact ⟨List.prefix_refl _, .of_not_mem htag.2, ((level_fixed legacy statement hlegacy hstatement).write hr).le⟩

end Pass

theorem level_block (t : Translator) (k : BlockKind) : (k.pass t).Level := by
  refine ⟨fun {p s body rest} hr => ?_⟩
  have hbreaks := (occurrences_placeholder p.shelf.length (k.output t body)).trans (k.occurrences_output t body)
  rw [BlockKind.eq_source_of_read k hr, List.count_append]
  exact congrArg (· + rest.count '\n') (hbreaks.trans (k.occurrences_source body).symm)

theorem careful_block (t : Translator) (k : BlockKind) : (k.pass t).Careful := by
  refine ⟨fun {p s body rest} _ hr => ?_⟩
  have hword : Shelf.Word (p.shelf ++ [k.output t body]) (Shelf.placeholder p.shelf.length (k.output t body)) :=
    .body List.getElem?_concat_length
  exact ⟨List.prefix_append _ _, .of_word hword, ((level_block t k).write hr).le⟩

theorem break_not_mem_of_readEntityBody {s body rest : Chars} (h : Directive.readEntityBody s = some (body, rest)) :
    '\n' ∉ body := by
  cases s with
  | nil => cases h
  | cons c cs =>
    simp only [Directive.readEntityBody] at h
    split at h
    · cases h
    · rename_i hc
      obtain ⟨⟨body', tail⟩, -, h⟩ := Option.bind_eq_some_iff.1 h
      split at h
      · cases h
      · rename_i hbreak
        cases h
        rw [List.contains_iff_mem] at hbreak
        exact List.not_mem_cons_of_ne_of_not_mem (Ne.symm hc) hbreak

/-- What a tag with entity quotes is made of: it stands on one line. -/
theorem readEntityTag_parts {s name body rest : Chars} (h : Directive.readEntityTag s = some ((name, body), rest)) :
    Plain name ∧ '\n' ∉ body ∧
      s = '\x7b' :: name ++ "=&quot;".toList ++ (body ++ '&' :: ("quot;\x7d".toList ++ rest)) := by
  refine ⟨?_, ?_, ?_⟩
  · have hlower := lower_of_readEntityTag h
    exact Plain.of_forall (p := fun c => decide ('a' ≤ c ∧ c ≤ 'z')) (by decide)
      fun c hc => decide_eq_true (hlower c hc)
  · simp only [Directive.readEntityTag, Option.bind_eq_bind, Option.pure_def] at h
    obtain ⟨s₁, -, h⟩ := Option.bind_eq_some_iff.1 h
    split at h
    · cases h
    · obtain ⟨s₂, -, h⟩ := Option.bind_eq_some_iff.1 h
      obtain ⟨r, hr, h⟩ := Option.bind_eq_some_iff.1 h
      cases h
      exact break_not_mem_of_readEntityBody hr
  · rw [Directive.readEntityTag_eq_some h]
    simp only [List.append_assoc]
    rfl

theorem tame_decodeEntities (s : Chars) : Tame shelf s (decodeEntities s) := by
  have hstep (entity decoded : String) (h : entity.toList.head? = some '&') (hplain : Plain decoded.toList)
      (s : Chars) : Tame shelf s (Text.replace entity.toList decoded.toList s) := by
    obtain ⟨cs, h⟩ := List.head?_eq_some_iff.1 h
    exact Expression.tame_replace h rfl (by rw [List.count_eq_zero.2 hplain.1]; exact Nat.zero_le _) hplain.2 s
  simp only [decodeEntities, List.foldl_cons, List.foldl_nil]
  have hquotes := (((hstep "&quot;" "\x22" rfl (by decide) s).trans (hstep "&#039;" "'" rfl (by decide) _)).trans
    (hstep "&#39;" "'" rfl (by decide) _)).trans (hstep "&apos;" "'" rfl (by decide) _)
  exact ((hquotes.trans (hstep "&lt;" "<" rfl (by decide) _)).trans (hstep "&gt;" ">" rfl (by decide) _)).trans
    (hstep "&amp;" "&" rfl (by decide) _)

theorem level_entities : entityPass.Level := by
  refine ⟨fun {p s a rest} hr => ?_⟩
  obtain ⟨name, body⟩ := a
  obtain ⟨hname, hbody, rfl⟩ := readEntityTag_parts hr
  have hdecoded : (decodeEntities body).count '\n' = 0 := by
    have := (@tame_decodeEntities [] body).breaks
    rw [List.count_eq_zero.2 hbody] at this
    omega
  have hout : (entityPass.write p (name, body)).1 =
      '\x7b' :: name ++ "=\x22".toList ++ decodeEntities body ++ "\x22\x7d".toList := rfl
  have hopen : ('\x7b' :: name).count '\n' = 0 := (hname.cons (by decide)).count
  have hquotes : "=\x22".toList.count '\n' = 0 ∧ "\x22\x7d".toList.count '\n' = 0 ∧
      "=&quot;".toList.count '\n' = 0 ∧ "quot;\x7d".toList.count '\n' = 0 := by decide
  rw [hout]
  simp only [List.count_append, List.count_cons_of_ne (show '&' ≠ '\n' by decide), hopen, hdecoded, hquotes,
    List.count_eq_zero.2 hbody, Nat.zero_add]

theorem careful_entities : entityPass.Careful := by
  refine ⟨fun {p s a rest} hs hr => ⟨List.prefix_refl _, ?_, (level_entities.write hr).le⟩⟩
  obtain ⟨name, body⟩ := a
  obtain ⟨hname, -, rfl⟩ := readEntityTag_parts hr
  have hhead : Plain ('\x7b' :: name ++ "=\x22".toList) := (hname.cons (by decide)).append (by decide)
  exact ((tame_decodeEntities body).within hhead (by decide)).sound (hs.right.left_of_cons rfl)

theorem careful_loops (t : Translator) : (Pass.loops t).Careful := by
  refine ⟨fun {p s mark rest} hs hr => ?_⟩
  obtain ⟨used, htext, rfl⟩ := Directive.exists_loopText hr
  have hopening (collection behind : Chars) (header : Directive.LoopHeader)
      (hs : Sound p.shelf ("\x7bloop=\x22".toList ++ (collection ++ '\x22' :: behind)))
      (hheader : header.collection = collection)
      (hkey : ∀ key ∈ header.key, Still p.shelf key) (hvalue : ∀ value ∈ header.value, Still p.shelf value) :
      Sound p.shelf (t.emitLoop (p.depth + 1) header) ∧
        (t.emitLoop (p.depth + 1) header).count '\n' ≤ collection.count '\n' := by
    subst hheader
    have htame := tame_emitLoop t (p.depth + 1) hkey hvalue
    exact ⟨htame.sound (hs.right.left_of_cons rfl), htame.breaks⟩
  cases htext with
  | closing =>
    have htag : Plain (Dialect.tag "endfor".toList) := by decide
    refine ⟨List.prefix_refl _, .of_not_mem htag.2, ?_⟩
    rw [List.count_append, show ((Pass.loops t).write p .closing).1 = Dialect.tag "endfor".toList from rfl,
      htag.count]
    exact Nat.add_le_add_right (Nat.zero_le _) _
  | @plain collection hquote =>
    simp only [List.append_assoc] at hs
    obtain ⟨hsound, hbreaks⟩ := hopening collection ('\x7d' :: rest)
      ⟨collection, none, none⟩ hs rfl (by simp) (by simp)
    refine ⟨List.prefix_refl _, hsound, (Nat.add_le_add_right hbreaks _).trans ?_⟩
    simp only [List.count_append]
    omega
  | @named collection inner names hquote hbrace hnames =>
    obtain ⟨key, value⟩ := names
    simp only [List.append_assoc] at hs
    have hinner : Sound p.shelf inner := hs.right.right.right.left_of_cons (c := '\x7d') rfl
    obtain ⟨hkey, hvalue⟩ := @Directive.tame_bindingTexts p.shelf _ _ _ hnames
    have hstill {t : Chars} (h : Tame p.shelf inner t ∧ t.count '\n' = 0) : Still p.shelf t :=
      ⟨List.count_eq_zero.1 h.2, h.1.sound hinner⟩
    obtain ⟨hsound, hbreaks⟩ := hopening collection (" as ".toList ++ (inner ++ '\x7d' :: rest))
      ⟨collection, some key, value⟩ hs rfl
      (fun k hk => by obtain rfl : key = k := by simpa using hk
                      exact hstill hkey) (fun v hv => hstill (hvalue v hv))
    refine ⟨List.prefix_refl _, hsound, (Nat.add_le_add_right hbreaks _).trans ?_⟩
    simp only [List.count_append]
    omega

theorem careful_constants : (Pass.plain Directive.tag_readConstant emitConstant).Careful := by
  refine Pass.careful_plain _ fun {shelf s name rest} hs hr => ?_
  simp only [Directive.readConstant, Option.bind_eq_bind] at hr
  obtain ⟨s₁, h₁, hr⟩ := Option.bind_eq_some_iff.1 hr
  obtain ⟨s₂, h₂, hr⟩ := Option.bind_eq_some_iff.1 hr
  split at hr
  · cases hr
    have hname : Plain (s₁.takeWhile Text.isNameChar) := .takeWhile (by decide) s₁
    have hout : Plain (emitConstant (s₁.takeWhile Text.isNameChar)) :=
      (Plain.append (by decide) ((Plain.append (by decide) hname).append (by decide))).append (by decide)
    have hsuffix : rest <:+ s := by
      have htail : rest <:+ s₁.dropWhile Text.isNameChar := by
        rcases Option.or_eq_some_iff.1 h₂ with h₂ | ⟨-, h₂⟩ <;>
          exact Text.after?_eq_some_iff.1 h₂ ▸ List.suffix_append _ _
      exact (htail.trans (List.dropWhile_suffix _)).trans (Text.after?_eq_some_iff.1 h₁ ▸ List.suffix_append _ _)
    refine ⟨.of_not_mem hout.2, ?_⟩
    rw [hout.count, Nat.zero_add]
    exact hsuffix.sublist.count_le '\n'
  · cases hr

theorem careful_latePasses {t : Translator} (hext : Plain t.extension) : ∀ x ∈ t.latePasses, x.Careful := by
  have hpasses : t.latePasses = [.plain Directive.tag_readInclude t.emitInclude, .loops t, .fixed "break" "break",
      .fixed "continue" "continue", .plain Directive.tag_readIf emitIf, .plain Directive.tag_readElseif t.emitElseif,
      .fixed "else" "else", .fixed "/if" "endif", .plain Directive.tag_readVariable t.emitVariable,
      .plain Directive.tag_readFunction t.emitFunction, .plain Directive.tag_readConstant emitConstant] := rfl
  have hfilter {read : Chars → Option (Chars × Chars)} {f : Chars × Chars → Bool} {lead : Chars}
      (hread : ∀ s, read s = (Directive.readArgument lead s).filter f) {s body rest : Chars}
      (hs : read s = some (body, rest)) : ∃ lead, Directive.readArgument lead s = some (body, rest) :=
    ⟨lead, (Option.filter_eq_some_iff.1 (hread s ▸ hs)).1⟩
  have hif {s body rest : Chars} (hs : Directive.readIf s = some (body, rest)) :
      ∃ lead, Directive.readArgument lead s = some (body, rest) :=
    (Option.or_eq_some_iff.1 hs).elim (fun h => ⟨_, h⟩) fun h => ⟨_, h.2⟩
  have hvariable {s body rest : Chars} (hs : Directive.readVariable s = some (body, rest)) :
      ∃ lead c tail, foreign c = true ∧ s = lead ++ (body ++ c :: (tail ++ rest)) :=
    ⟨['\x7b'], '\x7d', [], rfl, Directive.readVariable_eq_some hs⟩
  rw [hpasses]
  simp only [List.forall_mem_cons, List.not_mem_nil, false_implies, implies_true, and_true]
  exact ⟨Pass.careful_argument _ (fun _ => tame_emitInclude hext) (hfilter fun _ => rfl), careful_loops t,
    Pass.careful_fixed _ _ (by decide) (by decide), Pass.careful_fixed _ _ (by decide) (by decide),
    Pass.careful_argument _ (fun _ => tame_emitIf) hif,
    Pass.careful_argument _ (fun _ => tame_emitElseif t) fun h => ⟨_, h⟩,
    Pass.careful_fixed _ _ (by decide) (by decide), Pass.careful_fixed _ _ (by decide) (by decide),
    Pass.careful_body _ (fun _ => tame_emitVariable t) hvariable,
    Pass.careful_argument _ (fun _ => tame_emitFunction t) (hfilter fun _ => rfl), careful_constants⟩

end Translator
end ViewBridge

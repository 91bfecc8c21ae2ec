import ViewBridge.Proofs.Break.Ended
import ViewBridge.Proofs.Break.Trace
/-!
# Tidy texts

What a directive holds of an ended text is ended, and so is what is written for it. So if a template is ended, the text
is sound and ended in every stage of its translation, and so are the bodies on the shelf.

Results:
* `ended_emitInclude`, `ended_emitVariable`, …: what directives become.
* `Pass.Tidying.runAll`: what tidying passes leave, and the bodies that they put on the shelf.
* `tidying_passes`: all passes of a translator.
-/
namespace ViewBridge

namespace Shelf.Ended

variable {s t : Chars}

theorem right_of_not_mem (h : Ended (s ++ t)) (hs : opening ∉ s) : Ended t := h.right (hangs_of_not_mem hs)

theorem dropWhile {p : Char → Bool} (hp : p opening = false) (h : Ended s) : Ended (s.dropWhile p) := by
  rw [← List.takeWhile_append_dropWhile (p := p) (l := s)] at h
  refine h.right_of_not_mem fun hm => ?_
  rw [List.mem_takeWhile_imp hm] at hp
  cases hp

theorem takeWhile (p : Char → Bool) (h : Ended s) : Ended (s.takeWhile p) := by
  rw [← List.takeWhile_append_dropWhile (p := p) (l := s)] at h
  exact h.left

theorem after? {lead : Chars} (hlead : opening ∉ lead) (h : Ended s) (hs : Text.after? lead s = some t) : Ended t := by
  rw [Text.after?_eq_some_iff.1 hs] at h
  exact h.right_of_not_mem hlead

/-- A text between two texts without closing characters. -/
theorem within (h : Ended s) {u v : Chars} (hu : closing ∉ u) (hv : closing ∉ v) : Ended (u ++ s ++ v) :=
  ((of_not_mem hu).append h).append (.of_not_mem hv)

theorem tag (h : Ended s) : Ended (Dialect.tag s) := h.within (by decide) (by decide)

theorem output (h : Ended s) : Ended (Dialect.output s) := h.within (by decide) (by decide)

theorem rawOutput (d : Dialect) (h : Ended s) : Ended (d.rawOutput s) :=
  output (h.within (u := []) (by decide) (by cases d <;> decide))

theorem operand (h : Ended s) : Ended (operand s) := by
  unfold ViewBridge.operand
  split
  · exact h.within (u := ['(']) (v := [')']) (by decide) (by decide)
  · exact h

theorem placeholder (n : Nat) (made : Chars) : Ended (placeholder n made) := by
  have hdigits : ∀ c ∈ Text.ofNat n, Text.isDigit c = true := fun c => isDigit_of_mem_ofNat
  have hne : Text.ofNat n ≠ [] := Nat.toDigits_ne_nil
  have hinner : ∀ c ∈ Text.ofNat n ++ List.replicate (Text.occurrences '\n' made) '\n', Text.isDigit c = true ∨ c = '\n' :=
    fun c hc => (List.mem_append.1 hc).imp (hdigits c) List.eq_of_mem_replicate
  intro u v h
  rw [Shelf.placeholder, List.cons_append] at h
  refine ⟨[], _, ?_, List.append_ne_nil_of_left_ne_nil hne _, hinner⟩
  generalize Text.ofNat n ++ List.replicate (Text.occurrences '\n' made) '\n' = inner at h hinner
  rcases List.append_eq_append_iff.1 h with ⟨a, rfl, ha⟩ | ⟨b, hb, hv⟩
  · cases a with
    | nil => simp
    | cons c cs => simpa using congrArg List.length ha
  · cases b with
    | nil => simpa using hb.symm
    | cons c cs =>
      obtain ⟨rfl, -⟩ := List.cons.inj hv
      have hmem : closing ∈ opening :: inner := by simp [hb]
      rcases List.mem_cons.1 hmem with heq | hmem
      · exact absurd heq (by decide)
      · exact absurd (hinner _ hmem) (by decide)

end Shelf.Ended

theorem Text.invariant_substituteFrom {σ : Type} {find : σ → Chars → Option (Chars × σ × Chars)}
    (hadvances : Text.Advances find) {P : σ → Chars → Prop}
    (hread : ∀ {st st' used rest out}, find st (used ++ rest) = some (out, st', rest) → P st (used ++ rest) → P st' rest)
    (hcopy : ∀ {st c cs}, P st (c :: cs) → P st cs) {st : σ} {s : Chars} (h : P st s) :
    P (Text.substituteFrom find st s).2 [] := by
  induction st, s using Text.pass_induction hadvances with
  | nil st => rwa [Text.substituteFrom_nil]
  | read st st' used rest out hne hr ih =>
    rw [Text.substituteFrom_of_some hr (Text.length_lt_of_append hne)]
    exact ih (hread hr h)
  | copy st c cs hr ih =>
    rw [Text.substituteFrom_cons_of_none hr]
    exact ih (hcopy h)

/-! ## What directives hold -/

namespace Directive

open ViewBridge.Shelf (Ended)

theorem ended_readAssignment {e : Chars} {a : Assignment} (h : readAssignment e = some a) (he : Ended e) :
    Ended a.value := by
  have hstart : Ended ((e.dropWhile isTargetChar).dropWhile Text.isBlank) := (he.dropWhile rfl).dropWhile rfl
  have hspaced {u value : Chars} (hu : Shelf.opening ∉ u)
      (hd : (e.dropWhile isTargetChar).dropWhile Text.isBlank = u ++ value) : Ended (value.dropWhile Text.isBlank) := by
    rw [hd] at hstart
    exact (hstart.right_of_not_mem hu).dropWhile rfl
  rcases Option.or_eq_some_iff.1 h with h | ⟨-, h⟩
  · simp only [readCompound] at h
    rcases Option.or_eq_some_iff.1 h with h | ⟨-, h⟩
    · split at h
      · rename_i op value hd
        split at h
        · rename_i hop
          cases h
          refine hspaced (u := [op, '=']) (fun hm => ?_) hd
          rcases List.mem_cons.1 hm with heq | hm
          · have := hop.2
            rw [← heq] at this
            cases this
          · exact absurd hm (by decide)
        · cases h
      · cases h
    · split at h
      · rename_i value hd
        split at h
        · cases h
          have hrest := he.dropWhile (p := isTargetChar) rfl
          rw [hd] at hrest
          exact (hrest.right_of_not_mem (s := ['=']) (by decide)).dropWhile rfl
        · cases h
      · cases h
  · simp only [readSimple] at h
    split at h
    · cases h
    · split at h
      · rename_i value hd
        split at h
        · cases h
        · cases h
          exact hspaced (u := ['=']) (by decide) hd
      · cases h

theorem ended_readArguments {s args : Chars} (h : readArguments s = some args) (hs : Ended s) : Ended args := by
  obtain ⟨s₁, h₁, h⟩ := Option.bind_eq_some_iff.1 h
  rw [Text.before?_eq_some_iff] at h
  have hrest := hs.after? (by decide) h₁
  rw [h] at hrest
  exact hrest.left

theorem ended_readChain (fuel : Nat) {s : Chars} (hs : Ended s) : Ended (readChain fuel s).2 := by
  fun_induction readChain fuel s with
  | case1 s => exact hs
  | case2 fuel s c rest hread hc names tail hr ih =>
    rw [hr] at ih
    have hrest := hs.after? (by decide) hread
    have hname : c ≠ Shelf.opening := by rintro rfl; cases hc
    have htail := hrest.right_of_not_mem (s := [c]) (t := rest) (by simpa using hname.symm)
    exact ih (htail.dropWhile rfl)
  | case3 fuel s c rest hread hc => exact hs
  | case4 fuel s hread => exact hs

/-- What the shape of a function body holds. -/
theorem ended_readFunctionBody {s : Chars} (hs : Ended s) :
    match readFunctionBody s with
    | .method _ _ args => Ended args
    | .call _ args => ∀ a ∈ args, Ended a
    | .other => True := by
  cases hm : readMethodCall s with
  | some body =>
    simp only [readFunctionBody, hm, Option.some_or, Option.getD_some]
    simp only [readMethodCall, Option.bind_eq_bind] at hm
    obtain ⟨s₁, h₁, hm⟩ := Option.bind_eq_some_iff.1 hm
    obtain ⟨-, hm⟩ := Option.ite_none_left_eq_some.1 hm
    obtain ⟨-, hm⟩ := Option.ite_none_left_eq_some.1 hm
    obtain ⟨args, hargs, hm⟩ := Option.bind_eq_some_iff.1 hm
    obtain ⟨-, ⟨⟩⟩ := Option.ite_none_right_eq_some.1 hm
    have hobject := (hs.after? (by decide) h₁).dropWhile (p := Text.isNameChar) rfl
    exact ended_readArguments hargs ((ended_readChain _ hobject).dropWhile rfl)
  | none =>
    cases hp : readPlainCall s with
    | some body =>
      simp only [readFunctionBody, hm, hp, Option.none_or, Option.getD_some]
      simp only [readPlainCall] at hp
      obtain ⟨-, hp⟩ := Option.ite_none_left_eq_some.1 hp
      split at hp
      · cases hp
        simp
      · obtain ⟨args, hargs, hp⟩ := Option.bind_eq_some_iff.1 hp
        obtain ⟨-, ⟨⟩⟩ := Option.ite_none_right_eq_some.1 hp
        simpa using ended_readArguments hargs ((hs.dropWhile rfl).dropWhile rfl)
    | none => simp [readFunctionBody, hm, hp]

theorem ended_readCounter {s word rest : Chars} (h : readCounter s = some (word, rest)) (hs : Ended s) : Ended rest := by
  simp only [readCounter, Option.bind_eq_bind] at h
  obtain ⟨s₁, h₁, h⟩ := Option.bind_eq_some_iff.1 h
  obtain ⟨-, ⟨⟩⟩ := Option.ite_none_left_eq_some.1 h
  exact ((hs.after? (by decide) h₁).dropWhile isWordChar_opening).dropWhile rfl

theorem ended_readBound {part bound : Chars} (h : readBound part = some bound) (hs : Ended part) : Ended bound := by
  unfold readBound at h
  split at h
  · rename_i hnil
    obtain ⟨c, hc, rfl⟩ := Option.map_eq_some_iff.1 h
    have hblank := List.dropWhile_eq_nil_iff.1 hnil c (List.mem_of_getLast? hc)
    exact .of_isSpoken (.cons (Expression.isMute_of_isBlank hblank) (by decide))
  · cases h
    rename_i hne
    exact hs.trimWhile rfl

theorem ended_readComparison {part bound : Chars} {inclusive : Bool} (h : readComparison part = some (inclusive, bound))
    (hs : Ended part) : Ended bound := by
  unfold readComparison at h
  split at h
  · rename_i after ha
    split at h
    · rename_i b hb
      cases h
      exact ended_readBound hb (hs.after? (by decide) ha)
    · cases h
      exact .of_isSpoken (by decide)
  · simp only [Option.bind_eq_bind, Option.pure_def] at h
    obtain ⟨after, ha, h⟩ := Option.bind_eq_some_iff.1 h
    obtain ⟨b, hb, h⟩ := Option.bind_eq_some_iff.1 h
    cases h
    exact ended_readBound hb (hs.after? (by decide) ha)

theorem ended_readCounting {s : Chars} {c : CountingLoop} (h : readCounting s = some c) (hs : Ended s) :
    Ended c.last := by
  simp only [readCounting, Option.bind_eq_bind] at h
  obtain ⟨⟨var, s₁⟩, h₁, h⟩ := Option.bind_eq_some_iff.1 h
  obtain ⟨s₂, h₂, h⟩ := Option.bind_eq_some_iff.1 h
  obtain ⟨-, h⟩ := Option.ite_none_left_eq_some.1 h
  obtain ⟨s₃, h₃, h⟩ := Option.bind_eq_some_iff.1 h
  obtain ⟨⟨compared, s₄⟩, h₄, h⟩ := Option.bind_eq_some_iff.1 h
  obtain ⟨⟨inclusive, last⟩, h₅, h⟩ := Option.bind_eq_some_iff.1 h
  obtain ⟨s₆, h₆, h⟩ := Option.bind_eq_some_iff.1 h
  obtain ⟨s₇, h₇, h⟩ := Option.bind_eq_some_iff.1 h
  obtain ⟨-, ⟨⟩⟩ := Option.ite_none_right_eq_some.1 h
  have hs₂ := (ended_readCounter h₁ hs).after? (by decide) h₂
  have hdigits := ((hs₂.dropWhile (p := Text.isBlank) rfl).dropWhile isAnyDigit_opening).dropWhile (p := Text.isBlank) rfl
  have hs₃ := (hdigits.after? (by decide) h₃).dropWhile (p := Text.isBlank) rfl
  exact ended_readComparison h₅ ((ended_readCounter h₄ hs₃).takeWhile _)

theorem ended_filter_sigil {s : Chars} (front : Chars) (h : Ended (front ++ s)) :
    Ended (front ++ s.filter (· != '$')) := by
  induction s generalizing front with
  | nil => exact h
  | cons c cs ih =>
    by_cases hc : c = '$'
    · subst hc
      exact h.left.append (ih [] (h.behind rfl).1)
    · rw [List.filter_cons_of_pos (by simpa using hc), List.append_cons]
      rw [List.append_cons] at h
      exact ih _ h

theorem ended_bindingName {s : Chars} (hs : Ended s) : Ended (bindingName s) :=
  (ended_filter_sigil [] hs).trimWhile rfl

/-- The names that a loop tag binds. -/
theorem ended_bindingTexts {inner key : Chars} {value : Option Chars} (h : bindingTexts inner = some (key, value))
    (hs : Ended inner) : Ended key ∧ ∀ v ∈ value, Ended v := by
  unfold bindingTexts at h
  obtain ⟨-, h⟩ := Option.ite_none_left_eq_some.1 h
  split at h
  · rename_i more _
    split at h
    · cases h
      exact ⟨hs, by simp⟩
    · rename_i k v hc
      cases h
      have hinner : '$' :: more = ('$' :: k ++ " => ".toList) ++ '$' :: v := by simp [Text.cut?_eq_some hc]
      rw [hinner] at hs
      exact ⟨hs.left.left, by simpa using (hs.behind rfl).2⟩
  · cases h

end Directive

namespace Translator

open ViewBridge.Shelf (Ended Sound)

/-! ## What directives become -/

theorem ended_emitInclude {t : Translator} (hext : Shelf.closing ∉ t.extension) {file : Chars} (h : Ended file) :
    Ended (t.emitInclude file) := by
  obtain ⟨d, extension⟩ := t
  have hdynamic {e : Chars} (h : Ended e) : Ended (d.includeDynamic e) := by
    cases d with
    | twig => exact (h.within (by decide) (by decide)).output
    | minijinja => exact (h.within (by decide) (by decide)).tag
  have hliteral {e : Chars} (h : Ended e) : Ended (d.includeLiteral e) := by
    cases d with
    | twig => exact (h.within (by decide) (by decide)).output
    | minijinja => exact (h.within (by decide) (by decide)).tag
  unfold emitInclude
  split
  · exact hdynamic (Expression.ended_expression h)
  · split
    · exact hliteral h
    · exact hliteral (h.append ((Ended.of_not_mem hext).cons (by decide)))

theorem sound_emitInclude {t : Translator} (hext : Shelf.opening ∉ t.extension) {shelf : List Chars} {file : Chars}
    (h : Sound shelf file) : Sound shelf (t.emitInclude file) := by
  obtain ⟨d, extension⟩ := t
  have hwithin {s u v : Chars} (hs : Sound shelf s) (hu : Shelf.opening ∉ u) (hv : Shelf.opening ∉ v) :
      Sound shelf (u ++ s ++ v) := ((Sound.of_not_mem hu).append hs).append (.of_not_mem hv)
  have htag {s u v : Chars} (hs : Sound shelf s) (hu : Shelf.opening ∉ u) (hv : Shelf.opening ∉ v) :
      Sound shelf (Dialect.tag (u ++ s ++ v)) := hwithin (hwithin hs hu hv) (by decide) (by decide)
  have houtput {s u v : Chars} (hs : Sound shelf s) (hu : Shelf.opening ∉ u) (hv : Shelf.opening ∉ v) :
      Sound shelf (Dialect.output (u ++ s ++ v)) := hwithin (hwithin hs hu hv) (by decide) (by decide)
  have hliteral {e : Chars} (h : Sound shelf e) : Sound shelf (d.includeLiteral e) := by
    cases d with
    | twig => exact houtput h (by decide) (by decide)
    | minijinja => exact htag h (by decide) (by decide)
  unfold emitInclude
  split
  · have he := (Expression.tame_expression file).sound h
    cases d with
    | twig => exact houtput he (by decide) (by decide)
    | minijinja => exact htag he (by decide) (by decide)
  · split
    · exact hliteral h
    · exact hliteral (h.append (.of_not_mem (List.not_mem_cons_of_ne_of_not_mem (by decide) hext)))

theorem ended_emitIf {e : Chars} (h : Ended e) : Ended (emitIf e) :=
  ((Ended.of_not_mem (s := "if ".toList) (by decide)).append (Expression.ended_expression h)).tag

theorem ended_emitElseif (t : Translator) {e : Chars} (h : Ended e) : Ended (t.emitElseif e) := by
  have hkeyword : Shelf.closing ∉ t.dialect.elseifKeyword := by cases t.dialect <;> decide
  exact ((Ended.of_not_mem hkeyword).append ((Expression.ended_expression h).cons (by decide))).tag

theorem ended_emitVariable (t : Translator) {body : Chars} (h : Ended body) : Ended (t.emitVariable body) := by
  have he := Expression.ended_expression h
  unfold emitVariable
  simp only
  split
  · rename_i a ha
    obtain ⟨name, operator, value⟩ := a
    obtain ⟨hname, hop⟩ := Recoding.isSpoken_of_readAssignment ha
    have hvalue := Directive.ended_readAssignment ha he
    have hhead : IsSpoken ("set ".toList ++ name ++ " = ".toList) :=
      (IsSpoken.append (by decide) hname).append (by decide)
    cases operator with
    | none => exact ((Ended.of_isSpoken (hhead.append (show IsSpoken [] by decide))).append hvalue).tag
    | some op =>
      have hspoken : isMute (if op = '.' then '~' else op) = false := by
        split
        · decide
        · exact hop op rfl
      have hjoined : IsSpoken (name ++ [' ', if op = '.' then '~' else op, ' ']) :=
        hname.append (.cons (by decide) (.cons hspoken (by decide)))
      exact ((Ended.of_isSpoken (hhead.append hjoined)).append hvalue).tag
  · exact (FilterName.ended_filterNames _ he).rawOutput _

theorem ended_emitFunction (t : Translator) {body : Chars} (h : Ended body) : Ended (t.emitFunction body) := by
  have hbody := Directive.ended_readFunctionBody h
  have hnames := Recoding.spokenNames_readFunctionBody body
  have hparens {u e v : Chars} (hu : IsSpoken u) (he : Ended e) (hv : IsSpoken v) : Ended ('(' :: u ++ '(' :: e ++ v) :=
    ((Ended.of_isSpoken (.cons (by decide) hu)).append (he.cons (by decide))).append (.of_isSpoken hv)
  unfold emitFunction
  split
  · rename_i object chain args heq
    rw [heq] at hbody hnames
    have hmembers : IsSpoken (object ++ chain.flatMap fun m => '.' :: m) := by
      refine hnames.1.append fun c hc => ?_
      obtain ⟨m, hm, hc⟩ := List.mem_flatMap.1 hc
      exact (IsSpoken.cons (by decide) (hnames.2 m hm)) c hc
    exact (hparens hmembers (Expression.ended_expression hbody) (by decide)).rawOutput _
  · rename_i name args heq
    rw [heq] at hbody hnames
    have hcall {made : Chars} (hmade : Ended made) :
        Ended ((if made ≠ [] ∧ ¬ Directive.hasTopComma {} made then t.dialect.filterForm? name made
          else none).getD (t.dialect.rawOutput ('(' :: name ++ '(' :: made ++ "))".toList))) := by
      have hplain := (hparens hnames hmade (v := "))".toList) (by decide)).rawOutput t.dialect
      split
      · cases hf : t.dialect.filterForm? name made with
        | none => exact hplain
        | some out =>
          obtain ⟨filter, hfilter, rfl⟩ := Option.map_eq_some_iff.1 hf
          have htail : IsSpoken ('|' :: filter) := .cons (by decide) (Recoding.isSpoken_of_filterOf? hfilter)
          exact (hmade.operand.append (.of_isSpoken htail)).output
      · exact hplain
    cases args with
    | none => exact hcall (.of_isSpoken (by decide))
    | some args => exact hcall (Expression.ended_expression (hbody args rfl))
  · exact ((Expression.ended_expression h).within (u := ['(']) (by decide) (by decide)).rawOutput _

section
variable (d : Dialect) {key value e : Chars}

theorem ended_forPair (hk : Ended key) (hv : Ended value) (he : Ended e) : Ended (d.forPair key value e) := by
  have hkey : Ended ("for ".toList ++ key ++ ", ".toList) :=
    ((Ended.of_tagChars (by decide)).append hk).append (.of_tagChars (by decide))
  have hhead : Ended ("for ".toList ++ key ++ ", ".toList ++ value ++ " in ".toList) :=
    (hkey.append hv).append (.of_tagChars (by decide))
  cases d with
  | twig => exact (hhead.append he).tag
  | minijinja => exact ((hhead.append he.operand).append (.of_tagChars (by decide))).tag

theorem ended_forSingle (hv : Ended value) (he : Ended e) : Ended (d.forSingle value e) := by
  have hhead : Ended ("for ".toList ++ value ++ " in ".toList) :=
    ((Ended.of_tagChars (by decide)).append hv).append (.of_tagChars (by decide))
  cases d with
  | twig => exact (hhead.append he).tag
  | minijinja => exact ((hhead.append he.operand).append (.of_tagChars (by decide))).tag

theorem ended_forRange {var first : Chars} (hvar : IsSpoken var) (hfirst : IsSpoken first) (he : Ended e)
    (inclusive : Bool) : Ended (d.forRange var first e inclusive) := by
  have hlast := he.operand
  have hbound : Ended (d.upperBound e inclusive) := by
    cases d <;> cases inclusive
    · exact hlast.append (.of_tagChars (by decide))
    · exact hlast
    · exact hlast
    · exact hlast.append (.of_tagChars (by decide))
  have hname : Ended ("for ".toList ++ var ++ " in range(".toList) :=
    ((Ended.of_tagChars (by decide)).append (.of_isSpoken hvar)).append (.of_tagChars (by decide))
  have hhead : Ended ("for ".toList ++ var ++ " in range(".toList ++ first ++ ", ".toList) :=
    (hname.append (.of_isSpoken hfirst)).append (.of_tagChars (by decide))
  exact ((hhead.append hbound).append (.of_tagChars (by decide))).tag

end

theorem ended_emitLoop (t : Translator) (depth : Int) {header : Directive.LoopHeader} (h : Ended header.collection)
    (hkey : ∀ key ∈ header.key, Ended key) (hvalue : ∀ value ∈ header.value, Ended value) :
    Ended (t.emitLoop depth header) := by
  have hcollection := Expression.ended_expression h
  unfold emitLoop
  split
  · rename_i c hc
    obtain ⟨hvar, hfirst⟩ := Recoding.isSpoken_of_readCounting hc
    exact ended_forRange _ hvar hfirst (Expression.ended_expression (Directive.ended_readCounting hc h)) _
  · simp only
    split
    · rename_i key value hk hv
      obtain ⟨k, hkey', rfl⟩ := Option.map_eq_some_iff.1 hk
      obtain ⟨v, hvalue', rfl⟩ := Option.map_eq_some_iff.1 hv
      exact ended_forPair _ (Directive.ended_bindingName (hkey k hkey'))
        (Directive.ended_bindingName (hvalue v hvalue')) hcollection
    · rename_i value hk hv
      obtain ⟨k, hkey', rfl⟩ := Option.map_eq_some_iff.1 hk
      exact ended_forSingle _ (Directive.ended_bindingName (hkey k hkey')) hcollection
    · have hnumbered (name : String) (hname : name.toList.all isTagChar = true) : Ended (numbered name depth) :=
        .of_isSpoken (Recoding.isSpoken_numbered _ (isSpoken_of_tagChars hname) depth)
      have hset {u v : Chars} (hu : u.all isTagChar = true) (hv : Ended v) : Ended (Dialect.tag (u ++ v)) :=
        ((Ended.of_tagChars hu).append hv).tag
      have hkey := hnumbered "key" (by decide)
      have hvalue := hnumbered "value" (by decide)
      exact ((ended_forPair _ hkey hvalue hcollection).append (hset (by decide) hvalue)).append (hset (by decide) hkey)

/-! ## Passes -/

/-- A text between two stages, with the shelf: text and bodies are sound and ended. -/
structure Tidy (shelf : List Chars) (s : Chars) : Prop where
  sound : Sound shelf s
  ended : Ended s
  stocked : ∀ made ∈ shelf, Sound shelf made ∧ Ended made

/-- A pass that writes ended text for ended text, and puts no other bodies on the shelf than sound and ended ones. -/
structure Pass.Tidying (x : Pass) : Prop where
  guards : x.Guards
  ended : ∀ {p s a rest}, x.read s = some (a, rest) → Ended s → Ended (x.write p a).1
  stocks : ∀ {p s a rest}, x.read s = some (a, rest) → Ended s → Sound p.shelf s →
    ∀ made ∈ (x.write p a).2.shelf, made ∈ p.shelf ∨ Sound p.shelf made ∧ Ended made

namespace Pass.Tidying

/-- A tidying pass leaves a text tidy. -/
theorem run {x : Pass} (h : x.Tidying) {p : Progress} {s : Chars} (hs : Tidy p.shelf s) :
    Tidy (x.run p s).2.shelf (x.run p s).1 := by
  have hstart {front v rest : Chars} {a : x.Body} (hr : x.read v = some (a, rest)) (hv : Ended (front ++ v)) : Ended v := by
    obtain ⟨v', rfl⟩ := List.head?_eq_some_iff.1 (x.tag.opens hr)
    exact (hv.behind rfl).2
  refine ⟨(h.guards.run hs.sound).2, ?_, ?_⟩
  · refine Shelf.ended_substituteFrom (fun {p v out p' rest} hf => ?_) p s [] hs.ended
    obtain ⟨a, hr, rfl, -⟩ := find_eq_some hf
    obtain ⟨used, hv⟩ := x.tag.ends hr
    refine ⟨used ++ ['\x7d'], by simp, by simp [hv], fun inside => ?_, fun front hv => h.ended hr (hstart hr hv)⟩
    exact Shelf.hangs_concat inside used (by decide)
  · refine (Text.invariant_substituteFrom x.advances (P := fun p v => (∃ front, Ended (front ++ v)) ∧ Sound p.shelf v ∧
      ∀ made ∈ p.shelf, Sound p.shelf made ∧ Ended made) (fun {p p' used rest out} hf hv => ?_) (fun {p c cs} hv => ?_)
      ⟨⟨[], hs.ended⟩, hs.sound, hs.stocked⟩).2.2
    · obtain ⟨⟨front, hended⟩, hsound, hstocked⟩ := hv
      obtain ⟨a, hr, rfl, rfl⟩ := find_eq_some hf
      have hgrows := (h.guards.write hsound hr).1
      obtain ⟨u, hu⟩ := x.tag.ends hr
      have hrest : Ended rest := by
        rw [hu] at hended
        exact (List.append_assoc _ _ _ ▸ hended : Ended (front ++ u ++ '\x7d' :: rest)).behind rfl |>.1
      refine ⟨⟨[], hrest⟩, hsound.right.mono hgrows, fun made hmem => ?_⟩
      obtain hmade | hmade := h.stocks hr (hstart hr hended) hsound made hmem
      · exact (hstocked made hmade).imp_left (·.mono hgrows)
      · exact hmade.imp_left (·.mono hgrows)
    · obtain ⟨⟨front, hended⟩, hsound, hstocked⟩ := hv
      exact ⟨⟨front ++ [c], by rwa [← List.append_cons]⟩, hsound.tail, hstocked⟩

/-- So do tidying passes one after the other. -/
theorem runAll {xs : List Pass} (h : ∀ x ∈ xs, x.Tidying) {p : Progress} {s : Chars} (hs : Tidy p.shelf s) :
    Tidy (Pass.runAll xs p s).2.shelf (Pass.runAll xs p s).1 := by
  induction xs generalizing p s with
  | nil => exact hs
  | cons x xs ih => exact ih (fun y hy => h y (List.mem_cons_of_mem x hy)) ((h x List.mem_cons_self).run hs)

theorem plain {α : Type} {read : Chars → Option (α × Chars)} {tag : Directive.Tag read} {make : α → Chars}
    (hguards : (Pass.plain tag make).Guards)
    (h : ∀ {s a rest}, read s = some (a, rest) → Ended s → Ended (make a)) : (Pass.plain tag make).Tidying where
  guards := hguards
  ended := h
  stocks _ _ _ _ := .inl

/-- A pass over tags that hold a text behind a lead. -/
theorem body {read : Chars → Option (Chars × Chars)} {tag : Directive.Tag read} {make : Chars → Chars}
    (hguards : (Pass.plain tag make).Guards) (hmake : ∀ {body}, Ended body → Ended (make body))
    (hread : ∀ {s body rest}, read s = some (body, rest) → ∃ lead tail, Shelf.opening ∉ lead ∧ s = lead ++ (body ++ tail)) :
    (Pass.plain tag make).Tidying := by
  refine .plain hguards fun {s body rest} hr hs => ?_
  obtain ⟨lead, tail, hlead, rfl⟩ := hread hr
  exact hmake (hs.right_of_not_mem hlead).left

end Pass.Tidying

/-! ## The passes of a translator -/

theorem ended_decodeEntities {s : Chars} (h : Ended s) : Ended (decodeEntities s) := by
  have hstep (entity decoded : String) (hfirst : entity.toList.head? = some '&')
      (hentity : entity.toList.all isTagChar = true) (hdecoded : decoded.toList.all isTagChar = true) {s : Chars}
      (h : Ended s) : Ended (Text.replace entity.toList decoded.toList s) := by
    obtain ⟨cs, hfirst⟩ := List.head?_eq_some_iff.1 hfirst
    exact Expression.ended_replace _ _ hfirst rfl (isSpoken_of_tagChars hentity) (isSpoken_of_tagChars hdecoded) h
  simp only [decodeEntities, List.foldl_cons, List.foldl_nil]
  have hquotes := hstep "&apos;" "'" rfl (by decide) (by decide) (hstep "&#39;" "'" rfl (by decide) (by decide)
    (hstep "&#039;" "'" rfl (by decide) (by decide) (hstep "&quot;" "\x22" rfl (by decide) (by decide) h)))
  exact hstep "&amp;" "&" rfl (by decide) (by decide) (hstep "&gt;" ">" rfl (by decide) (by decide)
    (hstep "&lt;" "<" rfl (by decide) (by decide) hquotes))

theorem tidying_entities : entityPass.Tidying := by
  refine .plain careful_entities.guards fun {s a rest} hr hs => ?_
  obtain ⟨name, body⟩ := a
  have hname : IsSpoken name := fun c hc => isMute_of_isNameChar (by
    obtain ⟨hlow, hhigh⟩ := lower_of_readEntityTag hr c hc
    simp [Text.isNameChar, Text.isNameStart, Text.isLetter, hlow, hhigh])
  obtain ⟨-, -, rfl⟩ := readEntityTag_parts hr
  have hlead {w : Chars} (hw : IsSpoken w) : Shelf.opening ∉ '\x7b' :: name ++ w ∧ Shelf.closing ∉ '\x7b' :: name ++ w := by
    rw [List.cons_append]
    exact ⟨List.not_mem_cons_of_ne_of_not_mem (by decide) (Shelf.opening_not_mem_of_isSpoken (hname.append hw)),
      List.not_mem_cons_of_ne_of_not_mem (by decide) (Shelf.closing_not_mem_of_isSpoken (hname.append hw))⟩
  have hbody : Ended body := (hs.right_of_not_mem (hlead (by decide)).1).left
  exact (ended_decodeEntities hbody).within (hlead (by decide)).2 (by decide)

/-- What is written around the body of a block. -/
theorem BlockKind.exists_output (t : Translator) (k : BlockKind) : ∃ u v, (∀ body, k.output t body = u ++ body ++ v) ∧
    Shelf.opening ∉ u ∧ Shelf.closing ∉ u ∧ Shelf.opening ∉ v ∧ Shelf.closing ∉ v := by
  obtain ⟨d, extension⟩ := t
  cases k with
  | comment => exact ⟨_, _, fun _ => rfl, by decide, by decide, by decide, by decide⟩
  | ignored => exact ⟨_, _, fun _ => rfl, by decide, by decide, by decide, by decide⟩
  | verbatim => cases d <;> exact ⟨_, _, fun _ => rfl, by decide, by decide, by decide, by decide⟩

/-- The text of a block is sound and ended if the block is. -/
theorem tidy_output (t : Translator) (k : BlockKind) {shelf : List Chars} {body rest : Chars}
    (hsound : Sound shelf (k.source body ++ rest)) (hended : Ended (k.source body ++ rest)) :
    Sound shelf (k.output t body) ∧ Ended (k.output t body) := by
  obtain ⟨u, v, houtput, hu⟩ := k.exists_output t
  rw [houtput]
  rw [BlockKind.source, List.append_assoc, List.append_assoc] at hended hsound
  have hopening : Shelf.opening ∉ k.opening := by cases k <;> decide
  obtain ⟨c, cs, hcs, hc⟩ : ∃ c cs, k.closing = c :: cs ∧ Shelf.foreign c = true := by cases k <;> exact ⟨_, _, rfl, rfl⟩
  rw [hcs, List.cons_append] at hsound
  refine ⟨?_, (hended.right_of_not_mem hopening).left.within hu.2.1 hu.2.2.2⟩
  exact ((Sound.of_not_mem hu.1).append (hsound.right.left_of_cons hc)).append (.of_not_mem hu.2.2.1)

theorem tidying_block (t : Translator) (k : BlockKind) : (k.pass t).Tidying where
  guards := (careful_block t k).guards
  ended _ _ := .placeholder _ _
  stocks {p s body rest} hr hended hsound made hmem := by
    rw [k.eq_source_of_read hr] at hended hsound
    refine (List.mem_append.1 hmem).imp_right fun hmem => ?_
    obtain rfl := List.mem_singleton.1 hmem
    exact t.tidy_output k hsound hended

theorem tidying_fixed (legacy statement : String) (hcareful : (Pass.fixed legacy statement).Careful)
    (hstatement : IsSpoken statement.toList) : (Pass.fixed legacy statement).Tidying :=
  .plain hcareful.guards fun _ _ => (Ended.of_isSpoken hstatement).tag

theorem tidying_loops (t : Translator) : (Pass.loops t).Tidying where
  guards := (careful_loops t).guards
  ended {p s mark rest} hr hs := by
    obtain ⟨used, htext, rfl⟩ := Directive.exists_loopText hr
    have hcollection {collection behind : Chars} (h : Ended ("\x7bloop=\x22".toList ++ (collection ++ '\x22' :: behind))) :
        Ended collection ∧ Ended behind := by
      have hrest := h.right_of_not_mem (by decide)
      exact ⟨hrest.left, (hrest.behind rfl).1⟩
    cases htext with
    | closing => exact (Ended.of_isSpoken (s := "endfor".toList) (by decide)).tag
    | @plain collection hquote =>
      simp only [List.append_assoc] at hs
      exact ended_emitLoop t _ (hcollection hs).1 (by simp) (by simp)
    | @named collection inner names hquote hbrace hnames =>
      obtain ⟨key, value⟩ := names
      simp only [List.append_assoc] at hs
      obtain ⟨hfirst, hbehind⟩ := hcollection hs
      obtain ⟨hkey, hvalue⟩ := Directive.ended_bindingTexts hnames (hbehind.right_of_not_mem (by decide)).left
      exact ended_emitLoop t _ hfirst (by simpa using hkey) hvalue
  stocks {p s mark rest} hr _ _ made hmem := by
    cases mark <;> exact .inl hmem

theorem tidying_constants : (Pass.plain Directive.tag_readConstant emitConstant).Tidying := by
  refine .plain careful_constants.guards fun {s name rest} hr _ => ?_
  simp only [Directive.readConstant, Option.bind_eq_bind] at hr
  obtain ⟨s₁, h₁, hr⟩ := Option.bind_eq_some_iff.1 hr
  obtain ⟨s₂, h₂, hr⟩ := Option.bind_eq_some_iff.1 hr
  obtain ⟨-, ⟨⟩⟩ := Option.ite_none_right_eq_some.1 hr
  have hname : IsSpoken (s₁.takeWhile Text.isNameChar) :=
    Recoding.isSpoken_takeWhile (fun _ => Recoding.isNameChar_of_isMute) s₁
  exact ((Ended.of_isSpoken hname).within (u := "constant('".toList) (v := "')".toList) (by decide) (by decide)).output

theorem guards_includes {t : Translator} (hext : Shelf.opening ∉ t.extension) :
    (Pass.plain Directive.tag_readInclude t.emitInclude).Guards where
  write {p s file rest} hs hr := by
    have hargument : Directive.readArgument "\x7binclude=\x22".toList s = some (file, rest) :=
      (Option.filter_eq_some_iff.1 hr).1
    rw [Directive.readArgument_eq_some hargument] at hs
    exact ⟨List.prefix_refl _, sound_emitInclude hext (hs.right.left_of_cons rfl)⟩

/-- All passes of a translator leave a text tidy. -/
theorem tidying_passes {t : Translator} (hopening : Shelf.opening ∉ t.extension) (hclosing : Shelf.closing ∉ t.extension) :
    ∀ x ∈ Stage.pipeline.flatMap t.passes, x.Tidying := by
  -- the extension is written by the includes only
  have hcareful := careful_latePasses (t := ⟨t.dialect, []⟩) (show Plain [] by decide)
  have hlate (t : Translator) : t.latePasses = [.plain Directive.tag_readInclude t.emitInclude, .loops t,
      .fixed "break" "break", .fixed "continue" "continue", .plain Directive.tag_readIf emitIf,
      .plain Directive.tag_readElseif t.emitElseif, .fixed "else" "else", .fixed "/if" "endif",
      .plain Directive.tag_readVariable t.emitVariable, .plain Directive.tag_readFunction t.emitFunction,
      .plain Directive.tag_readConstant emitConstant] := rfl
  have hargument (lead : Chars) (hlead : Shelf.opening ∉ lead) {s body rest : Chars}
      (hr : Directive.readArgument lead s = some (body, rest)) :
      ∃ lead tail, Shelf.opening ∉ lead ∧ s = lead ++ (body ++ tail) := ⟨lead, _, hlead, Directive.readArgument_eq_some hr⟩
  rw [hlate] at hcareful
  rw [pipeline_eq_cons, hlate]
  simp only [blockKinds, List.map_cons, List.map_nil, List.cons_append, List.nil_append, List.forall_mem_cons,
    List.not_mem_nil, false_implies, implies_true, and_true] at hcareful ⊢
  obtain ⟨-, -, hbreak, hcontinue, hif, helseif, helse, hendif, hvariables, hfunctions, -⟩ := hcareful
  refine ⟨tidying_entities, tidying_block t _, tidying_block t _, tidying_block t _, ?_, tidying_loops t,
    tidying_fixed _ _ hbreak (by decide), tidying_fixed _ _ hcontinue (by decide), ?_, ?_,
    tidying_fixed _ _ helse (by decide), tidying_fixed _ _ hendif (by decide), ?_, ?_, tidying_constants⟩
  · exact .body (guards_includes hopening) (ended_emitInclude hclosing) fun hr =>
      hargument "\x7binclude=\x22".toList (by decide) (Option.filter_eq_some_iff.1 hr).1
  · refine .body hif.guards ended_emitIf fun hr => ?_
    rcases Option.or_eq_some_iff.1 hr with hr | ⟨-, hr⟩ <;> exact hargument _ (by decide) hr
  · exact .body helseif.guards (ended_emitElseif t) (hargument _ (by decide))
  · exact .body hvariables.guards (ended_emitVariable t) fun hr =>
      ⟨['\x7b'], _, by decide, Directive.readVariable_eq_some hr⟩
  · exact .body hfunctions.guards (ended_emitFunction t) fun hr =>
      hargument "\x7bfunction=\x22".toList (by decide) (Option.filter_eq_some_iff.1 hr).1

end Translator
end ViewBridge

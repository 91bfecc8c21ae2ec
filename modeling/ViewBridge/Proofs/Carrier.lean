import ViewBridge.Proofs.Block
import ViewBridge.Proofs.Carry
/-!
# Placeholders in directives

A placeholder in the argument of a directive is in what the directive becomes. There is one exception: a
counting loop takes its variable from the collection text, and the names that it binds are not written.

Results:
* `infix_emitLoop`: what a loop carries, and where.
* `Pass.infix_run`: a pass whose tags carry a placeholder carries it through the text.
* `infix_latePasses`: the passes behind the blocks.
-/
namespace ViewBridge.Directive

open ViewBridge.Shelf (Solid)

variable {w : Chars}

/-! ## Readers -/

theorem infix_readAssignment (h : Solid w) {e : Chars} {a : Assignment} (ha : readAssignment e = some a)
    (he : w <:+: e) : w <:+: a.value := by
  have hrest : w <:+: e.dropWhile isTargetChar := h.infix_dropWhile rfl he
  have hspaced := h.infix_dropWhile (p := Text.isBlank) rfl hrest
  rcases Option.or_eq_some_iff.1 ha with ha | ⟨-, ha⟩
  · simp only [readCompound] at ha
    rcases Option.or_eq_some_iff.1 ha with ha | ⟨-, ha⟩
    · split at ha
      · rename_i op value hd
        split at ha
        · rename_i hop
          rw [Option.some.injEq] at ha
          rw [hd] at hspaced
          have hne : Shelf.opening ≠ op := by rintro rfl; cases hop.2
          have hvalue := h.infix_of_infix_append (s := [op, '=']) (t := value) (by simp [hne]; decide) hspaced
          exact ha ▸ h.infix_dropWhile rfl hvalue
        · cases ha
      · cases ha
    · split at ha
      · rename_i value hd
        split at ha
        · rw [Option.some.injEq] at ha
          rw [hd] at hrest
          have hvalue := h.infix_of_infix_append (s := ['=']) (t := value) (by decide) hrest
          exact ha ▸ h.infix_dropWhile rfl hvalue
        · cases ha
      · cases ha
  · simp only [readSimple] at ha
    split at ha
    · cases ha
    · split at ha
      · rename_i value hd
        split at ha
        · cases ha
        · rw [Option.some.injEq] at ha
          rw [hd] at hspaced
          have hvalue := h.infix_of_infix_append (s := ['=']) (t := value) (by decide) hspaced
          exact ha ▸ h.infix_dropWhile rfl hvalue
      · cases ha

/-- A lead without a shield is not part of a placeholder behind it. -/
theorem infix_after (h : Solid w) {lead s rest : Chars} (hlead : Shelf.opening ∉ lead)
    (hs : Text.after? lead s = some rest) (hw : w <:+: s) : w <:+: rest := by
  rw [Text.after?_eq_some_iff.1 hs] at hw
  exact h.infix_of_infix_append hlead hw

theorem infix_readArguments (h : Solid w) {s args : Chars} (ha : readArguments s = some args)
    (hw : w <:+: s) : w <:+: args := by
  obtain ⟨s₁, h₁, ha⟩ := Option.bind_eq_some_iff.1 ha
  have hw := infix_after h (by decide) h₁ hw
  rw [Text.before?_eq_some_iff.1 ha] at hw
  rcases Text.infix_append_cons (t := []) (h.not_mem (c := ')') rfl) hw with hw | hw
  · exact hw
  · exact absurd hw (h.not_infix List.not_mem_nil)

theorem infix_readChain (h : Solid w) (fuel : Nat) {s : Chars} (hw : w <:+: s) :
    w <:+: (readChain fuel s).2 := by
  fun_induction readChain fuel s with
  | case1 s => exact hw
  | case2 fuel s c rest hs hc names tail hr ih =>
    have hrest := infix_after h (by decide) hs hw
    have hne : Shelf.opening ≠ c := by rintro rfl; cases hc
    rw [hr] at ih
    exact ih (h.infix_dropWhile rfl (h.infix_of_infix_append (s := [c]) (by simpa using hne) hrest))
  | case3 fuel s c rest hs hc => exact hw
  | case4 fuel s hs => exact hw

theorem infix_readMethodCall (h : Solid w) {s : Chars} {body : FunctionBody}
    (hb : readMethodCall s = some body) (hw : w <:+: s) :
    ∃ object chain args, body = .method object chain args ∧ w <:+: args := by
  simp only [readMethodCall, Option.bind_eq_bind] at hb
  obtain ⟨s₁, h₁, hb⟩ := Option.bind_eq_some_iff.1 hb
  have hw₁ := h.infix_dropWhile (p := Text.isNameChar) rfl (infix_after h (by decide) h₁ hw)
  split at hb
  · cases hb
  · split at hb
    · cases hb
    · obtain ⟨args, hargs, hb⟩ := Option.bind_eq_some_iff.1 hb
      split at hb
      · rw [Option.some.injEq] at hb
        exact ⟨_, _, args, hb.symm,
          infix_readArguments h hargs (h.infix_dropWhile rfl (infix_readChain h _ hw₁))⟩
      · cases hb

theorem infix_readPlainCall (h : Solid w) {s : Chars} {body : FunctionBody}
    (hb : readPlainCall s = some body) (hw : w <:+: s) :
    ∃ name args, body = .call name (some args) ∧ w <:+: args := by
  have hcall : w <:+: (s.dropWhile isCallChar).dropWhile Text.isBlank :=
    h.infix_dropWhile rfl (h.infix_dropWhile rfl hw)
  simp only [readPlainCall] at hb
  split at hb
  · cases hb
  · split at hb
    · rename_i hnil
      rw [hnil] at hcall
      exact absurd (List.infix_nil.1 hcall) h.ne_nil
    · obtain ⟨args, hargs, hb⟩ := Option.bind_eq_some_iff.1 hb
      split at hb
      · rw [Option.some.injEq] at hb
        exact ⟨_, args, hb.symm, infix_readArguments h hargs hcall⟩
      · cases hb

theorem infix_readFunctionBody (h : Solid w) {s : Chars} (hw : w <:+: s) :
    match readFunctionBody s with
    | .method _ _ args => w <:+: args
    | .call _ (some args) => w <:+: args
    | .call _ none => False
    | .other => True := by
  cases hm : readMethodCall s with
  | some body =>
    obtain ⟨object, chain, args, rfl, hargs⟩ := infix_readMethodCall h hm hw
    simpa [readFunctionBody, hm] using hargs
  | none =>
    cases hp : readPlainCall s with
    | some body =>
      obtain ⟨name, args, rfl, hargs⟩ := infix_readPlainCall h hp hw
      simpa [readFunctionBody, hm, hp] using hargs
    | none => simp [readFunctionBody, hm, hp]

/-! ## Loops -/

theorem isWordChar_opening : Text.isWordChar Shelf.opening = false := by decide +kernel

theorem isAnyDigit_opening : Text.isAnyDigit Shelf.opening = false := by decide +kernel

theorem infix_readCounter (h : Solid w) {s word rest : Chars} (hs : readCounter s = some (word, rest))
    (hw : w <:+: s) : w <:+: rest := by
  simp only [readCounter, Option.bind_eq_bind] at hs
  obtain ⟨s₁, h₁, hs⟩ := Option.bind_eq_some_iff.1 hs
  split at hs
  · cases hs
  · simp only [Option.some.injEq, Prod.mk.injEq] at hs
    rw [← hs.2]
    exact h.infix_dropWhile rfl (h.infix_dropWhile isWordChar_opening (infix_after h (by decide) h₁ hw))

theorem infix_readBound (h : Solid w) {part bound : Chars} (hb : readBound part = some bound)
    (hw : w <:+: part) : w <:+: bound := by
  have hpart : w <:+: part.dropWhile Text.isBlank := h.infix_dropWhile rfl hw
  unfold readBound at hb
  split at hb
  · rename_i hnil
    rw [hnil] at hpart
    exact absurd (List.infix_nil.1 hpart) h.ne_nil
  · rw [Option.some.injEq] at hb
    exact hb ▸ h.infix_dropEndWhile rfl hpart

theorem infix_readComparison (h : Solid w) {part bound : Chars} {inclusive : Bool}
    (hc : readComparison part = some (inclusive, bound)) (hw : w <:+: part) : w <:+: bound := by
  unfold readComparison at hc
  split at hc
  · rename_i after ha
    have hafter := infix_after h (by decide) ha hw
    split at hc
    · rename_i b hb
      simp only [Option.some.injEq, Prod.mk.injEq] at hc
      exact hc.2 ▸ infix_readBound h hb hafter
    · rename_i hb
      -- the part behind the sign is not empty
      unfold readBound at hb
      split at hb
      · rename_i hnil
        have := h.infix_dropWhile (p := Text.isBlank) rfl hafter
        rw [hnil] at this
        exact absurd (List.infix_nil.1 this) h.ne_nil
      · cases hb
  · simp only [Option.bind_eq_bind, Option.pure_def] at hc
    obtain ⟨after, ha, hc⟩ := Option.bind_eq_some_iff.1 hc
    obtain ⟨b, hb, hc⟩ := Option.bind_eq_some_iff.1 hc
    simp only [Option.some.injEq, Prod.mk.injEq] at hc
    exact hc.2 ▸ infix_readBound h hb (infix_after h (by decide) ha hw)

/-- A counting loop has a placeholder in its bound or not at all. -/
theorem infix_readCounting (h : Solid w) {s : Chars} {c : CountingLoop} (hc : readCounting s = some c)
    (hw : w <:+: s) : w <:+: c.last := by
  simp only [readCounting, Option.bind_eq_bind] at hc
  obtain ⟨⟨var, s₁⟩, h₁, hc⟩ := Option.bind_eq_some_iff.1 hc
  obtain ⟨s₂, h₂, hc⟩ := Option.bind_eq_some_iff.1 hc
  have hw := infix_after h (by decide) h₂ (infix_readCounter h h₁ hw)
  split at hc
  · cases hc
  · obtain ⟨s₃, h₃, hc⟩ := Option.bind_eq_some_iff.1 hc
    have hw := infix_after h (by decide) h₃
      (h.infix_dropWhile rfl (h.infix_dropWhile isAnyDigit_opening (h.infix_dropWhile rfl hw)))
    obtain ⟨⟨compared, s₄⟩, h₄, hc⟩ := Option.bind_eq_some_iff.1 hc
    have hw := infix_readCounter h h₄ (h.infix_dropWhile rfl hw)
    obtain ⟨⟨inclusive, last⟩, h₅, hc⟩ := Option.bind_eq_some_iff.1 hc
    obtain ⟨s₆, h₆, hc⟩ := Option.bind_eq_some_iff.1 hc
    obtain ⟨s₇, h₇, hc⟩ := Option.bind_eq_some_iff.1 hc
    split at hc
    · rename_i hend
      rw [Option.some.injEq] at hc
      rw [← hc]
      refine infix_readComparison h h₅ ?_
      rw [← List.takeWhile_append_dropWhile (p := (· != ';')) (l := s₄), Text.after?_eq_some_iff.1 h₆] at hw
      rcases Text.infix_append_cons (h.not_mem (c := ';') rfl) hw with hw | hw
      · exact hw
      · -- behind the bound there is only the step
        have hw := infix_after h (by decide) h₇ (h.infix_dropWhile rfl hw)
        have hend' := h.infix_dropWhile isWordChar_opening hw
        rw [hend.1] at hend'
        exact absurd hend' (h.not_infix (by decide))
    · cases hc

theorem infix_bindingName (h : Solid w) {s : Chars} (hw : w <:+: s) : w <:+: bindingName s := by
  have hfilter : w <:+: s.filter (· != '$') := by
    have hself : w.filter (· != '$') = w := List.filter_eq_self.2 fun c hc => by
      rw [bne_iff_ne]
      rintro rfl
      exact h.not_mem rfl hc
    have := hw.filter (· != '$')
    rwa [hself] at this
  exact h.infix_dropEndWhile rfl (h.infix_dropWhile rfl hfilter)

theorem infix_bindingTexts (h : Solid w) {inner key : Chars} {value : Option Chars}
    (hb : bindingTexts inner = some (key, value)) (hw : w <:+: inner) :
    w <:+: key ∨ ∃ v, value = some v ∧ w <:+: v := by
  unfold bindingTexts at hb
  split at hb
  · cases hb
  · split at hb
    · have hmore := h.infix_of_infix_append (s := ['$']) (by decide) hw
      split at hb
      · simp only [Option.some.injEq, Prod.mk.injEq] at hb
        exact .inl (hb.1 ▸ hw)
      · rename_i k v hc
        simp only [Option.some.injEq, Prod.mk.injEq] at hb
        rw [Text.cut?_eq_some hc, List.append_assoc] at hmore
        rcases Text.infix_append_cons (c := ' ') (t := "=> $".toList ++ v) (h.not_mem rfl) hmore with hk | hv
        · exact .inl (hb.1 ▸ List.infix_cons hk)
        · exact .inr ⟨_, hb.2.symm, List.infix_cons (h.infix_of_infix_append (by decide) hv)⟩
    · cases hb

theorem infix_readLoopEnd (h : Solid w) {s rest : Chars} {names : Option (Chars × Option Chars)}
    (hs : readLoopEnd s = some (names, rest)) (hw : w <:+: s) :
    w <:+: rest ∨ ∃ key value, names = some (key, value) ∧
      (w <:+: key ∨ ∃ v, value = some v ∧ w <:+: v) := by
  rcases Option.or_eq_some_iff.1 hs with hs | ⟨-, hs⟩
  · obtain ⟨⟨⟨key, value⟩, rest'⟩, hb, he⟩ := Option.map_eq_some_iff.1 hs
    rw [Prod.mk.injEq] at he
    obtain ⟨rfl, rfl⟩ := he
    rw [readBindings_eq] at hb
    obtain ⟨s₁, h₁, hb⟩ := Option.bind_eq_some_iff.1 hb
    obtain ⟨⟨inner, rest₂⟩, h₂, hb⟩ := Option.bind_eq_some_iff.1 hb
    obtain ⟨names, hnames, he⟩ := Option.map_eq_some_iff.1 hb
    rw [Prod.mk.injEq] at he
    obtain ⟨rfl, rfl⟩ := he
    have hw := infix_after h (by decide) h₁ hw
    rw [Text.cut?_eq_some h₂, List.append_assoc] at hw
    rcases Text.infix_append_cons (c := '\x7d') (t := rest₂) (h.not_mem rfl) hw with hw | hw
    · exact .inr ⟨key, value, rfl, infix_bindingTexts h hnames hw⟩
    · exact .inl hw
  · obtain ⟨rest', hs, he⟩ := Option.map_eq_some_iff.1 hs
    rw [Prod.mk.injEq] at he
    exact .inl (he.2 ▸ infix_after h (by decide) hs hw)

/-- The texts in a loop tag that may have a placeholder. -/
theorem infix_readLoop (h : Solid w) {s rest : Chars} {mark : LoopMark} (hs : readLoop s = some (mark, rest))
    (hw : w <:+: s) :
    w <:+: rest ∨ ∃ collection names, mark = loopMark collection names ∧
      (w <:+: collection ∨ ∃ key value, names = some (key, value) ∧
        (w <:+: key ∨ ∃ v, value = some v ∧ w <:+: v)) := by
  rw [readLoop_eq] at hs
  rcases Option.or_eq_some_iff.1 hs with hs | ⟨-, hs⟩
  · obtain ⟨s₁, h₁, hs⟩ := Option.bind_eq_some_iff.1 hs
    obtain ⟨⟨names, rest'⟩, hm, he⟩ := Option.map_eq_some_iff.1 hs
    obtain ⟨s₂, h₂, hend⟩ := Option.bind_eq_some_iff.1 hm
    rw [Prod.mk.injEq] at he
    obtain ⟨rfl, rfl⟩ := he
    have hw := infix_after h (by decide) h₁ hw
    rw [← List.takeWhile_append_dropWhile (p := (· != '\x22')) (l := s₁), Text.after?_eq_some_iff.1 h₂] at hw
    rcases Text.infix_append_cons (c := '\x22') (t := s₂) (h.not_mem rfl) hw with hw | hw
    · exact .inr ⟨_, _, rfl, .inl hw⟩
    · exact (infix_readLoopEnd h hend hw).imp_right fun hnames => ⟨_, _, rfl, .inr hnames⟩
  · obtain ⟨rest', hs, he⟩ := Option.map_eq_some_iff.1 hs
    rw [Prod.mk.injEq] at he
    exact .inl (he.2 ▸ infix_after h (by decide) hs hw)

/-- A text in which a counting loop binds a name with the word in it: the name is not written. -/
def Unwritten (w s : Chars) : Prop :=
  ∃ v header rest, v <:+ s ∧ readLoop v = some (.opening header, rest) ∧
    (readCounting header.collection).isSome ∧
      ∃ name, (header.key = some name ∨ header.value = some name) ∧ w <:+: name

end ViewBridge.Directive

namespace ViewBridge.Translator

open ViewBridge.Shelf (Solid)

variable {w : Chars}

/-! ## What directives become -/

theorem infix_tag {s : Chars} (hs : w <:+: s) : w <:+: Dialect.tag s := hs.trans (List.infix_append _ _ _)

theorem infix_output {s : Chars} (hs : w <:+: s) : w <:+: Dialect.output s :=
  hs.trans (List.infix_append _ _ _)

theorem infix_rawOutput (d : Dialect) {s : Chars} (hs : w <:+: s) : w <:+: d.rawOutput s :=
  infix_output (List.infix_append_of_infix_left hs)

theorem infix_operand {s : Chars} (hs : w <:+: s) : w <:+: operand s := by
  unfold operand
  split
  · exact List.infix_append_of_infix_left (List.infix_cons hs)
  · exact hs

theorem infix_emitInclude (h : Solid w) (t : Translator) : Carries w t.emitInclude := by
  intro file hw
  have hdynamic {e : Chars} (he : w <:+: e) : w <:+: t.dialect.includeDynamic e := by
    cases t with | mk d extension => cases d with
    | twig => exact infix_output (he.trans (List.infix_append _ _ _))
    | minijinja => exact infix_tag (he.trans (List.infix_append _ _ _))
  have hliteral {e : Chars} (he : w <:+: e) : w <:+: t.dialect.includeLiteral e := by
    cases t with | mk d extension => cases d with
    | twig => exact infix_output (he.trans (List.infix_append _ _ _))
    | minijinja => exact infix_tag (he.trans (List.infix_append _ _ _))
  unfold emitInclude
  split
  · exact hdynamic (Expression.carries_translate h _ hw)
  · split
    · exact hliteral hw
    · exact hliteral (List.infix_append_of_infix_left hw)

theorem infix_emitIf (h : Solid w) : Carries w emitIf := fun e hw =>
  infix_tag (List.infix_append_of_infix_right (Expression.carries_translate h e hw))

theorem infix_emitElseif (h : Solid w) (t : Translator) : Carries w t.emitElseif := fun e hw =>
  infix_tag (List.infix_append_of_infix_right (List.infix_cons (Expression.carries_translate h e hw)))

theorem infix_emitVariable (h : Solid w) (t : Translator) : Carries w t.emitVariable := by
  intro body hw
  have he := Expression.carries_translate h body hw
  simp only [emitVariable]
  cases ha : Directive.readAssignment (Expression.translate body) with
  | some a => exact infix_tag (List.infix_append_of_infix_right (Directive.infix_readAssignment h ha he))
  | none => exact infix_rawOutput _ (FilterName.carries_filterNames h _ _ he)

theorem infix_emitFunction (h : Solid w) (t : Translator) : Carries w t.emitFunction := by
  intro body hw
  have hbody := Directive.infix_readFunctionBody h hw
  unfold emitFunction
  cases hb : Directive.readFunctionBody body with
  | method object chain args =>
    rw [hb] at hbody
    exact infix_rawOutput _ (List.infix_append_of_infix_left (List.infix_append_of_infix_right
      (List.infix_cons (Expression.carries_translate h _ hbody))))
  | call name args =>
    rw [hb] at hbody
    cases args with
    | none => exact hbody.elim
    | some args =>
      have hargs := Expression.carries_translate h _ hbody
      have hplain : w <:+: t.dialect.rawOutput
          ('(' :: name ++ '(' :: Expression.translate args ++ "))".toList) :=
        infix_rawOutput _ (List.infix_append_of_infix_left
          (List.infix_append_of_infix_right (List.infix_cons hargs)))
      simp only
      split
      · cases hf : t.dialect.filterForm? name (Expression.translate args) with
        | none => exact hplain
        | some out =>
          obtain ⟨filter, -, rfl⟩ := Option.map_eq_some_iff.1 hf
          exact infix_output (List.infix_append_of_infix_left (infix_operand hargs))
      · exact hplain
  | other =>
    exact infix_rawOutput _ (List.infix_append_of_infix_left
      (List.infix_cons (Expression.carries_translate h _ hw)))

theorem infix_forPair (d : Dialect) {key value collection : Chars}
    (hw : w <:+: key ∨ w <:+: value ∨ w <:+: collection) : w <:+: d.forPair key value collection := by
  have hhead (hw : w <:+: key ∨ w <:+: value) :
      w <:+: "for ".toList ++ key ++ ", ".toList ++ value ++ " in ".toList := by
    refine List.infix_append_of_infix_left ?_
    rcases hw with hw | hw
    · exact List.infix_append_of_infix_left (List.infix_append_of_infix_left
        (List.infix_append_of_infix_right hw))
    · exact List.infix_append_of_infix_right hw
  rw [← or_assoc] at hw
  cases d with
  | twig =>
    refine infix_tag ?_
    rcases hw with hw | hw
    · exact List.infix_append_of_infix_left (hhead hw)
    · exact List.infix_append_of_infix_right hw
  | minijinja =>
    refine infix_tag (List.infix_append_of_infix_left ?_)
    rcases hw with hw | hw
    · exact List.infix_append_of_infix_left (hhead hw)
    · exact List.infix_append_of_infix_right (infix_operand hw)

theorem infix_forSingle (d : Dialect) {value collection : Chars} (hw : w <:+: value ∨ w <:+: collection) :
    w <:+: d.forSingle value collection := by
  have hhead (hw : w <:+: value) : w <:+: "for ".toList ++ value ++ " in ".toList :=
    List.infix_append_of_infix_left (List.infix_append_of_infix_right hw)
  cases d with
  | twig =>
    refine infix_tag ?_
    rcases hw with hw | hw
    · exact List.infix_append_of_infix_left (hhead hw)
    · exact List.infix_append_of_infix_right hw
  | minijinja =>
    refine infix_tag (List.infix_append_of_infix_left ?_)
    rcases hw with hw | hw
    · exact List.infix_append_of_infix_left (hhead hw)
    · exact List.infix_append_of_infix_right (infix_operand hw)

theorem infix_forRange (d : Dialect) (var first : Chars) {last : Chars} (inclusive : Bool) (hw : w <:+: last) :
    w <:+: d.forRange var first last inclusive := by
  have hbound : w <:+: d.upperBound last inclusive := by
    have hlast := infix_operand hw
    cases d <;> cases inclusive <;>
      first | exact hlast | exact List.infix_append_of_infix_left hlast
  exact infix_tag (List.infix_append_of_infix_left (List.infix_append_of_infix_right hbound))

/-- A loop writes what its collection text has. -/
theorem infix_emitLoop (h : Solid w) (t : Translator) (depth : Int) {header : Directive.LoopHeader}
    (hw : w <:+: header.collection) : w <:+: t.emitLoop depth header := by
  have hcollection := Expression.carries_translate h _ hw
  unfold emitLoop
  split
  · rename_i c hc
    exact infix_forRange _ _ _ _ (Expression.carries_translate h _ (Directive.infix_readCounting h hc hw))
  · simp only
    split
    · exact infix_forPair _ (.inr (.inr hcollection))
    · exact infix_forSingle _ (.inr hcollection)
    · exact List.infix_append_of_infix_left (List.infix_append_of_infix_left
        (infix_forPair _ (.inr (.inr hcollection))))

/-- A loop that does not count writes the names that it binds. -/
theorem infix_emitLoop_names (h : Solid w) (t : Translator) (depth : Int) {collection key : Chars}
    {value : Option Chars} (hc : Directive.readCounting collection = none)
    (hw : w <:+: key ∨ ∃ v, value = some v ∧ w <:+: v) :
    w <:+: t.emitLoop depth ⟨collection, some key, value⟩ := by
  simp only [emitLoop, hc]
  cases value with
  | none =>
    have hkey : w <:+: key := by simpa using hw
    exact infix_forSingle _ (.inl (Directive.infix_bindingName h hkey))
  | some v =>
    have hname : w <:+: key ∨ w <:+: v := by simpa using hw
    exact infix_forPair _ (hname.imp (Directive.infix_bindingName h)
      fun hv => .inl (Directive.infix_bindingName h hv))

/-! ## Passes -/

namespace Pass

/-- A pass loses no placeholder that the tags it reads do not lose. -/
theorem infix_run (h : Solid w) (x : Pass) {s : Chars}
    (hx : ∀ {p v out p' rest}, v <:+ s → x.find p v = some (out, p', rest) → w <:+: v →
      w <:+: out ∨ w <:+: rest) (p : Progress) (hw : w <:+: s) : w <:+: (x.run p s).1 := by
  refine Text.infix_substituteFrom (fun p v t hv hsuffix => ?_) x.find_suffix hx hw
  obtain ⟨c, cs, rfl⟩ := List.exists_cons_of_ne_nil hv
  have hc : c ≠ '\x7b' := by
    rintro rfl
    exact h.head_ne hv hsuffix (t := t) rfl rfl
  rw [find, List.cons_append, x.tag.none_of_head hc, Option.map_none]

theorem infix_run_plain (h : Solid w) {α : Type} {read : Chars → Option (α × Chars)}
    (tag : Directive.Tag read) (make : α → Chars)
    (hread : ∀ {s a rest}, read s = some (a, rest) → w <:+: s → w <:+: make a ∨ w <:+: rest)
    (p : Progress) {s : Chars} (hw : w <:+: s) : w <:+: ((plain tag make).run p s).1 := by
  refine infix_run h _ (fun {p v out p' rest} _ hf hv => ?_) p hw
  obtain ⟨a, hr, rfl, -⟩ := find_eq_some hf
  exact hread hr hv

theorem infix_run_fixed (h : Solid w) (legacy statement : String) (hlead : Shelf.opening ∉ legacy.toList)
    (p : Progress) {s : Chars} (hw : w <:+: s) : w <:+: ((fixed legacy statement).run p s).1 := by
  refine infix_run_plain h _ _ (fun {s a rest} hs hw => .inr ?_) p hw
  obtain ⟨r, hr, he⟩ := Option.map_eq_some_iff.1 hs
  rw [Prod.mk.injEq] at he
  refine Directive.infix_after h ?_ (he.2 ▸ hr) hw
  simp only [List.mem_append, List.mem_cons, List.not_mem_nil, or_false, not_or]
  exact ⟨⟨by decide, hlead⟩, by decide⟩

/-- A pass over tags with one argument. -/
theorem infix_run_argument (h : Solid w) {read : Chars → Option (Chars × Chars)} (tag : Directive.Tag read)
    {make : Chars → Chars} (hmake : Carries w make)
    (hread : ∀ {s body rest}, read s = some (body, rest) →
      ∃ lead, Shelf.opening ∉ lead ∧ Directive.readArgument lead s = some (body, rest))
    (p : Progress) {s : Chars} (hw : w <:+: s) : w <:+: ((plain tag make).run p s).1 := by
  refine infix_run_plain h tag make (fun {s body rest} hs hw => ?_) p hw
  obtain ⟨lead, hlead, hs⟩ := hread hs
  rw [Directive.readArgument_eq_some hs] at hw
  rcases Text.infix_append_cons (h.not_mem (c := '\x22') rfl) (h.infix_of_infix_append hlead hw) with hw | hw
  · exact .inl (hmake body hw)
  · exact .inr (h.infix_of_infix_append (s := ['\x7d']) (by decide) hw)

theorem infix_run_loops (h : Solid w) (t : Translator) (p : Progress) {s : Chars}
    (hnames : ¬ Directive.Unwritten w s) (hw : w <:+: s) : w <:+: ((loops t).run p s).1 := by
  refine infix_run h _ (fun {p v out p' rest} hv hf hw => ?_) p hw
  obtain ⟨mark, hr, rfl, -⟩ := find_eq_some hf
  refine (Directive.infix_readLoop h hr hw).symm.imp_left ?_
  rintro ⟨collection, names, rfl, hcollection | ⟨key, value, rfl, hname⟩⟩
  · exact infix_emitLoop h t _ hcollection
  · refine infix_emitLoop_names h t _ ?_ hname
    by_contra hc
    refine hnames ⟨v, _, _, hv, hr, Option.isSome_iff_ne_none.2 hc, ?_⟩
    rcases hname with hname | ⟨v, rfl, hname⟩
    · exact ⟨key, .inl rfl, hname⟩
    · exact ⟨v, .inr rfl, hname⟩

end Pass

theorem infix_readVariable (h : Solid w) (t : Translator) {s body rest : Chars}
    (hs : Directive.readVariable s = some (body, rest)) (hw : w <:+: s) :
    w <:+: t.emitVariable body ∨ w <:+: rest := by
  rw [Directive.readVariable_eq_some hs] at hw
  have hw := h.infix_of_infix_append (s := ['\x7b']) (by decide) hw
  exact (Text.infix_append_cons (h.not_mem (c := '\x7d') rfl) hw).imp_left (infix_emitVariable h t body)

theorem infix_readConstant (h : Solid w) {s name rest : Chars}
    (hs : Directive.readConstant s = some (name, rest)) (hw : w <:+: s) : w <:+: rest := by
  simp only [Directive.readConstant, Option.bind_eq_bind] at hs
  obtain ⟨s₁, h₁, hs⟩ := Option.bind_eq_some_iff.1 hs
  obtain ⟨s₂, h₂, hs⟩ := Option.bind_eq_some_iff.1 hs
  have hw := h.infix_dropWhile (p := Text.isNameChar) rfl (Directive.infix_after h (by decide) h₁ hw)
  split at hs
  · simp only [Option.some.injEq, Prod.mk.injEq] at hs
    rw [← hs.2]
    rcases Option.or_eq_some_iff.1 h₂ with h₂ | ⟨-, h₂⟩
    · exact Directive.infix_after h (by decide) h₂ hw
    · exact Directive.infix_after h (by decide) h₂ hw
  · cases hs

/-- The passes behind the blocks lose no placeholder but those that a counting loop binds. -/
theorem infix_latePasses (h : Solid w) (t : Translator) (p : Progress) {s : Chars}
    (hnames : ¬ Directive.Unwritten w (Pass.runAll (t.passes .includes) p s).1) (hw : w <:+: s) :
    w <:+: (Pass.runAll t.latePasses p s).1 := by
  have hfilter {read : Chars → Option (Chars × Chars)} {f : Chars × Chars → Bool} {lead : Chars}
      (hlead : Shelf.opening ∉ lead) (hread : ∀ s, read s = (Directive.readArgument lead s).filter f)
      {s body rest : Chars} (hs : read s = some (body, rest)) :
      ∃ lead, Shelf.opening ∉ lead ∧ Directive.readArgument lead s = some (body, rest) :=
    ⟨lead, hlead, (Option.filter_eq_some_iff.1 (hread s ▸ hs)).1⟩
  have hinclude (p : Progress) {s : Chars} (hw : w <:+: s) :=
    Pass.infix_run_argument h Directive.tag_readInclude (infix_emitInclude h t)
      (hfilter (by decide) fun _ => rfl) p hw
  simp only [passes, Pass.runAll] at hnames
  simp only [latePasses, List.flatMap_cons, List.flatMap_nil, passes, List.cons_append, List.nil_append,
    Pass.runAll]
  refine Pass.infix_run_plain h _ _ (fun hs hw => .inr (infix_readConstant h hs hw)) _ ?_
  refine Pass.infix_run_argument h _ (infix_emitFunction h t) (hfilter (by decide) fun _ => rfl) _ ?_
  refine Pass.infix_run_plain h _ _ (infix_readVariable h t) _ ?_
  refine Pass.infix_run_fixed h _ _ (by decide) _ (Pass.infix_run_fixed h _ _ (by decide) _ ?_)
  refine Pass.infix_run_argument h _ (infix_emitElseif h t) (fun hs => ⟨_, by decide, hs⟩) _ ?_
  refine Pass.infix_run_argument h _ (infix_emitIf h) (fun hs => ?_) _ ?_
  · rcases Option.or_eq_some_iff.1 hs with hs | ⟨-, hs⟩
    · exact ⟨_, by decide, hs⟩
    · exact ⟨_, by decide, hs⟩
  refine Pass.infix_run_fixed h _ _ (by decide) _ (Pass.infix_run_fixed h _ _ (by decide) _ ?_)
  exact Pass.infix_run_loops h t _ hnames (hinclude p hw)

end ViewBridge.Translator

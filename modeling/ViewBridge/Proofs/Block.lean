import ViewBridge.Proofs.Infix
import ViewBridge.Proofs.Pipeline
import ViewBridge.Proofs.Shelf
/-!
# Blocks

The three kinds of blocks whose bodies are kept from the translator: comments, ignored text and verbatim
text. Their passes run one after the other, behind the pass over entities and in front of all others. What
these passes write never completes a marker of a block, so a text without a marker gets none.

Results:
* `read_source`: a block is read as a whole.
* `infix_of_infix_pass`: no early pass makes a new marker.
* `pipeline_eq`: the early passes, then the late ones.
-/
namespace ViewBridge

/-- What is carried on from something that is put on the shelf. -/
def Progress.shelving (p : Progress) (out : Chars) : Progress := { p with shelf := p.shelf ++ [out] }

namespace Translator

/-- The kinds of blocks, in the order of their passes. -/
inductive BlockKind where
  | comment
  | ignored
  | verbatim
deriving DecidableEq, Repr

namespace BlockKind

/-- What a block starts with. -/
def opening : BlockKind → Chars
  | comment => "\x7b*".toList
  | ignored => "\x7bignore\x7d".toList
  | verbatim => "\x7bnoparse\x7d".toList

/-- What a block ends with. -/
def closing : BlockKind → Chars
  | comment => "*\x7d".toList
  | ignored => "\x7b/ignore\x7d".toList
  | verbatim => "\x7b/noparse\x7d".toList

/-- A block as it stands in a template. -/
def source (k : BlockKind) (body : Chars) : Chars := k.opening ++ (body ++ k.closing)

/-- What a block becomes. -/
def output (t : Translator) : BlockKind → Chars → Chars
  | comment => Dialect.comment
  | ignored => Dialect.comment
  | verbatim => t.dialect.verbatim

/-- The reader of a kind of blocks. -/
def read (k : BlockKind) : Chars → Option (Chars × Chars) := Directive.readBlock k.opening k.closing

theorem tag_read (k : BlockKind) : Directive.Tag k.read := by
  cases k <;> exact Directive.tag_readBlock rfl rfl

/-- The pass over a kind of blocks. -/
def pass (t : Translator) (k : BlockKind) : Pass := .shelving k.tag_read (k.output t)

theorem find_pass (t : Translator) (k : BlockKind) (p : Progress) (s : Chars) :
    (k.pass t).find p s = (k.read s).map fun (body, rest) =>
      (Shelf.placeholder p.shelf.length (k.output t body), p.shelving (k.output t body), rest) := rfl

/-- The kinds whose passes run before. -/
def before : BlockKind → List BlockKind
  | comment => []
  | ignored => [comment]
  | verbatim => [comment, ignored]

/-- The kinds whose passes run behind. -/
def behind : BlockKind → List BlockKind
  | comment => [ignored, verbatim]
  | ignored => [verbatim]
  | verbatim => []

end BlockKind

/-- The pass over entities. -/
def entityPass : Pass :=
  .plain Directive.tag_readEntityTag fun (name, body) =>
    '\x7b' :: name ++ "=\x22".toList ++ decodeEntities body ++ "\x22\x7d".toList

/-- The passes that no block is kept from: those behind the blocks. -/
def latePasses (t : Translator) : List Pass :=
  [Stage.includes, .loops, .conditionals, .outputs, .constants].flatMap t.passes

theorem pipeline_eq (t : Translator) (k : BlockKind) :
    Stage.pipeline.flatMap t.passes =
      entityPass :: (k.before.map (BlockKind.pass t) ++ k.pass t :: k.behind.map (BlockKind.pass t)) ++
        t.latePasses := by
  have hstages : Stage.pipeline = [Stage.entities, .comments, .verbatim] ++
      [Stage.includes, .loops, .conditionals, .outputs, .constants] := rfl
  rw [hstages, List.flatMap_append, latePasses]
  cases k <;> rfl

/-! ## Markers -/

/-- A word whose first character does not come again and which has no character of a placeholder or of what
the pass over entities writes around and for an argument. -/
structure Marker (w : Chars) : Prop where
  word : ∃ a rest, w = a :: rest ∧ a ∉ rest ∧ a ≠ '\x7d' ∧ '\x7b' ∉ rest
  clear : (w.all fun c => !(Text.isDigit c || c == '\n' || c == Shelf.opening || c == Shelf.closing ||
    c == '=' || "\x22'<>&".toList.contains c)) = true

namespace BlockKind

theorem marker_opening (k : BlockKind) : Marker k.opening := by
  cases k <;> exact ⟨⟨_, _, rfl, by decide, by decide, by decide⟩, by decide⟩

theorem marker_closing (k : BlockKind) : Marker k.closing := by
  cases k <;> exact ⟨⟨_, _, rfl, by decide, by decide, by decide⟩, by decide⟩

end BlockKind

namespace Marker

variable {w : Chars}

theorem ne_nil (h : Marker w) : w ≠ [] := by
  obtain ⟨a, rest, rfl, -⟩ := h.word
  exact List.cons_ne_nil a rest

theorem clear_of_mem (h : Marker w) {c : Char} (hc : c ∈ w) :
    Text.isDigit c = false ∧ c ≠ '\n' ∧ c ≠ Shelf.opening ∧ c ≠ Shelf.closing ∧ c ≠ '=' ∧
      c ∉ "\x22'<>&".toList := by
  have := List.all_eq_true.1 h.clear c hc
  simpa [and_assoc] using this

/-- A marker does not start in a text without its characters. -/
theorem infix_of_infix_append (h : Marker w) {s t : Chars} (hs : ∀ c ∈ s, c ∉ w) (hw : w <:+: s ++ t) :
    w <:+: t := by
  obtain ⟨a, rest, rfl, -⟩ := h.word
  exact Text.infix_of_infix_append (fun ha => hs a ha List.mem_cons_self) hw

/-- No rest of a marker goes on with a text without its characters. -/
theorem not_prefix_append {p s t : Chars} (hp : p ≠ []) (hsuffix : p <:+ w) (hs : ∀ c ∈ s, c ∉ w)
    (hne : s ≠ []) : ¬ p <+: s ++ t := by
  obtain ⟨c, cs, rfl⟩ := List.exists_cons_of_ne_nil hne
  obtain ⟨d, ds, rfl⟩ := List.exists_cons_of_ne_nil hp
  intro h
  rw [List.cons_append, List.cons_prefix_cons] at h
  exact hs c List.mem_cons_self (h.1 ▸ hsuffix.mem List.mem_cons_self)

/-- Replacing by text without the characters of a marker makes no new marker. -/
theorem infix_of_infix_replace (h : Marker w) {old new s : Chars} (hold : old ≠ []) (hnew : new ≠ [])
    (hclear : ∀ c ∈ new, c ∉ w) (hs : w <:+: Text.replace old new s) : w <:+: s := by
  rw [Text.replace_eq_substitute _ hold, Text.substitute_eq_substituteFrom] at hs
  have hout {st : Unit} {s out rest : Chars} {st' : Unit}
      (hf : Text.stateless (Text.exchange old new) st s = some (out, st', rest)) :
      out = new ∧ s = old ++ rest := Text.exchange_eq_some (Text.stateless_eq_some hf)
  refine Text.infix_of_infix_substituteFrom h.ne_nil (fun hf => ⟨old, (hout hf).2.symm⟩) ?_ ?_ hs
  · intro st s out st' rest hf p t hp hsuffix _
    rw [(hout hf).1]
    exact not_prefix_append hp hsuffix hclear hnew
  · intro st s out st' rest hf t ht
    rw [(hout hf).1] at ht
    exact .inr (h.infix_of_infix_append hclear ht)

theorem infix_of_infix_escape (h : Marker w) {s : Chars} (hs : w <:+: Shelf.escape s) : w <:+: s := by
  refine h.infix_of_infix_replace (by simp) (by simp) ?_ hs
  intro c hc hw
  have hclear := h.clear_of_mem hw
  simp only [List.mem_cons, List.not_mem_nil, or_false] at hc
  rcases hc with rfl | rfl
  · exact hclear.2.2.1 rfl
  · exact hclear.2.2.2.1 rfl

theorem infix_of_infix_decode (h : Marker w) {s : Chars} (hs : w <:+: decodeEntities s) : w <:+: s := by
  have hstep (old new : String) (hold : old.toList ≠ []) (hnew : new.toList ≠ [])
      (hmem : (new.toList.all fun c => "\x22'<>&".toList.contains c) = true) (s : Chars)
      (hs : w <:+: Text.replace old.toList new.toList s) : w <:+: s := by
    refine h.infix_of_infix_replace hold hnew (fun c hc hw => ?_) hs
    exact (h.clear_of_mem hw).2.2.2.2.2 (by simpa using List.all_eq_true.1 hmem c hc)
  simp only [decodeEntities, List.foldl_cons, List.foldl_nil] at hs
  replace hs := hstep _ _ (by decide) (by decide) (by decide) _ hs
  replace hs := hstep _ _ (by decide) (by decide) (by decide) _ hs
  replace hs := hstep _ _ (by decide) (by decide) (by decide) _ hs
  replace hs := hstep _ _ (by decide) (by decide) (by decide) _ hs
  replace hs := hstep _ _ (by decide) (by decide) (by decide) _ hs
  replace hs := hstep _ _ (by decide) (by decide) (by decide) _ hs
  exact hstep _ _ (by decide) (by decide) (by decide) _ hs

end Marker

/-! ## Early passes and markers -/

/-- A block is read as a whole. -/
theorem BlockKind.read_source (k : BlockKind) {body : Chars} (h : ¬ k.closing <:+: body) (t : Chars) :
    k.read (k.source body ++ t) = some (body, t) := by
  obtain ⟨a, rest, hclosing, ha, -⟩ := k.marker_closing.word
  rw [hclosing] at h
  rw [read, Directive.readBlock, source, List.append_assoc, Text.after?_append, Option.bind_some,
    List.append_assoc, hclosing, Text.cut?_append_self ha h]

theorem BlockKind.opening_prefix {k : BlockKind} {s : Chars} {r : Chars × Chars} (h : k.read s = some r) :
    k.opening <+: s := by
  obtain ⟨s', hs, -⟩ := Option.bind_eq_some_iff.1 h
  exact ⟨s', (Text.after?_eq_some_iff.1 hs).symm⟩

namespace Marker

variable {w : Chars}

theorem not_mem_placeholder (h : Marker w) (n : Nat) (body : Chars) :
    ∀ c ∈ Shelf.placeholder n body, c ∉ w := by
  intro c hc hw
  obtain ⟨hdigit, hbreak, ho, hcl, -⟩ := h.clear_of_mem hw
  rcases Shelf.mem_placeholder hc with rfl | rfl | hc | rfl
  · exact ho rfl
  · exact hcl rfl
  · rw [hc] at hdigit; cases hdigit
  · exact hbreak rfl

/-- The pass over a kind of blocks makes no new marker. -/
theorem infix_of_infix_pass (h : Marker w) (t : Translator) (k : BlockKind) {p : Progress} {s : Chars}
    (hs : w <:+: ((k.pass t).run p s).1) : w <:+: s := by
  have hout {p p' : Progress} {s out rest : Chars} (hf : (k.pass t).find p s = some (out, p', rest)) :
      ∃ n body, out = Shelf.placeholder n body := by
    obtain ⟨body, -, hout, -⟩ := Pass.find_eq_some hf
    exact ⟨_, _, hout⟩
  refine Text.infix_of_infix_substituteFrom h.ne_nil (k.pass t).find_suffix ?_ ?_ hs
  · intro p s out p' rest hf q r hq hsuffix _
    obtain ⟨n, body, rfl⟩ := hout hf
    exact not_prefix_append hq hsuffix (h.not_mem_placeholder n body) (by simp [Shelf.placeholder])
  · intro p s out p' rest hf r hr
    obtain ⟨n, body, rfl⟩ := hout hf
    exact .inr (h.infix_of_infix_append (h.not_mem_placeholder n body) hr)

/-- The pass over entities makes no new marker. -/
theorem infix_of_infix_entityPass (h : Marker w) {p : Progress} {s : Chars}
    (hs : w <:+: (entityPass.run p s).1) : w <:+: s := by
  have hquote : '\x22' ∉ w := fun hw => (h.clear_of_mem hw).2.2.2.2.2 (by decide)
  have hequals : '=' ∉ w := fun hw => (h.clear_of_mem hw).2.2.2.2.1 rfl
  have hout {p p' : Progress} {s out rest : Chars} (hf : entityPass.find p s = some (out, p', rest)) :
      ∃ name body, out = '\x7b' :: name ++ "=\x22".toList ++ decodeEntities body ++ "\x22\x7d".toList ∧
        s = '\x7b' :: name ++ "=&quot;".toList ++ body ++ "&quot;\x7d".toList ++ rest := by
    obtain ⟨⟨name, body⟩, hr, hout, -⟩ := Pass.find_eq_some hf
    exact ⟨name, body, hout, Directive.readEntityTag_eq_some hr⟩
  refine Text.infix_of_infix_substituteFrom h.ne_nil entityPass.find_suffix ?_ ?_ hs
  · intro p s out p' rest hf q r hq hsuffix hne hstart
    obtain ⟨name, body, rfl, -⟩ := hout hf
    obtain ⟨c, cs, rfl⟩ := List.exists_cons_of_ne_nil hq
    obtain ⟨a, w', rfl, -, -, hbrace⟩ := h.word
    -- only the first character of a marker can be a brace that opens
    have hc : c = '\x7b' := (List.cons_prefix_cons.1 hstart).1
    rcases List.suffix_cons_iff.1 hsuffix with heq | hsuffix
    · exact hne heq
    · exact hbrace (hc ▸ hsuffix.mem List.mem_cons_self)
  · intro p s out p' rest hf r hr
    obtain ⟨name, body, rfl, rfl⟩ := hout hf
    obtain ⟨a, w', hw, -, hclose, -⟩ := h.word
    have hsplit : '\x7b' :: name ++ "=\x22".toList ++ decodeEntities body ++ "\x22\x7d".toList ++ r =
        ('\x7b' :: name) ++ '=' :: ([] ++ '\x22' :: (decodeEntities body ++ '\x22' :: ('\x7d' :: r))) := by
      simp
    rw [hsplit] at hr
    rcases Text.infix_append_cons hequals hr with hr | hr
    · refine .inl ?_
      simp only [List.append_assoc]
      exact List.infix_append_of_infix_left hr
    · rcases Text.infix_append_cons hquote hr with hr | hr
      · exact absurd (List.infix_nil.1 hr) h.ne_nil
      · rcases Text.infix_append_cons hquote hr with hr | hr
        · refine .inl ?_
          simp only [List.append_assoc]
          exact List.infix_append_of_infix_right (List.infix_append_of_infix_right
            (List.infix_append_of_infix_left (h.infix_of_infix_decode hr)))
        · rcases List.infix_cons_iff.1 hr with hr | hr
          · rw [hw] at hr
            exact absurd (List.cons_prefix_cons.1 hr).1 hclose
          · exact .inr hr

end Marker

end Translator
end ViewBridge

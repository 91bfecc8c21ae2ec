import ViewBridge.Proofs.Engine.Snapshot
import ViewBridge.Proofs.Lookup.Alias
import ViewBridge.Proofs.Template.Secrecy
/-!
# The spelling of a name

A file has many names. A new engine reads the same template under each of them, and what it keeps and what its
cache holds on the way is what would be found again. So two names of a file are rendered alike, by templates that
do not ask for the name, if they are escaped alike; where legacy templates are HTML, names that end in a segment
with the extension or without any are.

Results:
* `Resolver.load_eq_of_steps`: names of one file load the same.
* `Recalls.fetch`: an engine that recalls nothing else than the files fetches what they hold.
* `render_spelling`: names of one file that are escaped alike are rendered alike.
-/
namespace ViewBridge

open Template (Escaping Stmt)

/-! ## What is loaded for a name -/

namespace Resolver

variable {r : Resolver} {t : FileTree} {name found path : Chars}

/-- A resolver made a translation, of the file at a path. -/
def MadeOf (r : Resolver) (t : FileTree) : List Path.Step → Int → Chars → Chars → Prop := fun steps _ raw text =>
  ∃ path f, Path.steps path = steps ∧ t.file path = .ok f ∧ f.text = some raw ∧ text = r.translator.translate raw

/-- Names of one file load the same. -/
theorem load_eq_of_steps {name' found' path' : Chars} (hslash : '/' ∉ r.translator.extension)
    (h : r.locate t name = .ok (found, path)) (h' : r.locate t name' = .ok (found', path'))
    (hsteps : Path.steps path = Path.steps path') : (r.load t {} name).1 = (r.load t {} name').1 := by
  obtain ⟨f, hf, hload⟩ := load_empty_of_locate h
  obtain ⟨f', hf', hload'⟩ := load_empty_of_locate h'
  obtain rfl := FileTree.file_eq_of_steps hsteps hf hf'
  have hlegacy : r.isLegacy found = r.isLegacy found' := by
    rw [Bool.eq_iff_iff, isLegacy_iff_of_locate hslash h, isLegacy_iff_of_locate hslash h',
      afterLast_eq_of_steps h h' hsteps]
  rw [hload, hload', hlegacy]

/-- A cache of translations of the files does not change what is loaded, and stays one. -/
theorem load_of_madeOf {cache : Cache} (hc : cache.Vouched (r.MadeOf t)) (name : Chars) :
    (r.load t cache name).1 = (r.load t {} name).1 ∧ (r.load t cache name).2.Vouched (r.MadeOf t) := by
  cases hl : r.locate t name with
  | error e =>
    have hresolve (cache : Cache) : r.resolve t cache name = (.error e, cache) := by rw [resolve, hl]
    rw [load_eq, load_eq, hresolve, hresolve]
    cases e <;> exact ⟨rfl, hc⟩
  | ok place =>
    obtain ⟨found, path⟩ := place
    obtain ⟨f, hf, hload⟩ := load_of_locate cache hl
    obtain ⟨f', hf', hempty⟩ := load_empty_of_locate hl
    obtain rfl : f = f' := Except.ok.inj (hf.symm.trans hf')
    rw [hload, hempty]
    cases htext : f.text with
    | none => exact ⟨rfl, hc⟩
    | some raw =>
      cases r.isLegacy found with
      | false => exact ⟨rfl, hc⟩
      | true =>
        obtain ⟨⟨raw', -, other, g, hsteps, hg, hraw, hanswer⟩, hkept⟩ :=
          @Cache.Vouched.getOrTranslate _ _ hc path raw f.modified _ ⟨path, f, rfl, hf, htext, rfl⟩
        -- another path with these steps leads to this file, so the answer is of its text
        obtain rfl := FileTree.file_eq_of_steps hsteps hg hf
        obtain rfl : raw = raw' := Option.some.inj (htext.symm.trans hraw)
        exact ⟨congrArg (fun text => Except.ok (some text)) hanswer, hkept⟩

end Resolver

namespace Engine

/-! ## What is recalled -/

/-- A memory that recalls nothing else than the files: the templates it keeps are those that would be loaded, and
the cached translations are of files. -/
structure Recalls (r : Resolver) (t : FileTree) (m : EngineMemory) : Prop where
  kept : ∀ name stmts, m.kept.lookup name = some stmts → Snapshot.compiled (r.load t {} name).1 = .ok (some stmts)
  cache : m.cache.Vouched (r.MadeOf t)

variable {r : Resolver} {t : FileTree} {m : EngineMemory}

/-- What is fetched is what the files hold, and it is recalled from then on. -/
theorem Recalls.fetch (h : Recalls r t m) (name : Chars) :
    (fetch r t name m).1 = Snapshot.compiled (r.load t {} name).1 ∧ Recalls r t (fetch r t name m).2 := by
  cases hkept : m.kept.lookup name with
  | some stmts =>
    rw [fetch_kept hkept]
    exact ⟨(h.kept name stmts hkept).symm, h⟩
  | none =>
    obtain ⟨hload, hcache⟩ := Resolver.load_of_madeOf h.cache name
    rw [Engine.fetch, hkept]
    generalize r.load t m.cache name = result at hload hcache ⊢
    obtain ⟨answer, cache⟩ := result
    obtain rfl : answer = (r.load t {} name).1 := hload
    cases hanswer : (r.load t {} name).1 with
    | error e => exact ⟨rfl, h.kept, hcache⟩
    | ok text? =>
      cases text? with
      | none => exact ⟨rfl, h.kept, hcache⟩
      | some text =>
        cases hread : Template.read text with
        | error kind =>
          simp only [Snapshot.compiled, hread]
          exact ⟨trivial, h.kept, hcache⟩
        | ok stmts =>
          simp only [Snapshot.compiled, hread]
          refine ⟨trivial, ?_, hcache⟩
          intro other stmts' hother
          rw [List.lookup_cons] at hother
          split at hother
          · rename_i heq
            obtain rfl := beq_iff_eq.1 heq
            obtain rfl := Option.some.inj hother
            simp only [hanswer, Snapshot.compiled, hread]
          · exact h.kept other stmts' hother

/-- Whether all templates that are kept avoid a name. -/
def KeptAvoid (x : Chars) (m : EngineMemory) : Prop := ∀ entry ∈ m.kept, Stmt.avoid x entry.2 = true

theorem fetch_cases (r : Resolver) (t : FileTree) (name : Chars) (m : EngineMemory) :
    (fetch r t name m).2.kept = m.kept ∧
        (∀ stmts, (fetch r t name m).1 = .ok (some stmts) → m.kept.lookup name = some stmts) ∨
      ∃ stmts, (fetch r t name m).1 = .ok (some stmts) ∧ (fetch r t name m).2.kept = (name, stmts) :: m.kept := by
  unfold fetch
  split
  · rename_i stmts hkept
    refine .inl ⟨rfl, fun stmts' h => ?_⟩
    obtain rfl : stmts = stmts' := by simpa using h
    exact hkept
  · split
    · exact .inl ⟨rfl, fun stmts h => nomatch h⟩
    · exact .inl ⟨rfl, fun stmts h => nomatch h⟩
    · split
      · exact .inl ⟨rfl, fun stmts h => nomatch h⟩
      · rename_i stmts _
        exact .inr ⟨stmts, rfl, rfl⟩

/-- An engine cannot tell what a name stands for while all it keeps avoids the name. -/
theorem blind_host (e : Engine) (t : FileTree) (x : Chars) :
    (e.host t).Blind x (fun m n => Recalls e.resolver t m ∧ Recalls e.resolver t n) (KeptAvoid x) (e.host t) where
  inherits name m hq := by
    obtain ⟨hkept, -⟩ | ⟨stmts, -, hkept⟩ := fetch_cases e.resolver t name m
    · exact fun entry hentry => hq entry (by rw [host, hkept]; exact hentry)
    · exact fun entry hentry => hq entry (by rw [host, hkept]; exact List.mem_cons_of_mem _ hentry)
  answer name m n hmn := by
    obtain ⟨hm, hm'⟩ := hmn.1.fetch name
    obtain ⟨hn, hn'⟩ := hmn.2.fetch name
    exact ⟨by rw [host, hm, hn], hm', hn'⟩
  avoid name m stmts hstmts hq := by
    obtain ⟨hkept, hlookup⟩ | ⟨stmts', hstmts', hkept⟩ := fetch_cases e.resolver t name m
    · obtain ⟨before, after, hmem, -⟩ := List.lookup_eq_some_iff.1 (hlookup stmts hstmts)
      exact hq (name, stmts) (by rw [host, hkept, hmem]; simp)
    · obtain rfl : stmts = stmts' := by simpa using hstmts.symm.trans hstmts'
      exact hq (name, stmts) (by rw [host, hkept]; exact List.mem_cons_self)

/-! ## Names of one file -/

/-- The name that a template has for itself. -/
def ownName : Chars := "template".toList

theorem member_contextOf {x : Chars} (h : x ≠ ownName) (name name' : Chars) (context : Value) :
    (contextOf name context).member x = (contextOf name' context).member x := by
  simp only [contextOf, Value.member, show "template".toList = ownName from rfl, Value.get?_insert_of_ne h]

theorem toOption_renderStmts (e : Engine) (t : FileTree) (now : Instant) (m : EngineMemory) (name : Chars)
    (stmts : List Stmt) (context : Value) :
    (e.renderStmts t now m name stmts context).1.toOption =
      ((e.host t).render (e.tools now) name stmts context m).1.toOption := by
  unfold renderStmts
  generalize (e.host t).render (e.tools now) name stmts context m = result
  obtain ⟨answer, m'⟩ := result
  cases answer <;> rfl

/-- Two names of one file that are escaped alike are rendered alike by a new engine: both fail, or they give the
same text, if no template that is read for the first one asks for its own name. Where legacy templates are HTML,
names whose last segments tell their extensions are escaped alike, namely as the path of the file is. -/
theorem render_spelling {e : Engine} (hnew : e.kept = []) (hslash : '/' ∉ e.resolver.translator.extension)
    {t : FileTree} {name name' found found' path path' : Chars} (h : e.resolver.locate t name = .ok (found, path))
    (h' : e.resolver.locate t name' = .ok (found', path')) (hsteps : Path.steps path = Path.steps path') :
    (e.resolver.translator.extension = "html".toList → TemplateName.Telling name →
        Escaping.ofName name = Escaping.ofName (Text.afterLast '/' path)) ∧
      (Escaping.ofName name = Escaping.ofName name' → ∀ now context,
        (∀ entry ∈ (e.render t {} now name context).2.1.kept, Stmt.avoid ownName entry.2 = true) →
        (e.render t {} now name context).1.toOption = (e.render t {} now name' context).1.toOption) := by
  refine ⟨fun hhtml hname => Resolver.ofName_of_locate hhtml hname h, fun hescaped now context hq => ?_⟩
  have hstart : Recalls e.resolver t ⟨e.kept, {}⟩ :=
    ⟨fun name stmts hkept => (by rw [hnew] at hkept; cases hkept), .empty⟩
  obtain ⟨hfetch, hm⟩ := hstart.fetch name
  obtain ⟨hfetch', hm'⟩ := hstart.fetch name'
  rw [← Resolver.load_eq_of_steps hslash h h' hsteps] at hfetch'
  unfold render at hq ⊢
  have havoid : ∀ stmts, (fetch e.resolver t name ⟨e.kept, {}⟩).1 = .ok (some stmts) →
      KeptAvoid ownName (fetch e.resolver t name ⟨e.kept, {}⟩).2 → Stmt.avoid ownName stmts = true :=
    (blind_host e t ownName).avoid name ⟨e.kept, {}⟩
  generalize fetch e.resolver t name ⟨e.kept, {}⟩ = result at hfetch hm hq havoid ⊢
  generalize fetch e.resolver t name' ⟨e.kept, {}⟩ = result' at hfetch' hm' ⊢
  obtain ⟨answer, m⟩ := result
  obtain ⟨answer', m'⟩ := result'
  obtain rfl : answer = _ := hfetch
  obtain rfl : answer' = _ := hfetch'
  generalize Snapshot.compiled (e.resolver.load t {} name).1 = answer at hq havoid ⊢
  cases answer with
  | error cause => rfl
  | ok stmts? =>
    cases stmts? with
    | none => rfl
    | some stmts =>
      have hkept : KeptAvoid ownName
          ((e.host t).render (e.tools now) name stmts (contextOf name context) m).2 := hq
      have hstmts : Stmt.avoid ownName stmts = true :=
        havoid stmts rfl ((blind_host e t ownName).inherits_render (e.tools now) name stmts _ m hkept)
      simp only [toOption_renderStmts]
      exact ((blind_host e t ownName).render (e.tools now) hescaped hstmts
        (fun x hx => member_contextOf hx name name' context) ⟨hm, hm'⟩ hkept).1

/-- A page that shows a value, asked for without its extension and by a path with a segment that means nothing. -/
theorem render_spelling_extensionless :
    let r : Resolver := ⟨⟨[], "/view".toList⟩, ⟨.minijinja, "html".toList⟩⟩
    let e : Engine := { resolver := r, functions := [], constants := [] }
    let t := (FileTree.empty []).addFile ["view".toList, "a.html".toList] ⟨some "\x7b\x7b x \x7d\x7d".toList, 0⟩
    let context : Value := .map [(.ofChars ['x'], .ofChars ['<'])]
    r.locate t "a".toList = .ok ("a.html".toList, "/view/a.html".toList) ∧
      r.locate t "./a.html".toList = .ok ("a.html".toList, "/view/a.html".toList) ∧
      (∀ entry ∈ (e.render t {} ⟨0, 0⟩ "a".toList context).2.1.kept, Stmt.avoid ownName entry.2 = true) ∧
      Escaping.ofName "a".toList = Escaping.ofName "./a.html".toList ∧
      (e.render t {} ⟨0, 0⟩ "a".toList context).1.toOption = some "&lt;".toList ∧
      (e.render t {} ⟨0, 0⟩ "a".toList context).1.toOption =
        (e.render t {} ⟨0, 0⟩ "./a.html".toList context).1.toOption := by
  intro r e t context
  have hlocate : r.locate t "a".toList = .ok ("a.html".toList, "/view/a.html".toList) := by decide +kernel
  have hlocate' : r.locate t "./a.html".toList = .ok ("a.html".toList, "/view/a.html".toList) := by decide +kernel
  have havoid : ∀ entry ∈ (e.render t {} ⟨0, 0⟩ "a".toList context).2.1.kept,
      Stmt.avoid ownName entry.2 = true := by decide +kernel
  have htelling : TemplateName.Telling "a".toList := ⟨by unfold Path.IsPlain; decide, by decide⟩
  have htelling' : TemplateName.Telling "./a.html".toList := ⟨by unfold Path.IsPlain; decide, by decide⟩
  have hescaped : Escaping.ofName "a".toList = Escaping.ofName "./a.html".toList := by
    rw [(render_spelling (e := e) rfl (by decide) hlocate hlocate rfl).1 rfl htelling,
      (render_spelling (e := e) rfl (by decide) hlocate' hlocate' rfl).1 rfl htelling']
  exact ⟨hlocate, hlocate', havoid, hescaped, by decide +kernel,
    (render_spelling (e := e) rfl (by decide) hlocate hlocate' rfl).2 hescaped ⟨0, 0⟩ context havoid⟩

end Engine
end ViewBridge

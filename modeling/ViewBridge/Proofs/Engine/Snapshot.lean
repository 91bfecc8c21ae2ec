import ViewBridge.Proofs.Engine.Basic
import ViewBridge.Proofs.Lookup.Sharing
import ViewBridge.Proofs.Template.Simulation
/-!
# Engines and snapshots

An engine keeps the templates it has read until it is reloaded, and the translated texts beyond that, while
the files change under it. A snapshot is simpler: names with texts. Rendering from a snapshot takes every name
to have its text there, or, if it has none, the text that a resolver without anything cached finds; the names
that were used and could be read have that text from then on. Nothing else is remembered, so nothing comes of
a name that could not be found or read.

Results:
* `lookup_learn`: a text that a name has stays, and only a text that can be read is learned.
* `load_of_vouched`: an honest cache does not change what is loaded.
* `Mirrored.render`, `Mirrored.renderText`: an engine renders what its snapshot renders.
* `Refines.run`: and so along every run.
* `run_snapshot`: runs of an engine are runs of a snapshot, and an engine that was just reloaded renders what
  a new one renders.
-/
namespace ViewBridge

open Template (Stmt Host)

/-! ## What is loaded -/

namespace Resolver

/-- The resolver made a translation, of one of some texts. -/
def Made (r : Resolver) (texts : List Chars) : List Path.Step → Int → Chars → Chars → Prop :=
  fun _ _ raw text => raw ∈ texts ∧ text = r.translator.translate raw

/-- Everything that loading can do, whatever the cache holds: it leaves the cache alone, or it asks the cache
for the translation of a file. -/
theorem load_cases (r : Resolver) (t : FileTree) (name : Chars) :
    (∃ result, ∀ cache, r.load t cache name = (result, cache)) ∨
    ∃ path modified raw, raw ∈ t.texts ∧ ∀ cache, r.load t cache name =
      (.ok (some (cache.getOrTranslate path modified raw r.translator.translate).1),
        (cache.getOrTranslate path modified raw r.translator.translate).2) := by
  cases hl : r.locate t name with
  | error e =>
    have hresolve (cache : Cache) : r.resolve t cache name = (.error e, cache) := by rw [resolve, hl]
    left
    cases e
    case templateNotFound => exact ⟨.ok none, fun cache => by rw [load_eq, hresolve]⟩
    all_goals exact ⟨.error _, fun cache => by rw [load_eq, hresolve]⟩
  | ok place =>
    obtain ⟨loc, f, -, hf⟩ := FileTree.isFile_eq_true (locate_eq_ok hl).1
    have hresolve (cache : Cache) := resolve_of_locate cache hl
    simp only [hf, Except.ok.injEq, exists_eq_left'] at hresolve
    cases htext : f.text with
    | none =>
      exact .inl ⟨.error (.file .invalidUtf8), fun cache => by rw [load_eq, hresolve, htext]⟩
    | some raw =>
      simp only [htext] at hresolve
      cases hlegacy : r.isLegacy place.1 with
      | false => exact .inl ⟨.ok (some raw), fun cache => by rw [load_eq, hresolve, hlegacy]; rfl⟩
      | true =>
        exact .inr ⟨place.2, f.modified, raw, FileTree.mem_texts_of_file hf htext,
          fun cache => by rw [load_eq, hresolve, hlegacy]; rfl⟩

/-- A cache in which the resolver made all translations does not change what it loads, and stays one. -/
theorem load_of_vouched {r : Resolver} {texts : List Chars} (hsep : Digest.Separates texts) {t : FileTree}
    (hfiles : ∀ raw ∈ t.texts, raw ∈ texts) {cache : Cache} (hc : cache.Vouched (r.Made texts))
    (name : Chars) :
    (r.load t cache name).1 = (r.load t {} name).1 ∧ (r.load t cache name).2.Vouched (r.Made texts) := by
  obtain ⟨result, hload⟩ | ⟨path, modified, raw, hraw, hload⟩ := r.load_cases t name
  · rw [hload, hload]
    exact ⟨rfl, hc⟩
  · have hanswer {c : Cache} (hc : c.Vouched (r.Made texts)) :
        (c.getOrTranslate path modified raw r.translator.translate).1 = r.translator.translate raw ∧
          (c.getOrTranslate path modified raw r.translator.translate).2.Vouched (r.Made texts) := by
      obtain ⟨⟨raw', hdigest, hraw', htext⟩, hkept⟩ := hc.getOrTranslate ⟨hfiles raw hraw, rfl⟩
      rw [← hsep raw (hfiles raw hraw) raw' hraw' hdigest] at htext
      exact ⟨htext, hkept⟩
    rw [hload, hload]
    exact ⟨by rw [(hanswer hc).1, (hanswer .empty).1], (hanswer hc).2⟩

end Resolver

/-! ## Snapshots -/

/-- Names with the texts they stand for. -/
abbrev Snapshot := List (Chars × Chars)

namespace Snapshot

/-- A text that can be read, if that was loaded. -/
def readable? : Except Error (Option Chars) → Option Chars
  | .ok (some text) => if (Template.read text).isOk then some text else none
  | _ => none

/-- The statements of what was loaded. -/
def compiled : Except Error (Option Chars) → Except RenderError (Option (List Stmt))
  | .error e => .error { kind := .invalidOperation, detail := some e.message }
  | .ok none => .ok none
  | .ok (some text) =>
    match Template.read text with
    | .error kind => .error { kind }
    | .ok stmts => .ok (some stmts)

/-- What a name stands for: its text, or what is loaded for it with nothing cached. -/
def source (s : Snapshot) (r : Resolver) (t : FileTree) (name : Chars) : Except Error (Option Chars) :=
  match s.lookup name with
  | some text => .ok (some text)
  | none => (r.load t {} name).1

/-- The snapshot after names were used: those that had no text have the one that was loaded, if that can be
read. -/
def learn (s : Snapshot) (r : Resolver) (t : FileTree) (used : List Chars) : Snapshot :=
  s ++ used.filterMap fun name => (readable? (r.load t {} name).1).map fun text => (name, text)

/-- Templates come from the snapshot; the names that are used are remembered. -/
def host (s : Snapshot) (r : Resolver) (t : FileTree) : Host (List Chars) :=
  ⟨fun name used => (compiled (s.source r t name), name :: used)⟩

/-- Render statements as the template of a name with the functions of an engine; the text or the failure, and
the snapshot after it. -/
def renderStmts (s : Snapshot) (e : Engine) (t : FileTree) (now : Instant) (used : List Chars) (name : Chars)
    (stmts : List Stmt) (context : Value) : Except Error Chars × Snapshot :=
  let (result, used) := (s.host e.resolver t).render (e.tools now) name stmts context used
  (result.mapError .render, s.learn e.resolver t used)

/-- Render the template of a name. -/
def render (s : Snapshot) (e : Engine) (t : FileTree) (now : Instant) (name : Chars) (context : Value) :
    Except Error Chars × Snapshot :=
  match compiled (s.source e.resolver t name) with
  | .error cause => (.error (.render cause), s)
  | .ok none => (.error (.templateNotFound name e.resolver.searchPath.dirs), s)
  | .ok (some stmts) => s.renderStmts e t now [name] name stmts (Engine.contextOf name context)

/-- Translate and render a template that is given as a text. -/
def renderText (s : Snapshot) (e : Engine) (t : FileTree) (now : Instant) (source : Chars)
    (context : Value) : Except Error Chars × Snapshot :=
  match Template.read (e.resolver.translator.translate source) with
  | .error kind => (.error (.render { kind }), s)
  | .ok stmts => s.renderStmts e t now [] Engine.anonymous stmts context

/-- A text that a name has stays, and a name that was used without one gets what was loaded for it. -/
theorem lookup_learn (s : Snapshot) (r : Resolver) (t : FileTree) (used : List Chars) (name : Chars) :
    (s.learn r t used).lookup name =
      (s.lookup name).or (if name ∈ used then readable? (r.load t {} name).1 else none) := by
  have hused : (used.filterMap fun name => (readable? (r.load t {} name).1).map fun text => (name, text)).lookup
      name = if name ∈ used then readable? (r.load t {} name).1 else none := by
    induction used with
    | nil => rfl
    | cons n used ih =>
      rw [List.filterMap_cons]
      by_cases hname : name = n
      · subst hname
        cases hn : readable? (r.load t {} name).1 with
        | none => simpa [hn] using ih
        | some text => simp
      · have hb : (name == n) = false := by simpa using hname
        cases readable? (r.load t {} n).1 with
        | none => simpa [hname] using ih
        | some text => simpa [List.lookup_cons, hb, hname] using ih
  rw [learn, List.lookup_append, hused]

/-- After one more name was used, that name has what it stands for, if that can be read. -/
theorem lookup_learn_cons (s : Snapshot) (r : Resolver) (t : FileTree) (used : List Chars) (name other : Chars) :
    (s.learn r t (name :: used)).lookup other =
      if other = name then (s.lookup name).or (readable? (r.load t {} name).1)
      else (s.learn r t used).lookup other := by
  rw [lookup_learn, lookup_learn]
  by_cases hother : other = name <;> simp [hother]

variable {s : Snapshot} {r : Resolver} {t : FileTree} {used : List Chars} {name text : Chars}

theorem readable?_eq_some {x : Except Error (Option Chars)} (h : readable? x = some text) :
    x = .ok (some text) ∧ ∃ stmts, compiled x = .ok (some stmts) := by
  unfold readable? at h
  split at h
  · rename_i text'
    split at h
    · rename_i hread
      obtain rfl : text' = text := Option.some.inj h
      refine ⟨rfl, ?_⟩
      cases hr : Template.read text' with
      | error kind => simp [hr, Except.isOk, Except.toBool] at hread
      | ok stmts => exact ⟨stmts, by simp only [compiled, hr]⟩
    · cases h
  · cases h

/-- A name stands for the text that was learned for it. -/
theorem lookup_of_learned (h : (s.learn r t used).lookup name = some text) :
    (s.lookup name).or (readable? (r.load t {} name).1) = some text := by
  rw [lookup_learn] at h
  cases hs : s.lookup name with
  | some text' => simpa [hs] using h
  | none =>
    rw [hs, Option.none_or] at h
    split at h
    · simpa using h
    · cases h

theorem source_of_learned (h : (s.learn r t used).lookup name = some text) :
    s.source r t name = .ok (some text) := by
  have hlearned := lookup_of_learned h
  unfold source
  cases hs : s.lookup name with
  | some text' => simpa [hs] using hlearned
  | none => exact (readable?_eq_some (by simpa [hs] using hlearned)).1

/-- A name that has not been learned stands for what is loaded. -/
theorem lookup_of_unlearned (h : (s.learn r t used).lookup name = none) : s.lookup name = none := by
  rw [lookup_learn] at h
  exact (Option.or_eq_none_iff.1 h).1

/-- Nothing is learned from a name that does not stand for something that can be read. -/
theorem lookup_learn_of_failed (h : ∀ stmts, compiled (s.source r t name) ≠ .ok (some stmts)) (other : Chars) :
    (s.learn r t [name]).lookup other = s.lookup other := by
  rw [lookup_learn_cons]
  split
  · rename_i hother
    rw [hother]
    cases hs : s.lookup name with
    | some text => rfl
    | none =>
      rw [source, hs] at h
      cases hr : readable? (r.load t {} name).1 with
      | none => rfl
      | some text =>
        obtain ⟨-, stmts, hstmts⟩ := readable?_eq_some hr
        exact absurd hstmts (h stmts)
  · rw [lookup_learn]
    simp

end Snapshot

/-! ## Engines -/

/-- An engine that is another one but for the templates it keeps: it keeps those of the texts of a snapshot,
and its resolver made what is cached. -/
structure Mirrored (e₀ : Engine) (texts : List Chars) (e : Engine) (cache : Cache) (s : Snapshot) : Prop where
  same : ∃ kept, e = { e₀ with kept }
  kept : ∀ name, (e.kept.lookup name).map .ok = (s.lookup name).map Template.read
  made : cache.Vouched (e₀.resolver.Made texts)

namespace Mirrored

variable {e₀ e : Engine} {texts : List Chars} {cache : Cache} {s : Snapshot} {t : FileTree}

/-- The kept templates mirror what a snapshot learned from the names used so far. -/
def Reflects (r : Resolver) (texts : List Chars) (t : FileTree) (s : Snapshot) (m : EngineMemory)
    (used : List Chars) : Prop :=
  (∀ name, (m.kept.lookup name).map .ok = ((s.learn r t used).lookup name).map Template.read) ∧
    m.cache.Vouched (r.Made texts)

/-- A kept template is what its name stands for, and fetching it is nothing new to learn. -/
theorem fetch_of_kept {r : Resolver} {m : EngineMemory} {used : List Chars} (h : Reflects r texts t s m used)
    {name : Chars} {stmts : List Stmt} (hk : m.kept.lookup name = some stmts) :
    (Engine.fetch r t name m).1 = Snapshot.compiled (s.source r t name) ∧
      Reflects r texts t s (Engine.fetch r t name m).2 (name :: used) := by
  obtain ⟨hkept, hmade⟩ := h
  have hname := hkept name
  rw [hk] at hname
  obtain ⟨text, htext, hread⟩ := Option.map_eq_some_iff.1 hname.symm
  rw [Engine.fetch_kept hk, Snapshot.source_of_learned htext]
  refine ⟨by simp only [Snapshot.compiled, hread], fun other => ?_, hmade⟩
  rw [hkept other, Snapshot.lookup_learn_cons, Snapshot.lookup_of_learned htext]
  split
  · rename_i hother
    rw [hother, htext]
  · rfl

/-- Fetching a name gives what it stands for, and what is kept then mirrors the snapshot that learned the
name. -/
theorem fetch {r : Resolver} (hsep : Digest.Separates texts) (hfiles : ∀ raw ∈ t.texts, raw ∈ texts)
    {m : EngineMemory} {used : List Chars} (h : Reflects r texts t s m used) (name : Chars) :
    (Engine.fetch r t name m).1 = Snapshot.compiled (s.source r t name) ∧
      Reflects r texts t s (Engine.fetch r t name m).2 (name :: used) := by
  cases hk : m.kept.lookup name with
  | some stmts => exact fetch_of_kept h hk
  | none =>
    obtain ⟨hkept, hmade⟩ := h
    have hname := hkept name
    rw [hk] at hname
    have hs : s.lookup name = none := Snapshot.lookup_of_unlearned (by simpa using hname.symm)
    obtain ⟨hload, hmade'⟩ := Resolver.load_of_vouched hsep hfiles hmade name
    have hlearn (other : Chars) : (s.learn r t (name :: used)).lookup other =
        if other = name then Snapshot.readable? (r.load t m.cache name).1
        else (s.learn r t used).lookup other := by
      rw [Snapshot.lookup_learn_cons, hs, hload, Option.none_or]
    -- what cannot be read is not learned and not kept
    have hstill (hnone : Snapshot.readable? (r.load t m.cache name).1 = none) (other : Chars) :
        (m.kept.lookup other).map .ok = ((s.learn r t (name :: used)).lookup other).map Template.read := by
      rw [hlearn]
      split
      · rename_i hother
        simp [hother, hk, hnone]
      · exact hkept other
    have hsource : s.source r t name = (r.load t m.cache name).1 := by
      rw [Snapshot.source, hs, hload]
    rw [hsource]
    simp only [Engine.fetch, hk]
    clear hsource hload hname
    generalize r.load t m.cache name = loaded at hlearn hstill hmade' ⊢
    obtain ⟨result, cache'⟩ := loaded
    cases result with
    | error cause => exact ⟨rfl, hstill rfl, hmade'⟩
    | ok found =>
      cases found with
      | none => exact ⟨rfl, hstill rfl, hmade'⟩
      | some text =>
        simp only [Snapshot.compiled]
        cases hread : Template.read text with
        | error kind => exact ⟨rfl, hstill (by simp [Snapshot.readable?, hread, Except.isOk, Except.toBool]), hmade'⟩
        | ok stmts =>
          refine ⟨rfl, fun other => ?_, hmade'⟩
          rw [hlearn]
          by_cases hother : other = name
          · simp [hother, Snapshot.readable?, hread, Except.isOk, Except.toBool]
          · have hb : (other == name) = false := by simpa using hother
            simpa [List.lookup_cons, hb, hother] using hkept other

theorem agrees (hsep : Digest.Separates texts) (hfiles : ∀ raw ∈ t.texts, raw ∈ texts) (e : Engine)
    (s : Snapshot) : (e.host t).Agrees (Reflects e.resolver texts t s) (s.host e.resolver t) :=
  fun name _ _ h => fetch hsep hfiles h name

/-- What an engine keeps is mirrored before any name is used. -/
theorem reflects (h : Mirrored e₀ texts e cache s) (t : FileTree) :
    Reflects e₀.resolver texts t s ⟨e.kept, cache⟩ [] :=
  ⟨fun name => by rw [h.kept name, Snapshot.lookup_learn]; simp, h.made⟩

/-- Statements are rendered alike, and what is kept afterwards mirrors what the snapshot learned. -/
theorem renderStmts (e : Engine) (hsep : Digest.Separates texts) (hfiles : ∀ raw ∈ t.texts, raw ∈ texts)
    (now : Instant) {m : EngineMemory} {used : List Chars} (hm : Reflects e.resolver texts t s m used)
    (name : Chars) (stmts : List Stmt) (context : Value) :
    (e.renderStmts t now m name stmts context).1 = (s.renderStmts e t now used name stmts context).1 ∧
      Mirrored e texts (e.renderStmts t now m name stmts context).2.1
        (e.renderStmts t now m name stmts context).2.2 (s.renderStmts e t now used name stmts context).2 := by
  have hagrees := (agrees hsep hfiles e s).render (e.tools now) name stmts context hm
  unfold Engine.renderStmts Snapshot.renderStmts
  generalize (e.host t).render (e.tools now) name stmts context m = x at hagrees ⊢
  generalize (s.host e.resolver t).render (e.tools now) name stmts context used = y at hagrees ⊢
  obtain ⟨result, m'⟩ := x
  obtain ⟨result', used'⟩ := y
  obtain ⟨rfl, hkept, hmade⟩ := hagrees
  refine ⟨?_, ⟨m'.kept, rfl⟩, hkept, hmade⟩
  cases result <;> rfl

/-- An engine renders the template of a name as its snapshot does, and mirrors it again. -/
theorem render (h : Mirrored e₀ texts e cache s) (hsep : Digest.Separates texts)
    (hfiles : ∀ raw ∈ t.texts, raw ∈ texts) (now : Instant) (name : Chars) (context : Value) :
    (e.render t cache now name context).1 = (s.render e₀ t now name context).1 ∧
      Mirrored e₀ texts (e.render t cache now name context).2.1 (e.render t cache now name context).2.2
        (s.render e₀ t now name context).2 := by
  obtain ⟨kept, rfl⟩ := h.same
  obtain ⟨hfound, hm⟩ := fetch hsep hfiles (h.reflects t) name
  unfold Engine.render Snapshot.render
  rw [← hfound]
  generalize Engine.fetch _ t name _ = fetched at hfound hm ⊢
  obtain ⟨found, m⟩ := fetched
  have hfailed (hnone : ∀ stmts, Snapshot.compiled (s.source e₀.resolver t name) ≠ .ok (some stmts)) :
      Mirrored e₀ texts { e₀ with kept := m.kept } m.cache s :=
    ⟨⟨m.kept, rfl⟩, fun other => by rw [hm.1 other, Snapshot.lookup_learn_of_failed hnone], hm.2⟩
  match found with
  | .error cause => exact ⟨rfl, hfailed fun stmts h => by cases hfound.trans h⟩
  | .ok none => exact ⟨rfl, hfailed fun stmts h => by cases hfound.trans h⟩
  | .ok (some stmts) => exact renderStmts e₀ hsep hfiles now hm name stmts _

/-- An engine renders a text as its snapshot does, and mirrors it again. -/
theorem renderText (h : Mirrored e₀ texts e cache s) (hsep : Digest.Separates texts)
    (hfiles : ∀ raw ∈ t.texts, raw ∈ texts) (now : Instant) (source : Chars) (context : Value) :
    (e.renderText t cache now source context).1 = (s.renderText e₀ t now source context).1 ∧
      Mirrored e₀ texts (e.renderText t cache now source context).2.1
        (e.renderText t cache now source context).2.2 (s.renderText e₀ t now source context).2 := by
  obtain ⟨kept, rfl⟩ := h.same
  unfold Engine.renderText Snapshot.renderText
  cases Template.read (e₀.resolver.translator.translate source) with
  | error kind => exact ⟨rfl, h⟩
  | ok stmts => exact renderStmts e₀ hsep hfiles now (h.reflects t) Engine.anonymous stmts context

theorem reload (h : Mirrored e₀ texts e cache s) : Mirrored e₀ texts e.reload cache [] := by
  obtain ⟨kept, rfl⟩ := h.same
  exact ⟨⟨[], rfl⟩, fun _ => rfl, h.made⟩

end Mirrored

/-! ## Runs -/

/-- What happens to an engine and the files it reads: the files are others from now on, the template of a name
or a text is rendered, or the engine is reloaded. -/
inductive EngineStep where
  | change (t : FileTree)
  | render (now : Instant) (name : Chars) (context : Value)
  | renderText (now : Instant) (source : Chars) (context : Value)
  | reload

/-- The trees that the files are changed to. -/
def EngineStep.trees (es : List EngineStep) : List FileTree :=
  es.filterMap fun
    | .change t => some t
    | _ => none

/-- The files, an engine with its cache, and what was rendered so far. -/
structure EngineSession where
  tree : FileTree
  engine : Engine
  cache : Cache
  answers : List (Except Error Chars) := []

namespace EngineSession

/-- The state after a step. -/
def step (s : EngineSession) : EngineStep → EngineSession
  | .change t => { s with tree := t }
  | .render now name context =>
    let (answer, engine, cache) := s.engine.render s.tree s.cache now name context
    { s with engine, cache, answers := s.answers ++ [answer] }
  | .renderText now source context =>
    let (answer, engine, cache) := s.engine.renderText s.tree s.cache now source context
    { s with engine, cache, answers := s.answers ++ [answer] }
  | .reload => { s with engine := s.engine.reload }

/-- Steps one after another. -/
def run (s : EngineSession) (es : List EngineStep) : EngineSession := es.foldl step s

end EngineSession

/-- The files, a snapshot, and what was rendered so far. -/
structure SnapshotSession where
  tree : FileTree
  snapshot : Snapshot := []
  answers : List (Except Error Chars) := []

namespace SnapshotSession

/-- The state after a step, with the functions of an engine. -/
def step (e : Engine) (w : SnapshotSession) : EngineStep → SnapshotSession
  | .change t => { w with tree := t }
  | .render now name context =>
    let (answer, snapshot) := w.snapshot.render e w.tree now name context
    { w with snapshot, answers := w.answers ++ [answer] }
  | .renderText now source context =>
    let (answer, snapshot) := w.snapshot.renderText e w.tree now source context
    { w with snapshot, answers := w.answers ++ [answer] }
  | .reload => { w with snapshot := [] }

/-- Steps one after another. -/
def run (e : Engine) (w : SnapshotSession) (es : List EngineStep) : SnapshotSession := es.foldl (step e) w

end SnapshotSession

namespace EngineSession

/-- The files are the same and have texts of a list only, the engine mirrors the snapshot, and both rendered
the same. -/
structure Refines (e₀ : Engine) (texts : List Chars) (s : EngineSession) (w : SnapshotSession) : Prop where
  tree : s.tree = w.tree
  files : ∀ raw ∈ s.tree.texts, raw ∈ texts
  mirrored : Mirrored e₀ texts s.engine s.cache w.snapshot
  answers : s.answers = w.answers

variable {e₀ : Engine} {texts : List Chars} {s : EngineSession} {w : SnapshotSession}

theorem Refines.step (h : Refines e₀ texts s w) (hsep : Digest.Separates texts) {e : EngineStep}
    (he : ∀ t, e = .change t → ∀ raw ∈ t.texts, raw ∈ texts) : Refines e₀ texts (s.step e) (w.step e₀ e) := by
  cases e with
  | change t => exact ⟨rfl, he t rfl, h.mirrored, h.answers⟩
  | render now name context =>
    obtain ⟨hanswer, hmirrored⟩ := h.mirrored.render hsep h.files now name context
    simp only [EngineSession.step, SnapshotSession.step, ← h.tree]
    exact ⟨rfl, h.files, hmirrored, by rw [h.answers, hanswer]⟩
  | renderText now source context =>
    obtain ⟨hanswer, hmirrored⟩ := h.mirrored.renderText hsep h.files now source context
    simp only [EngineSession.step, SnapshotSession.step, ← h.tree]
    exact ⟨rfl, h.files, hmirrored, by rw [h.answers, hanswer]⟩
  | reload => exact ⟨h.tree, h.files, h.mirrored.reload, h.answers⟩

theorem Refines.run (h : Refines e₀ texts s w) (hsep : Digest.Separates texts) {es : List EngineStep}
    (hes : ∀ t ∈ EngineStep.trees es, ∀ raw ∈ t.texts, raw ∈ texts) :
    Refines e₀ texts (s.run es) (w.run e₀ es) := by
  induction es generalizing s w with
  | nil => exact h
  | cons e es ih =>
    refine ih (h.step hsep ?_) fun t ht => hes t ?_
    · rintro t rfl
      exact hes t (by simp [EngineStep.trees])
    · obtain ⟨e', he', ht⟩ := List.mem_filterMap.1 ht
      exact List.mem_filterMap.2 ⟨e', List.mem_cons_of_mem e he', ht⟩

/-- An engine around a resolver that translates to its dialect goes, whatever happens to the files, through
the states of a snapshot: every rendering takes every name to have the text that was loaded, with nothing
cached, when it was first used and could be read since the last reload, and a name that could not be is loaded
anew. So an engine that was just reloaded renders what a new engine renders that has nothing cached. The cache
may hold translations by the resolver from the start, and no two of the texts that are ever translated have
one digest. -/
theorem run_snapshot {r : Resolver} {settings : EngineSettings} {e : Engine}
    (he : Engine.ofResolver r settings = .ok e) {texts : List Chars} (hsep : Digest.Separates texts)
    {t : FileTree} {cache : Cache} {es : List EngineStep}
    (hfiles : ∀ u ∈ t :: EngineStep.trees es, ∀ raw ∈ u.texts, raw ∈ texts)
    (hcache : cache.Vouched (r.Made texts)) :
    let s := run { tree := t, engine := e, cache } es
    let w := SnapshotSession.run e { tree := t } es
    s.answers = w.answers ∧ s.tree = w.tree ∧
      (∀ name, (s.engine.kept.lookup name).map .ok = (w.snapshot.lookup name).map Template.read) ∧
      (∀ now name context,
        (s.engine.reload.render s.tree s.cache now name context).1 = (e.render s.tree {} now name context).1) ∧
      ∀ now source context, (s.engine.reload.renderText s.tree s.cache now source context).1 =
        (e.renderText s.tree {} now source context).1 := by
  intro s w
  obtain ⟨rfl, -, hnew⟩ := Engine.eq_of_ofResolver he
  have hfresh {c : Cache} (hc : c.Vouched (e.resolver.Made texts)) : Mirrored e texts e c [] :=
    ⟨⟨e.kept, rfl⟩, fun name => by rw [hnew]; rfl, hc⟩
  have hrun : Refines e texts s w := Refines.run
    ⟨rfl, hfiles t List.mem_cons_self, hfresh hcache, rfl⟩ hsep
    fun u hu => hfiles u (List.mem_cons_of_mem t hu)
  refine ⟨hrun.answers, hrun.tree, hrun.mirrored.kept, fun now name context => ?_, fun now source context => ?_⟩
  · rw [(hrun.mirrored.reload.render hsep hrun.files now name context).1,
      ((hfresh .empty).render hsep hrun.files now name context).1]
  · rw [(hrun.mirrored.reload.renderText hsep hrun.files now source context).1,
      ((hfresh .empty).renderText hsep hrun.files now source context).1]

/-- An inserted template is missing at first, then found, then changed: the engine goes on with the text it
found first until it is reloaded. -/
theorem run_snapshot_inserted :
    let r : Resolver := ⟨⟨[], "/view".toList⟩, ⟨.minijinja, "html".toList⟩⟩
    let e : Engine := { resolver := r, functions := [], constants := [] }
    let page := "a\x7binclude=\x22b\x22\x7d".toList
    let t := (FileTree.empty []).addFile ["view".toList, "a.html".toList] ⟨some page, 0⟩
    let with_b (text : Chars) := t.addFile ["view".toList, "b.html".toList] ⟨some text, 0⟩
    let a : EngineStep := .render ⟨0, 0⟩ "a".toList .undefined
    let es := [a, .change (with_b ['1']), a, .change (with_b ['2']), a, .reload, a]
    Engine.ofResolver r { functions := [] } = .ok e ∧ Digest.Separates [page, ['1'], ['2']] ∧
      (∀ u ∈ t :: EngineStep.trees es, ∀ raw ∈ u.texts, raw ∈ [page, ['1'], ['2']]) ∧
      (run { tree := t, engine := e, cache := {} } es).answers.map Except.toOption =
        [none, some "a1".toList, some "a1".toList, some "a2".toList] := by
  intro r e page t with_b a es
  have he : Engine.ofResolver r { functions := [] } = .ok e := rfl
  have hsep : Digest.Separates [page, ['1'], ['2']] := by
    unfold Digest.Separates
    simp only [page, String.reduceToList]
    decide +kernel
  have hfiles : ∀ u ∈ t :: EngineStep.trees es, ∀ raw ∈ u.texts, raw ∈ [page, ['1'], ['2']] := by
    decide +kernel
  refine ⟨he, hsep, hfiles, ?_⟩
  rw [(run_snapshot he hsep hfiles .empty).1]
  decide +kernel

end EngineSession
end ViewBridge

import ViewBridge.Proofs.Lookup.Priority
/-!
# Resolvers that share a cache

Any number of resolvers answer requests through one cache, while the files change in any way and entries are
dropped. The cache knows a file by its path and tells whether it changed by its time and its digest. It does
not know who translated it, so a resolver is answered with what another one made of the file, if that came
first.

Results:
* `Cache.Vouched.getOrTranslate`: what holds of every entry holds of what the cache answers.
* `isLegacy_native_iff`: when the native counterpart of a legacy file counts as legacy itself.
* `Witnessed.step`, `Witnessed.run`: every entry and every answer comes from a resolver that read the file.
* `run_answers`: every answer is made of the file as it is, a native one is its text, and a legacy one is its
  translation by a resolver that read the same file as a legacy one.
-/
namespace ViewBridge

/-- No two texts of a list have one digest. -/
def Digest.Separates (texts : List Chars) : Prop :=
  ∀ s ∈ texts, ∀ u ∈ texts, Digest.ofText s = Digest.ofText u → s = u

theorem Text.endsWith_iff {tail s : Chars} : Text.endsWith tail s = true ↔ tail <:+ s := by
  rw [Text.endsWith, Option.isSome_iff_exists]
  simp only [Text.before?_eq_some_iff]
  exact ⟨fun ⟨r, hr⟩ => ⟨r, hr.symm⟩, fun ⟨r, hr⟩ => ⟨r, hr.symm⟩⟩

/-! ## What a cache holds -/

namespace Cache

/-- Every entry was made for a text with its digest, and the path, the time, that text and the translation
have a property. -/
def Vouched (P : List Path.Step → Int → Chars → Chars → Prop) (c : Cache) : Prop :=
  ∀ e ∈ c.entries, ∃ raw, e.2.digest = Digest.ofText raw ∧ P e.1 e.2.modified raw e.2.translated

variable {P Q : List Path.Step → Int → Chars → Chars → Prop} {c : Cache}

theorem Vouched.empty : ({} : Cache).Vouched P := fun _ he => absurd he List.not_mem_nil

theorem Vouched.clear : c.clear.Vouched P := fun _ he => absurd he List.not_mem_nil

theorem Vouched.invalidate (hc : c.Vouched P) (path : Chars) : (c.invalidate path).2.Vouched P := by
  unfold Cache.invalidate
  split
  · exact fun e he => hc e (List.mem_filter.1 he).1
  · exact hc

theorem Vouched.imp (hc : c.Vouched P) (h : ∀ p m raw text, P p m raw text → Q p m raw text) :
    c.Vouched Q := fun e he => by
  obtain ⟨raw, hdigest, hP⟩ := hc e he
  exact ⟨raw, hdigest, h _ _ _ _ hP⟩

/-- An answer has the property of the entries for a text with the digest of the one asked for, if a new
translation has it; and the entries keep it. -/
theorem Vouched.getOrTranslate (hc : c.Vouched P) {path raw : Chars} {modified : Int}
    {translate : Chars → Chars} (hnew : P (Path.steps path) modified raw (translate raw)) :
    (∃ raw', Digest.ofText raw = Digest.ofText raw' ∧
      P (Path.steps path) modified raw' (c.getOrTranslate path modified raw translate).1) ∧
    (c.getOrTranslate path modified raw translate).2.Vouched P := by
  unfold Cache.getOrTranslate
  simp only
  cases hl : c.lookup path modified (Digest.ofText raw) with
  | some found =>
    obtain ⟨text, c'⟩ := found
    obtain ⟨hentry, hentries⟩ := lookup_eq_some hl
    obtain ⟨before, after, hmem, -⟩ := List.lookup_eq_some_iff.1 hentry
    exact ⟨hc (Path.steps path, ⟨modified, Digest.ofText raw, text⟩) (by simp [hmem]),
      fun e he => hc e (hentries ▸ he)⟩
  | none =>
    refine ⟨⟨raw, rfl, hnew⟩, fun e he => ?_⟩
    rcases List.mem_cons.1 he with rfl | he
    · exact ⟨raw, rfl, hnew⟩
    · exact hc e (List.mem_filter.1 he).1

/-- What was just answered is answered again, whoever asks and however it would translate. -/
theorem getOrTranslate_again (c : Cache) {path other : Chars} (hsame : Path.steps other = Path.steps path)
    (modified : Int) (raw : Chars) (translate translate' : Chars → Chars) :
    ((c.getOrTranslate path modified raw translate).2.getOrTranslate other modified raw translate').1 =
      (c.getOrTranslate path modified raw translate).1 := by
  have hget : (c.getOrTranslate path modified raw translate).2.get? other =
      some ⟨modified, Digest.ofText raw, (c.getOrTranslate path modified raw translate).1⟩ := by
    unfold getOrTranslate
    simp only
    cases hl : c.lookup path modified (Digest.ofText raw) with
    | some found =>
      obtain ⟨text, c'⟩ := found
      obtain ⟨hentry, hentries⟩ := lookup_eq_some hl
      rwa [get?, hsame, hentries]
    | none => simp only [get?_store, hsame, if_true]
  rw [getOrTranslate.eq_def (c.getOrTranslate path modified raw translate).2]
  simp [lookup, hget]

end Cache

namespace FileTree

/-- The texts of all files. -/
def texts (t : FileTree) : List Chars := t.files.filterMap fun e => e.2.text

variable {t : FileTree}

theorem mem_files_of_walk {loc loc' : Location} {xs : List Chars} {f : File}
    (h : t.walk loc xs = .ok (loc', .file f)) : (loc', f) ∈ t.files := by
  induction xs generalizing loc with
  | nil => cases h
  | cons x xs ih =>
    rw [walk] at h
    split at h
    · exact ih h
    split at h
    · exact ih h
    split at h
    · cases h
    split at h
    · cases h
    · exact ih h
    · rename_i g hget
      split at h
      · simp only [Except.ok.injEq, Prod.mk.injEq, Entry.file.injEq] at h
        obtain ⟨rfl, rfl⟩ := h
        -- what stands at a location is a file only if the table says so
        unfold get? at hget
        split at hget
        · rename_i g hl
          obtain rfl : g = _ := Entry.file.inj (Option.some.inj hget)
          obtain ⟨before, after, hmem, -⟩ := List.lookup_eq_some_iff.1 hl
          simp [hmem]
        · split at hget <;> cases hget
      · cases h

theorem mem_texts_of_file {path raw : Chars} {f : File} (h : t.file path = .ok f) (hf : f.text = some raw) :
    raw ∈ t.texts := by
  unfold file locate at h
  split at h
  · rename_i loc g hl
    obtain rfl : g = f := Except.ok.inj h
    split at hl
    · cases hl
    · exact List.mem_filterMap.2 ⟨_, mem_files_of_walk hl, hf⟩
  · cases h
  · cases h

end FileTree

namespace Resolver

variable {r : Resolver} {t : FileTree} {cache : Cache} {name : Chars}

/-- Everything that resolving a name can do: it fails and leaves the cache alone, it answers with the text of
a native file, or it asks the cache for the translation of a legacy one. -/
theorem resolve_cases (r : Resolver) (t : FileTree) (cache : Cache) (name : Chars) :
    (∃ e, r.resolve t cache name = (.error e, cache)) ∨
    (∃ found path f raw, r.locate t name = .ok (found, path) ∧ t.file path = .ok f ∧ f.text = some raw ∧
      r.isLegacy found = false ∧
      r.resolve t cache name = (.ok ⟨name, found, path, raw, false, f.modified⟩, cache)) ∨
    (∃ found path f raw, r.locate t name = .ok (found, path) ∧ t.file path = .ok f ∧ f.text = some raw ∧
      r.isLegacy found = true ∧
      r.resolve t cache name =
        (.ok ⟨name, found, path,
            (cache.getOrTranslate path f.modified raw r.translator.translate).1, true, f.modified⟩,
          (cache.getOrTranslate path f.modified raw r.translator.translate).2)) := by
  cases hl : r.locate t name with
  | error e => exact .inl ⟨e, by rw [resolve, hl]⟩
  | ok place =>
    obtain ⟨found, path⟩ := place
    obtain ⟨f, hf, hresolve⟩ := resolve_of_locate cache hl
    cases htext : f.text with
    | none => exact .inl ⟨_, by rw [hresolve, htext]⟩
    | some raw =>
      simp only [htext] at hresolve
      cases hlegacy : r.isLegacy found with
      | false => exact .inr (.inl ⟨found, path, f, raw, rfl, hf, htext, hlegacy, by rw [hresolve, hlegacy]; rfl⟩)
      | true => exact .inr (.inr ⟨found, path, f, raw, rfl, hf, htext, hlegacy, by rw [hresolve, hlegacy]; rfl⟩)

end Resolver

namespace TemplateName

theorem suffix_append_native_iff (x : Chars) :
    '.' :: x <:+ '.' :: x ++ ".twig".toList ↔
      ∃ n, '.' :: x = (List.replicate (n + 1) ".twig".toList).flatten := by
  constructor
  · intro h
    induction hlength : x.length using Nat.strongRecOn generalizing x with
    | _ n ih =>
      rcases List.suffix_or_suffix_of_suffix h (List.suffix_append _ _) with ⟨p, hp⟩ | ⟨y, hy⟩
      · cases p with
        | nil => exact ⟨0, by simpa using hp⟩
        | cons c p =>
          -- the suffix has its only dot in front
          have hdot : '.' ∈ "twig".toList := by
            rw [show "twig".toList = p ++ '.' :: x from (List.cons.inj hp).2.symm]
            simp
          exact absurd hdot (by decide)
      · cases y with
        | nil => exact ⟨0, by simpa using hy.symm⟩
        | cons c y =>
          obtain rfl : c = '.' := (List.cons.inj hy).1
          rw [← hy, List.suffix_append_self_iff] at h
          have hshorter : y.length < n := by
            have := congrArg List.length hy
            simp at this
            omega
          obtain ⟨k, hk⟩ := ih _ hshorter y h rfl
          refine ⟨k + 1, ?_⟩
          rw [List.replicate_succ', List.flatten_append, ← hk, ← hy]
          simp
  · rintro ⟨n, hn⟩
    have hswap : '.' :: x ++ ".twig".toList = ".twig".toList ++ '.' :: x := by
      rw [hn]
      have h := congrArg List.flatten
        ((List.replicate_succ' (n := n + 1) (a := ".twig".toList)).symm.trans List.replicate_succ)
      simpa only [List.flatten_append, List.flatten_cons, List.flatten_nil, List.append_nil] using h
    rw [hswap]
    exact List.suffix_append _ _

/-- The native counterpart of a legacy file counts as legacy itself exactly if the default extension is that
of native files, once or several times. -/
theorem isLegacy_native_iff (extension stem : Chars) :
    isLegacy extension (stem ++ '.' :: extension ++ ".twig".toList) = true ↔
      ∃ n, '.' :: extension = (List.replicate (n + 1) ".twig".toList).flatten := by
  rw [isLegacy, Text.endsWith_iff, ← suffix_append_native_iff, List.append_assoc]
  refine ⟨fun h => ?_, fun h => h.trans (List.suffix_append _ _)⟩
  exact List.suffix_of_suffix_length_le h (List.suffix_append _ _) (by simp)

end TemplateName

/-! ## Runs -/

/-- What happens around a shared cache: the files are others from now on, a resolver is asked for a name, the
entry of a path is dropped, or all entries are. -/
inductive SharingStep where
  | change (t : FileTree)
  | resolve (r : Resolver) (name : Chars)
  | invalidate (path : Chars)
  | clear

/-- What a resolver answered to a request, and the files it found. -/
structure Reply where
  resolver : Resolver
  tree : FileTree
  requested : Chars
  answer : Except Error ResolvedTemplate

namespace Reply

/-- The resolver read a legacy file at a path, of a time and with a text. -/
def Reads (a : Reply) (path : List Path.Step) (modified : Int) (raw : Chars) : Prop :=
  ∃ template f, a.answer = .ok template ∧ a.resolver.isLegacy template.name = true ∧
    Path.steps template.path = path ∧ a.tree.file template.path = .ok f ∧ f.modified = modified ∧
    f.text = some raw

/-- A template in an answer is made of the file that was located: of its text as it is, or of a translation by
one of the resolvers that read the same file as a legacy one. -/
def IsMade (replies : List Reply) (a : Reply) : Prop :=
  ∀ template, a.answer = .ok template → ∃ f raw,
    a.resolver.locate a.tree a.requested = .ok (template.name, template.path) ∧
    a.tree.file template.path = .ok f ∧ f.text = some raw ∧ template.requested = a.requested ∧
    template.modified = f.modified ∧ template.legacy = a.resolver.isLegacy template.name ∧
    (a.resolver.isLegacy template.name = false → template.source = raw) ∧
    (a.resolver.isLegacy template.name = true → ∃ b ∈ replies,
      b.Reads (Path.steps template.path) f.modified raw ∧
        template.source = b.resolver.translator.translate raw)

end Reply

/-- The files, the cache, and all replies so far, the latest first. -/
structure Sharing where
  tree : FileTree
  cache : Cache := {}
  replies : List Reply := []

namespace Sharing

/-- The state after a step. -/
def step (s : Sharing) : SharingStep → Sharing
  | .change t => { s with tree := t }
  | .resolve r name =>
    let (answer, cache) := r.resolve s.tree s.cache name
    { s with cache, replies := ⟨r, s.tree, name, answer⟩ :: s.replies }
  | .invalidate path => { s with cache := (s.cache.invalidate path).2 }
  | .clear => { s with cache := s.cache.clear }

/-- Steps one after another. -/
def run (s : Sharing) (es : List SharingStep) : Sharing := es.foldl step s

/-- The trees that the files are changed to. -/
def trees (es : List SharingStep) : List FileTree :=
  es.filterMap fun
    | .change t => some t
    | _ => none

/-- The files have texts of a list only, every entry is a translation by a resolver that read it, and every
reply is made of what was read up to it. -/
structure Witnessed (texts : List Chars) (s : Sharing) : Prop where
  files : ∀ raw ∈ s.tree.texts, raw ∈ texts
  cache : s.cache.Vouched fun path modified raw text => raw ∈ texts ∧ ∃ b ∈ s.replies,
    b.Reads path modified raw ∧ text = b.resolver.translator.translate raw
  replies : ∀ a earlier, a :: earlier <:+ s.replies → a.IsMade (a :: earlier)

variable {texts : List Chars} {s : Sharing}

theorem Witnessed.resolve (hs : s.Witnessed texts) (hsep : Digest.Separates texts) (r : Resolver)
    (name : Chars) : (s.step (.resolve r name)).Witnessed texts := by
  -- what was witnessed before still is
  have hold {a : Reply} : s.cache.Vouched fun path modified raw text => raw ∈ texts ∧
      ∃ b ∈ a :: s.replies, b.Reads path modified raw ∧ text = b.resolver.translator.translate raw :=
    hs.cache.imp fun _ _ _ _ ⟨hraw, b, hb, h⟩ => ⟨hraw, b, List.mem_cons_of_mem a hb, h⟩
  have hreplies {a : Reply} (ha : a.IsMade (a :: s.replies)) (b : Reply) (earlier : List Reply)
      (hsuffix : b :: earlier <:+ a :: s.replies) : b.IsMade (b :: earlier) := by
    rcases List.suffix_cons_iff.1 hsuffix with heq | hbefore
    · obtain ⟨rfl, rfl⟩ := List.cons.inj heq
      exact ha
    · exact hs.replies b earlier hbefore
  obtain ⟨e, hr⟩ | ⟨found, path, f, raw, hl, hf, htext, hlegacy, hr⟩ |
    ⟨found, path, f, raw, hl, hf, htext, hlegacy, hr⟩ := r.resolve_cases s.tree s.cache name
  all_goals rw [step, hr]
  case inl => exact ⟨hs.files, hold, hreplies fun template h => by cases h⟩
  case inr.inl =>
    refine ⟨hs.files, hold, hreplies fun template h => ?_⟩
    obtain rfl := Except.ok.inj h
    exact ⟨f, raw, hl, hf, htext, rfl, rfl, hlegacy.symm, fun _ => rfl, fun h => by simp [hlegacy] at h⟩
  case inr.inr =>
    have hraw : raw ∈ texts := hs.files raw (FileTree.mem_texts_of_file hf htext)
    let a : Reply := ⟨r, s.tree, name, .ok ⟨name, found, path,
      (s.cache.getOrTranslate path f.modified raw r.translator.translate).1, true, f.modified⟩⟩
    have hreads : a.Reads (Path.steps path) f.modified raw :=
      ⟨_, f, rfl, hlegacy, rfl, hf, rfl, htext⟩
    obtain ⟨⟨raw', hdigest, hraw', b, hb, hbreads, hsource⟩, hcache⟩ :=
      (hold (a := a)).getOrTranslate ⟨hraw, a, List.mem_cons_self, hreads, rfl⟩
    obtain rfl := hsep raw hraw raw' hraw' hdigest
    refine ⟨hs.files, hcache, hreplies (a := a) fun template h => ?_⟩
    obtain rfl := Except.ok.inj h
    exact ⟨f, raw, hl, hf, htext, rfl, rfl, hlegacy.symm, fun h => by simp [a, hlegacy] at h,
      fun _ => ⟨b, hb, hbreads, hsource⟩⟩

theorem Witnessed.step (hs : s.Witnessed texts) (hsep : Digest.Separates texts) {e : SharingStep}
    (he : ∀ t, e = .change t → ∀ raw ∈ t.texts, raw ∈ texts) : (s.step e).Witnessed texts := by
  cases e with
  | change t => exact ⟨he t rfl, hs.cache, hs.replies⟩
  | resolve r name => exact hs.resolve hsep r name
  | invalidate path => exact ⟨hs.files, hs.cache.invalidate path, hs.replies⟩
  | clear => exact ⟨hs.files, .clear, hs.replies⟩

theorem Witnessed.run (hs : s.Witnessed texts) (hsep : Digest.Separates texts) {es : List SharingStep}
    (hes : ∀ t ∈ trees es, ∀ raw ∈ t.texts, raw ∈ texts) : (s.run es).Witnessed texts := by
  induction es generalizing s with
  | nil => exact hs
  | cons e es ih =>
    refine ih (hs.step hsep ?_) fun t ht => hes t ?_
    · rintro t rfl
      exact hes t (by simp [trees])
    · obtain ⟨e', he', h⟩ := List.mem_filterMap.1 ht
      exact List.mem_filterMap.2 ⟨e', List.mem_cons_of_mem e he', h⟩

/-- A resolver that reads a legacy file right after another one is answered with the translation of the
other one. -/
theorem resolve_resolve {t : FileTree} {r₁ r₂ : Resolver} {n₁ n₂ found₁ found₂ path₁ path₂ raw : Chars}
    {f : File} (hl₁ : r₁.locate t n₁ = .ok (found₁, path₁)) (hl₂ : r₂.locate t n₂ = .ok (found₂, path₂))
    (h₁ : r₁.isLegacy found₁ = true) (h₂ : r₂.isLegacy found₂ = true)
    (hpath : Path.steps path₂ = Path.steps path₁) (hf₁ : t.file path₁ = .ok f) (hf₂ : t.file path₂ = .ok f)
    (htext : f.text = some raw) (cache : Cache) :
    (r₂.resolve t (r₁.resolve t cache n₁).2 n₂).1 = .ok ⟨n₂, found₂, path₂,
      (cache.getOrTranslate path₁ f.modified raw r₁.translator.translate).1, true, f.modified⟩ := by
  obtain ⟨g₁, hg₁, hr₁⟩ := Resolver.resolve_of_locate cache hl₁
  obtain rfl : f = g₁ := Except.ok.inj (hf₁.symm.trans hg₁)
  simp only [htext, h₁, if_true] at hr₁
  obtain ⟨g₂, hg₂, hr₂⟩ := Resolver.resolve_of_locate (r₁.resolve t cache n₁).2 hl₂
  obtain rfl : f = g₂ := Except.ok.inj (hf₂.symm.trans hg₂)
  rw [hr₂]
  simp only [htext, h₂, if_true, hr₁, Cache.getOrTranslate_again cache hpath]

/-- In every run of resolvers over one cache in which no two texts of files have one digest:

* a template in an answer is that of the file as it is then: its text if the file is a native one, and a
  translation of its text by a resolver that read the same file by then if it is a legacy one;
* so it is the resolver's own translation if the resolvers that read the same file, with the same time and
  text, translate it alike;
* and no more than that holds: of two resolvers that read a legacy file one after the other, the second is
  answered with the translation of the first.

A native file is a legacy one at the same time exactly if the default extension is that of native files, once
or several times. -/
theorem run_answers (t : FileTree) (es : List SharingStep)
    (hsep : Digest.Separates ((t :: trees es).flatMap FileTree.texts)) :
    (∀ a earlier, a :: earlier <:+ (run { tree := t } es).replies → a.IsMade (a :: earlier)) ∧
    (∀ a earlier, a :: earlier <:+ (run { tree := t } es).replies → ∀ template f raw,
      a.answer = .ok template → a.resolver.isLegacy template.name = true →
      a.tree.file template.path = .ok f → f.text = some raw →
      (∀ b ∈ earlier, b.Reads (Path.steps template.path) f.modified raw →
        b.resolver.translator.translate raw = a.resolver.translator.translate raw) →
      template.source = a.resolver.translator.translate raw) ∧
    (∀ (u : FileTree) (r₁ r₂ : Resolver) (n₁ n₂ found₁ found₂ path₁ path₂ raw : Chars) (f : File),
      r₁.locate u n₁ = .ok (found₁, path₁) → r₂.locate u n₂ = .ok (found₂, path₂) →
      r₁.isLegacy found₁ = true → r₂.isLegacy found₂ = true → Path.steps path₂ = Path.steps path₁ →
      u.file path₁ = .ok f → u.file path₂ = .ok f → f.text = some raw →
      (run { tree := u } [.resolve r₁ n₁, .resolve r₂ n₂]).replies.head?.map Reply.answer =
        some (.ok ⟨n₂, found₂, path₂, r₁.translator.translate raw, true, f.modified⟩)) ∧
    (∀ (r : Resolver) (stem : Chars),
      r.isLegacy (stem ++ '.' :: r.translator.extension ++ ".twig".toList) = true ↔
        ∃ n, '.' :: r.translator.extension = (List.replicate (n + 1) ".twig".toList).flatten) := by
  have hmem {u : FileTree} (hu : u ∈ t :: trees es) (raw : Chars) (hraw : raw ∈ u.texts) :
      raw ∈ (t :: trees es).flatMap FileTree.texts := List.mem_flatMap.2 ⟨u, hu, hraw⟩
  have hstart : ({ tree := t } : Sharing).Witnessed ((t :: trees es).flatMap FileTree.texts) :=
    ⟨hmem List.mem_cons_self, .empty, fun a earlier h => by simp at h⟩
  have hrun := hstart.run hsep fun u hu => hmem (List.mem_cons_of_mem t hu)
  refine ⟨hrun.replies, fun a earlier hsuffix template f raw hanswer hlegacy hf htext hagree => ?_,
    fun u r₁ r₂ n₁ n₂ found₁ found₂ path₁ path₂ raw f hl₁ hl₂ h₁ h₂ hpath hf₁ hf₂ htext => ?_,
    fun r stem => TemplateName.isLegacy_native_iff _ stem⟩
  · obtain ⟨g, raw', -, hg, htext', -, -, -, -, hmade⟩ := hrun.replies a earlier hsuffix template hanswer
    obtain rfl : f = g := Except.ok.inj (hf.symm.trans hg)
    obtain rfl : raw = raw' := Option.some.inj (htext.symm.trans htext')
    obtain ⟨b, hb, hreads, hsource⟩ := hmade hlegacy
    rcases List.mem_cons.1 hb with rfl | hb
    · exact hsource
    · rw [hsource, hagree b hb hreads]
  · have hsecond := resolve_resolve hl₁ hl₂ h₁ h₂ hpath hf₁ hf₂ htext {}
    simp only [run, List.foldl_cons, List.foldl_nil, step, List.head?_cons, Option.map_some, hsecond]
    rfl

/-- A resolver to one dialect reads a file, and one to the other dialect is answered with what the first one
made of it, which is not what it would have made itself. -/
theorem run_answers_dialects :
    let old : Resolver := ⟨⟨[], "/view".toList⟩, ⟨.twig, "html".toList⟩⟩
    let new : Resolver := ⟨⟨[], "/view".toList⟩, ⟨.minijinja, "html".toList⟩⟩
    let t := (FileTree.empty []).addFile ["view".toList, "a.html".toList] ⟨some "\x7b$x\x7d".toList, 0⟩
    let es : List SharingStep := [.resolve old "a".toList, .resolve new "a".toList]
    Digest.Separates ((t :: trees es).flatMap FileTree.texts) ∧
      (run { tree := t } es).replies.head?.map Reply.answer =
        some (.ok ⟨"a".toList, "a.html".toList, "/view/a.html".toList,
          old.translator.translate "\x7b$x\x7d".toList, true, 0⟩) ∧
      old.translator.translate "\x7b$x\x7d".toList ≠ new.translator.translate "\x7b$x\x7d".toList := by
  intro old new t es
  have hsep : Digest.Separates ((t :: trees es).flatMap FileTree.texts) := by
    have htexts : (t :: trees es).flatMap FileTree.texts = ["\x7b$x\x7d".toList] := by decide +kernel
    rw [htexts]
    rintro s hs u hu -
    rw [List.mem_singleton.1 hs, List.mem_singleton.1 hu]
  refine ⟨hsep, ?_, by decide +kernel⟩
  exact (run_answers t es hsep).2.2.1 t old new "a".toList "a".toList "a.html".toList "a.html".toList
    "/view/a.html".toList "/view/a.html".toList "\x7b$x\x7d".toList ⟨some "\x7b$x\x7d".toList, 0⟩
    (by decide +kernel) (by decide +kernel) (by decide +kernel) (by decide +kernel) rfl (by decide +kernel)
    (by decide +kernel) rfl

end Sharing
end ViewBridge

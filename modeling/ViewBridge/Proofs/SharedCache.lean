import Mathlib.Logic.Function.Basic
import ViewBridge.Cache
/-!
# A cache that threads share

Any number of threads ask one cache for translations, drop entries and clear it. What a thread does under a
lock is one step. A call that misses takes two more, one that translates under no lock and one that stores,
and the other threads may do anything in between. A run is a list of steps, each with the thread that takes
it, from an empty cache.

Results:
* `exists_act`, `answered_run`: a call under way can always go on, and three steps of its own end it.
* `run_alone`: a call that nothing interrupts is `Cache.getOrTranslate`.
* `Exact.step`, `Exact.run`: the counters, the entries and the answers are right after every step.
* `run_transparent`: in every run each call is answered with the translation of its own text, and the
  counters say what happened.
-/
namespace ViewBridge

/-- A call's question: the translation of the text of a file. -/
structure CacheRequest where
  path : Chars
  modified : Int
  raw : Chars
deriving DecidableEq, Repr

/-- What a call came back with, and whether that was kept already. -/
structure CacheAnswer where
  request : CacheRequest
  text : Chars
  hit : Bool
deriving DecidableEq, Repr

/-- How far a thread has come with its call. -/
inductive CachePhase where
  | idle
  | asking (q : CacheRequest)
  | missed (q : CacheRequest)
  | translated (q : CacheRequest) (text : Chars)
deriving DecidableEq, Repr

/-- What a thread does in one step. -/
inductive CacheAction where
  | ask (q : CacheRequest)
  | find
  | translate
  | keep
  | invalidate (path : Chars)
  | clear
deriving DecidableEq, Repr

/-- The request that an action makes. -/
def CacheAction.request? : CacheAction → Option CacheRequest
  | .ask q => some q
  | _ => none

namespace CachePhase

/-- The request of the call under way. -/
def request? : CachePhase → Option CacheRequest
  | .idle => none
  | .asking q | .missed q | .translated q _ => some q

/-- How many steps of its own a call takes at most until it is answered. -/
def left : CachePhase → Nat
  | .idle => 0
  | .asking _ => 3
  | .missed _ => 2
  | .translated _ _ => 1

end CachePhase

/-- One step of a thread: the cache after it, the thread's phase, and the answer if this ends its call.
Nothing comes of an action that the phase does not allow. -/
def CachePhase.act (f : Chars → Chars) (c : Cache) :
    CachePhase → CacheAction → Option (Cache × CachePhase × Option CacheAnswer)
  | .idle, .ask q => some (c, .asking q, none)
  | .idle, .invalidate path => some ((c.invalidate path).2, .idle, none)
  | .idle, .clear => some (c.clear, .idle, none)
  | .asking q, .find =>
    match c.lookup q.path q.modified (Digest.ofText q.raw) with
    | some (text, c') => some (c', .idle, some ⟨q, text, true⟩)
    | none => some (c, .missed q, none)
  | .missed q, .translate => some (c, .translated q (f q.raw), none)
  | .translated q text, .keep =>
    some (c.store q.path ⟨q.modified, Digest.ofText q.raw, text⟩, .idle, some ⟨q, text, false⟩)
  | _, _ => none

namespace Cache

/-- A cache holds only translations of texts that were asked for, each under the path, the time and the
digest of its request, and counts its entries. -/
structure Holds (f : Chars → Chars) (asked : List CacheRequest) (c : Cache) : Prop where
  entries : ∀ e ∈ c.entries, ∃ q ∈ asked,
    e = (Path.steps q.path, ⟨q.modified, Digest.ofText q.raw, f q.raw⟩)
  keys : (c.entries.map Prod.fst).Nodup
  size : c.stats.entries = c.entries.length

variable {f : Chars → Chars} {asked : List CacheRequest} {c c' : Cache}

/-- What a lookup answers is the translation of the text that was asked for, if no other text that was
asked for has its digest. -/
theorem Holds.lookup_eq (hc : c.Holds f asked) {q : CacheRequest}
    (hinj : ∀ p ∈ asked, Digest.ofText p.raw = Digest.ofText q.raw → p.raw = q.raw) {text : Chars}
    (h : c.lookup q.path q.modified (Digest.ofText q.raw) = some (text, c')) : text = f q.raw := by
  obtain ⟨before, after, hmem, -⟩ := List.lookup_eq_some_iff.1 (lookup_eq_some h).1
  obtain ⟨p, hp, heq⟩ :=
    hc.entries (Path.steps q.path, ⟨q.modified, Digest.ofText q.raw, text⟩) (by simp [hmem])
  simp only [Prod.mk.injEq, CacheEntry.mk.injEq] at heq
  rw [heq.2.2.2, hinj p hp heq.2.2.1.symm]

theorem Holds.lookup (hc : c.Holds f asked) {path digest text : Chars} {modified : Int}
    (h : c.lookup path modified digest = some (text, c')) : c'.Holds f asked := by
  have hentries := (lookup_eq_some h).2
  have hstats := stats_lookup h
  exact ⟨hentries ▸ hc.entries, hentries ▸ hc.keys, by rw [hstats, hentries]; exact hc.size⟩

theorem Holds.store (hc : c.Holds f asked) {q : CacheRequest} (hq : q ∈ asked) :
    (c.store q.path ⟨q.modified, Digest.ofText q.raw, f q.raw⟩).Holds f asked := by
  refine ⟨fun e he => ?_, Table.nodup_put hc.keys .., rfl⟩
  rcases List.mem_cons.1 he with rfl | he
  · exact ⟨q, hq, rfl⟩
  · exact hc.entries e (List.mem_filter.1 he).1

theorem Holds.invalidate (hc : c.Holds f asked) (path : Chars) : (c.invalidate path).2.Holds f asked := by
  unfold Cache.invalidate
  split
  · exact ⟨fun e he => hc.entries e (List.mem_filter.1 he).1, (List.filter_sublist.map _).nodup hc.keys, rfl⟩
  · exact hc

theorem counts_invalidate (c : Cache) (path : Chars) :
    (c.invalidate path).2.stats.hits = c.stats.hits ∧ (c.invalidate path).2.stats.misses = c.stats.misses ∧
      (c.invalidate path).2.stats.requests = c.stats.requests := by
  unfold Cache.invalidate
  split <;> exact ⟨rfl, rfl, rfl⟩

theorem Holds.clear (f : Chars → Chars) (asked : List CacheRequest) (c : Cache) :
    c.clear.Holds f asked :=
  ⟨by simp [Cache.clear], List.nodup_nil, rfl⟩

end Cache

/-- A cache with the threads around it, and all answers so far with the thread each went to. -/
structure SharedCache (ι : Type) where
  cache : Cache := {}
  phase : ι → CachePhase := fun _ => .idle
  answers : List (ι × CacheAnswer) := []

namespace SharedCache

variable {ι : Type} [DecidableEq ι] {f : Chars → Chars} {s s' : SharedCache ι}

/-- A thread takes a step. -/
def step (f : Chars → Chars) (s : SharedCache ι) (e : ι × CacheAction) : Option (SharedCache ι) :=
  ((s.phase e.1).act f s.cache e.2).map fun r =>
    { cache := r.1
      phase := Function.update s.phase e.1 r.2.1
      answers := s.answers ++ r.2.2.toList.map fun a => (e.1, a) }

/-- Steps one after another. -/
def run (f : Chars → Chars) : SharedCache ι → List (ι × CacheAction) → Option (SharedCache ι)
  | s, [] => some s
  | s, e :: es => (s.step f e).bind fun s' => run f s' es

/-- The requests that steps make. -/
def requests (es : List (ι × CacheAction)) : List CacheRequest := es.filterMap fun e => e.2.request?

/-- The requests of a thread so far: those answered, then the one under way. -/
def calls (s : SharedCache ι) (i : ι) : List CacheRequest :=
  ((s.answers.filter fun a => a.1 = i).map fun a => a.2.request) ++ (s.phase i).request?.toList

/-! ## Steps -/

/-- Everything that a step can do. -/
theorem act_cases {c : Cache} {ph : CachePhase} {a : CacheAction}
    {r : Cache × CachePhase × Option CacheAnswer} (h : ph.act f c a = some r) :
    (∃ q, ph = .idle ∧ a = .ask q ∧ r = (c, .asking q, none)) ∨
    (∃ path, ph = .idle ∧ a = .invalidate path ∧ r = ((c.invalidate path).2, .idle, none)) ∨
    (ph = .idle ∧ a = .clear ∧ r = (c.clear, .idle, none)) ∨
    (∃ q text c', ph = .asking q ∧ a = .find ∧
      c.lookup q.path q.modified (Digest.ofText q.raw) = some (text, c') ∧
      r = (c', .idle, some ⟨q, text, true⟩)) ∨
    (∃ q, ph = .asking q ∧ a = .find ∧
      c.lookup q.path q.modified (Digest.ofText q.raw) = none ∧ r = (c, .missed q, none)) ∨
    (∃ q, ph = .missed q ∧ a = .translate ∧ r = (c, .translated q (f q.raw), none)) ∨
    (∃ q text, ph = .translated q text ∧ a = .keep ∧
      r = (c.store q.path ⟨q.modified, Digest.ofText q.raw, text⟩, .idle, some ⟨q, text, false⟩)) := by
  unfold CachePhase.act at h
  split at h
  case h_4 q =>
    split at h <;> cases h
    · exact .inr (.inr (.inr (.inl ⟨_, _, _, rfl, rfl, ‹_›, rfl⟩)))
    · exact .inr (.inr (.inr (.inr (.inl ⟨_, rfl, rfl, ‹_›, rfl⟩))))
  all_goals cases h
  · exact .inl ⟨_, rfl, rfl, rfl⟩
  · exact .inr (.inl ⟨_, rfl, rfl, rfl⟩)
  · exact .inr (.inr (.inl ⟨rfl, rfl, rfl⟩))
  · exact .inr (.inr (.inr (.inr (.inr (.inl ⟨_, rfl, rfl, rfl⟩)))))
  · exact .inr (.inr (.inr (.inr (.inr (.inr ⟨_, _, rfl, rfl, rfl⟩)))))

/-- A call under way can go on whatever the cache holds. -/
theorem exists_act {ph : CachePhase} {q : CacheRequest} (hq : ph.request? = some q) (f : Chars → Chars)
    (c : Cache) : ∃ a, (ph.act f c a).isSome := by
  cases ph with
  | idle => cases hq
  | asking p =>
    refine ⟨.find, ?_⟩
    cases hl : c.lookup p.path p.modified (Digest.ofText p.raw) <;> simp [CachePhase.act, hl]
  | missed p => exact ⟨.translate, rfl⟩
  | translated p text => exact ⟨.keep, rfl⟩

/-- Each step of a call under way brings it nearer to its end, where it is answered. -/
theorem act_progress {c : Cache} {ph : CachePhase} {a : CacheAction} {q : CacheRequest}
    {r : Cache × CachePhase × Option CacheAnswer} (h : ph.act f c a = some r) (hq : ph.request? = some q) :
    r.2.1.left < ph.left ∧
      (r.2.1.request? = some q ∨ ∃ answer, r.2.2 = some answer ∧ answer.request = q) := by
  obtain ⟨p, rfl, -, rfl⟩ | ⟨path, rfl, -, rfl⟩ | ⟨rfl, -, rfl⟩ | ⟨p, text, c', rfl, -, -, rfl⟩ |
    ⟨p, rfl, -, -, rfl⟩ | ⟨p, rfl, -, rfl⟩ | ⟨p, text, rfl, -, rfl⟩ := act_cases h
  all_goals simp_all [CachePhase.request?, CachePhase.left]

theorem step_eq_some {e : ι × CacheAction} (h : s.step f e = some s') :
    ∃ r, (s.phase e.1).act f s.cache e.2 = some r ∧ s'.cache = r.1 ∧
      s'.phase = Function.update s.phase e.1 r.2.1 ∧
      s'.answers = s.answers ++ r.2.2.toList.map fun a => (e.1, a) := by
  obtain ⟨r, hr, rfl⟩ := Option.map_eq_some_iff.1 h
  exact ⟨r, hr, rfl, rfl, rfl⟩

theorem run_cons_eq_some {e : ι × CacheAction} {es : List (ι × CacheAction)} :
    run f s (e :: es) = some s' ↔ ∃ s₁, s.step f e = some s₁ ∧ run f s₁ es = some s' :=
  Option.bind_eq_some_iff

theorem run_append_eq_some {es es' : List (ι × CacheAction)} :
    run f s (es ++ es') = some s' ↔ ∃ s₁, run f s es = some s₁ ∧ run f s₁ es' = some s' := by
  induction es generalizing s with
  | nil => simp [run]
  | cons e es ih =>
    simp only [List.cons_append, run_cons_eq_some, ih]
    constructor
    · rintro ⟨s₁, h₁, s₂, h₂, h₃⟩
      exact ⟨s₂, ⟨s₁, h₁, h₂⟩, h₃⟩
    · rintro ⟨s₂, ⟨s₁, h₁, h₂⟩, h₃⟩
      exact ⟨s₁, h₁, s₂, h₂, h₃⟩

theorem answers_run {es : List (ι × CacheAction)} (h : run f s es = some s') (a : ι × CacheAnswer)
    (ha : a ∈ s.answers) : a ∈ s'.answers := by
  induction es generalizing s with
  | nil =>
    obtain rfl : s = s' := Option.some.inj h
    exact ha
  | cons e es ih =>
    obtain ⟨s₁, hstep, hrun⟩ := run_cons_eq_some.1 h
    obtain ⟨r, -, -, -, hanswers⟩ := step_eq_some hstep
    exact ih hrun (by simp [hanswers, ha])

/-! ## Calls -/

/-- A request enters a thread's calls when it is made and stays there. -/
theorem calls_step {e : ι × CacheAction} (h : s.step f e = some s') (i : ι) :
    s'.calls i = s.calls i ++ if e.1 = i then e.2.request?.toList else [] := by
  obtain ⟨r, hact, -, hphase, hanswers⟩ := step_eq_some h
  obtain ⟨j, a⟩ := e
  simp only [calls, hphase, hanswers, List.filter_append, List.map_append]
  rcases eq_or_ne j i with rfl | hi
  · obtain ⟨q, hp, rfl, rfl⟩ | ⟨path, hp, rfl, rfl⟩ | ⟨hp, rfl, rfl⟩ | ⟨q, text, c', hp, rfl, -, rfl⟩ |
      ⟨q, hp, rfl, -, rfl⟩ | ⟨q, hp, rfl, rfl⟩ | ⟨q, text, hp, rfl, rfl⟩ := act_cases hact
    all_goals simp [hp, CachePhase.request?, CacheAction.request?]
  · have hother : (r.2.2.toList.map fun a => (j, a)).filter (fun a => decide (a.1 = i)) = [] := by
      simp [List.filter_eq_nil_iff, hi]
    simp [hi, Ne.symm hi, hother]

theorem calls_run {es : List (ι × CacheAction)} (h : run f s es = some s') (i : ι) :
    s'.calls i = s.calls i ++ requests (es.filter fun e => e.1 = i) := by
  induction es generalizing s with
  | nil =>
    obtain rfl : s = s' := Option.some.inj h
    simp [requests]
  | cons e es ih =>
    obtain ⟨s₁, hstep, hrun⟩ := run_cons_eq_some.1 h
    rw [ih hrun, calls_step hstep i]
    by_cases hi : e.1 = i
    · cases hq : e.2.request? <;> simp [requests, hi, hq]
    · simp [requests, hi]

/-- However a call is interleaved, three steps of its own bring its answer. -/
theorem answered_run {es : List (ι × CacheAction)} (h : run f s es = some s') {i : ι} {q : CacheRequest}
    (hq : (s.phase i).request? = some q) (hown : (s.phase i).left ≤ es.countP fun e => e.1 = i) :
    ∃ answer, (i, answer) ∈ s'.answers ∧ answer.request = q := by
  induction es generalizing s with
  | nil =>
    cases hp : s.phase i <;> simp [hp, CachePhase.left, CachePhase.request?] at hown hq
  | cons e es ih =>
    obtain ⟨s₁, hstep, hrun⟩ := run_cons_eq_some.1 h
    obtain ⟨r, hact, -, hphase, hanswers⟩ := step_eq_some hstep
    rw [List.countP_cons] at hown
    by_cases hi : e.1 = i
    · subst hi
      obtain ⟨hleft, hgoes | ⟨answer, ha, hreq⟩⟩ := act_progress hact hq
      · refine ih hrun (by simpa [hphase] using hgoes) ?_
        simp only [hphase, Function.update_self]
        simp only [decide_true, if_true] at hown
        omega
      · exact ⟨answer, answers_run hrun _ (by simp [hanswers, ha]), hreq⟩
    · have hsame : s₁.phase i = s.phase i := by rw [hphase, Function.update_of_ne (Ne.symm hi)]
      exact ih hrun (hsame ▸ hq) (by simpa [hsame, hi] using hown)

/-- A call that nothing interrupts does to the cache what `Cache.getOrTranslate` does, answers with what
that gives, and touches nothing else. -/
theorem run_alone (f : Chars → Chars) {i : ι} {q : CacheRequest} (hidle : s.phase i = .idle) :
    ∃ as s', run f s (((.ask q :: as).map fun a => (i, a))) = some s' ∧
      s'.cache = (s.cache.getOrTranslate q.path q.modified q.raw f).2 ∧ s'.phase = s.phase ∧
      ∃ hit, s'.answers =
        s.answers ++ [(i, ⟨q, (s.cache.getOrTranslate q.path q.modified q.raw f).1, hit⟩)] := by
  cases hl : s.cache.lookup q.path q.modified (Digest.ofText q.raw) with
  | some found =>
    exact ⟨[.find], _, by simp [run, step, CachePhase.act, hidle, hl]; rfl,
      by simp [Cache.getOrTranslate, hl], by simp [← hidle], true, by simp [Cache.getOrTranslate, hl]⟩
  | none =>
    exact ⟨[.find, .translate, .keep], _, by simp [run, step, CachePhase.act, hidle, hl]; rfl,
      by simp [Cache.getOrTranslate, hl], by simp [← hidle], false, by simp [Cache.getOrTranslate, hl]⟩

/-! ## Invariant -/

/-- The state is right, with requests from a list only: the cache holds what it should, the counters count
the answers, and every call that is past its translation or answered has that of its own text. -/
structure Exact (f : Chars → Chars) (asked : List CacheRequest) (s : SharedCache ι) : Prop where
  holds : s.cache.Holds f asked
  hits : s.cache.stats.hits = s.answers.countP fun a => a.2.hit
  misses : s.cache.stats.misses = s.answers.countP fun a => !a.2.hit
  requests : s.cache.stats.requests = s.answers.length
  phases : ∀ i q, (s.phase i).request? = some q → q ∈ asked
  translations : ∀ i q text, s.phase i = .translated q text → text = f q.raw
  answers : ∀ a ∈ s.answers, a.2.text = f a.2.request.raw

omit [DecidableEq ι] in
theorem Exact.start (f : Chars → Chars) (asked : List CacheRequest) : Exact f asked ({} : SharedCache ι) where
  holds := ⟨by simp, List.nodup_nil, rfl⟩
  hits := rfl
  misses := rfl
  requests := rfl
  phases := by simp [CachePhase.request?]
  translations := by simp
  answers := by simp

/-- A step after which the state is right: what it does to the cache, to its own thread and to the answers
is right. -/
theorem Exact.of_act {asked : List CacheRequest} (hs : Exact f asked s) {i : ι}
    {r : Cache × CachePhase × Option CacheAnswer} (hholds : r.1.Holds f asked)
    (hhits : r.1.stats.hits = s.cache.stats.hits + r.2.2.toList.countP fun a => a.hit)
    (hmisses : r.1.stats.misses = s.cache.stats.misses + r.2.2.toList.countP fun a => !a.hit)
    (hrequests : r.1.stats.requests = s.cache.stats.requests + r.2.2.toList.length)
    (hphase : ∀ q, r.2.1.request? = some q → q ∈ asked)
    (htext : ∀ q text, r.2.1 = .translated q text → text = f q.raw)
    (hanswer : ∀ a, r.2.2 = some a → a.text = f a.request.raw) :
    Exact f asked
      { cache := r.1
        phase := Function.update s.phase i r.2.1
        answers := s.answers ++ r.2.2.toList.map fun a => (i, a) } where
  holds := hholds
  hits := by simp [hhits, hs.hits, List.countP_map, Function.comp_def]
  misses := by simp [hmisses, hs.misses, List.countP_map, Function.comp_def]
  requests := by simp [hrequests, hs.requests]
  phases j q hq := by
    simp only [Function.update_apply] at hq
    split at hq
    · exact hphase q hq
    · exact hs.phases j q hq
  translations j q text hq := by
    simp only [Function.update_apply] at hq
    split at hq
    · exact htext q text hq
    · exact hs.translations j q text hq
  answers a ha := by
    rcases List.mem_append.1 ha with ha | ha
    · exact hs.answers a ha
    · obtain ⟨b, hb, rfl⟩ := List.mem_map.1 ha
      exact hanswer b (Option.mem_toList.1 hb)

/-- Every step keeps the state right, if no two texts that are asked for have one digest. -/
theorem Exact.step {asked : List CacheRequest} (hs : Exact f asked s)
    (hinj : ∀ p ∈ asked, ∀ q ∈ asked, Digest.ofText p.raw = Digest.ofText q.raw → p.raw = q.raw)
    {e : ι × CacheAction} (hasked : ∀ q, e.2.request? = some q → q ∈ asked) (h : s.step f e = some s') :
    Exact f asked s' := by
  obtain ⟨r, hact, rfl⟩ := Option.map_eq_some_iff.1 h
  obtain ⟨i, a⟩ := e
  obtain ⟨q, hp, rfl, rfl⟩ | ⟨path, hp, rfl, rfl⟩ | ⟨hp, rfl, rfl⟩ | ⟨q, text, c', hp, rfl, hl, rfl⟩ |
    ⟨q, hp, rfl, -, rfl⟩ | ⟨q, hp, rfl, rfl⟩ | ⟨q, text, hp, rfl, rfl⟩ := act_cases hact
  case inl => -- a request is made
    exact hs.of_act hs.holds rfl rfl rfl hasked (by simp) (by simp)
  case inr.inl => -- an entry is dropped
    obtain ⟨hhits, hmisses, hrequests⟩ := Cache.counts_invalidate s.cache path
    exact hs.of_act (hs.holds.invalidate path) hhits hmisses hrequests (by simp [CachePhase.request?])
      (by simp) (by simp)
  case inr.inr.inl => -- all entries are dropped
    exact hs.of_act (.clear f asked s.cache) rfl rfl rfl (by simp [CachePhase.request?]) (by simp) (by simp)
  case inr.inr.inr.inl => -- a hit
    have hq : q ∈ asked := hs.phases i q (by simp [hp, CachePhase.request?])
    have hstats := Cache.stats_lookup hl
    refine hs.of_act (hs.holds.lookup hl) (by simp [hstats]) (by simp [hstats]) (by simp [hstats])
      (by simp [CachePhase.request?]) (by simp) ?_
    rintro a ⟨⟩
    exact hs.holds.lookup_eq (fun p hp => hinj p hp q hq) hl
  case inr.inr.inr.inr.inl => -- nothing is found
    have hq : q ∈ asked := hs.phases i q (by simp [hp, CachePhase.request?])
    exact hs.of_act hs.holds rfl rfl rfl (by simpa [CachePhase.request?] using hq) (by simp) (by simp)
  case inr.inr.inr.inr.inr.inl => -- a translation is made
    have hq : q ∈ asked := hs.phases i q (by simp [hp, CachePhase.request?])
    refine hs.of_act hs.holds rfl rfl rfl (by simpa [CachePhase.request?] using hq) ?_ (by simp)
    rintro _ _ ⟨⟩
    rfl
  case inr.inr.inr.inr.inr.inr => -- a translation is stored
    obtain rfl : text = f q.raw := hs.translations i q text hp
    have hq : q ∈ asked := hs.phases i q (by simp [hp, CachePhase.request?])
    refine hs.of_act (hs.holds.store hq) rfl rfl rfl (by simp [CachePhase.request?]) (by simp) ?_
    rintro a ⟨⟩
    rfl

theorem Exact.run {asked : List CacheRequest} (hs : Exact f asked s)
    (hinj : ∀ p ∈ asked, ∀ q ∈ asked, Digest.ofText p.raw = Digest.ofText q.raw → p.raw = q.raw)
    {es : List (ι × CacheAction)} (hasked : ∀ q ∈ SharedCache.requests es, q ∈ asked)
    (h : run f s es = some s') : Exact f asked s' := by
  induction es generalizing s with
  | nil =>
    obtain rfl : s = s' := Option.some.inj h
    exact hs
  | cons e es ih =>
    obtain ⟨s₁, hstep, hrun⟩ := run_cons_eq_some.1 h
    refine ih (hs.step hinj (fun q hq => hasked q ?_) hstep) (fun q hq => hasked q ?_) hrun
    · exact List.mem_filterMap.2 ⟨e, by simp, hq⟩
    · obtain ⟨e', he', hq⟩ := List.mem_filterMap.1 hq
      exact List.mem_filterMap.2 ⟨e', List.mem_cons_of_mem e he', hq⟩

/-- In every run from an empty cache in which no two texts that are asked for have one digest:

* the requests of each thread are answered in turn, the last one excepted if it is still under way, a call
  that took three steps since is answered, and one under way can go on;
* every answer is the translation of the text of its own request;
* the requests are the answers given, the hits and the misses those of either kind, and the entries are
  counted;
* every entry is a translation of a text with the digest of the entry, and no path has two. -/
theorem run_transparent {es : List (ι × CacheAction)} (h : run f {} es = some s)
    (hinj : ∀ p ∈ requests es, ∀ q ∈ requests es,
      Digest.ofText p.raw = Digest.ofText q.raw → p.raw = q.raw) :
    (∀ i, requests (es.filter fun e => e.1 = i) = s.calls i) ∧
    (∀ before after i q, es = before ++ (i, .ask q) :: after → 3 ≤ after.countP (fun e => e.1 = i) →
      ∃ answer, (i, answer) ∈ s.answers ∧ answer.request = q) ∧
    (∀ i q, (s.phase i).request? = some q → ∃ a, (s.step f (i, a)).isSome) ∧
    (∀ a ∈ s.answers, a.2.text = f a.2.request.raw) ∧
    s.cache.stats.requests = s.cache.stats.hits + s.cache.stats.misses ∧
    s.cache.stats.requests = s.answers.length ∧
    s.cache.stats.hits = s.answers.countP (fun a => a.2.hit) ∧
    s.cache.stats.entries = s.cache.entries.length ∧
    (s.cache.entries.map Prod.fst).Nodup ∧
    ∀ e ∈ s.cache.entries, ∃ q ∈ requests es,
      e = (Path.steps q.path, ⟨q.modified, Digest.ofText q.raw, f q.raw⟩) := by
  have hs : Exact f (requests es) s := (Exact.start f _).run hinj (fun _ hq => hq) h
  refine ⟨fun i => ?_, fun before after i q hes hown => ?_, fun i q hq => ?_, hs.answers, ?_, hs.requests,
    hs.hits, hs.holds.size, hs.holds.keys, hs.holds.entries⟩
  · simpa [calls, CachePhase.request?] using (calls_run h i).symm
  · subst hes
    obtain ⟨s₁, -, hrest⟩ := run_append_eq_some.1 h
    obtain ⟨s₂, hask, hafter⟩ := run_cons_eq_some.1 hrest
    obtain ⟨r, hact, -, hphase, -⟩ := step_eq_some hask
    obtain ⟨_, -, ⟨⟩, rfl⟩ | ⟨_, -, ⟨⟩, -⟩ | ⟨-, ⟨⟩, -⟩ | ⟨_, _, _, -, ⟨⟩, -⟩ | ⟨_, -, ⟨⟩, -⟩ |
      ⟨_, -, ⟨⟩, -⟩ | ⟨_, _, -, ⟨⟩, -⟩ := act_cases hact
    exact answered_run hafter (by simp [hphase, CachePhase.request?])
      (by simpa [hphase, CachePhase.left] using hown)
  · obtain ⟨a, ha⟩ := exists_act hq f s.cache
    exact ⟨a, by simpa [step] using ha⟩
  · rw [hs.requests, hs.hits, hs.misses]
    simpa using List.length_eq_countP_add_countP (fun a : ι × CacheAnswer => a.2.hit) (l := s.answers)

/-- Two threads miss on one path at a time and store in the other order, so that the later call of the one
that stored first hits on what the other stored; a fourth call is under way when the cache is cleared. -/
def race : List (Bool × CacheAction) :=
  let a : CacheRequest := ⟨"p/t".toList, 1, ['a']⟩
  let b : CacheRequest := ⟨"p//t".toList, 1, ['b']⟩
  [(false, .ask a), (true, .ask b), (false, .find), (true, .find), (false, .translate), (true, .translate),
    (true, .keep), (false, .keep), (true, .ask a), (true, .find), (false, .ask b), (false, .find),
    (true, .clear)]

theorem run_transparent_race :
    ∃ s, run (fun raw => raw ++ raw) {} race = some s ∧ s.cache.stats = ⟨3, 1, 2, 0⟩ ∧
      s.answers.map (fun a => a.2.text) = [['b', 'b'], ['a', 'a'], ['a', 'a']] ∧
      ∀ a ∈ s.answers, a.2.text = a.2.request.raw ++ a.2.request.raw := by
  have hrun : ((run (fun raw => raw ++ raw) {} race).map fun s =>
      (s.cache.stats, s.answers.map fun a => a.2.text)) =
        some (⟨3, 1, 2, 0⟩, [['b', 'b'], ['a', 'a'], ['a', 'a']]) := by decide +kernel
  obtain ⟨s, hs, heq⟩ := Option.map_eq_some_iff.1 hrun
  obtain ⟨hstats, htexts⟩ := Prod.mk.inj heq
  exact ⟨s, hs, hstats, htexts, (run_transparent hs (by decide +kernel)).2.2.2.1⟩

end SharedCache
end ViewBridge

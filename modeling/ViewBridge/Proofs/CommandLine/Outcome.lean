import ViewBridge.CommandLine
import ViewBridge.Proofs.CommandLine.Argument
import ViewBridge.Proofs.Lookup.Confinement
/-!
# What a run leaves behind

A command does all that can fail before anything is written, except for the writing itself. So a run that fails leaves
the files as they were, and one that succeeds changes one file at most: the one at the path that the output option
names, which holds the text that was asked for. That text is then nowhere else.

Results:
* `FileTree.write_isWritten`: after a text is written, its path leads to it, and nothing else has changed.
* `Invocation.perform_document_iff`: the commands whose product is a document, and the text it is.
* `runCommandLine_tree`: the exit code, the files and the output of every run.
-/
namespace ViewBridge

/-! ## Files -/

namespace FileTree

variable {t t' : FileTree} {start mid loc : Location} {xs : List Chars} {path text : Chars} {modified : Int} {f : File}

/-- Whether one tree is another with a text written at a path: the path leads to a file with that text, and no other
location has changed. -/
def IsWritten (before after : FileTree) (path text : Chars) : Prop :=
  after.read path = .ok text ∧
    ∃ loc f, after.locate path = .ok (loc, .file f) ∧ ∀ other ≠ loc, after.get? other = before.get? other

/-- The tree with a file at a location. -/
def putFile (t : FileTree) (loc : Location) (f : File) : FileTree := { t with files := Table.put t.files loc f }

theorem get?_putFile (t : FileTree) (loc other : Location) (f : File) :
    (t.putFile loc f).get? other = if other = loc then some (.file f) else t.get? other := by
  have hlookup : (t.putFile loc f).files.lookup other = if other = loc then some f else t.files.lookup other :=
    Table.lookup_put t.files loc other f
  rw [get?, hlookup]
  by_cases h : other = loc
  · rw [if_pos h, if_pos h]
  · rw [if_neg h, if_neg h]
    rfl

/-- The way to a directory stays open when a file is put where no directory is. -/
theorem walk_putFile (hloc : t.get? loc ≠ some .directory) (h : t.walk start xs = .ok (mid, .directory)) :
    (t.putFile loc f).walk start xs = .ok (mid, .directory) := by
  induction xs generalizing start with
  | nil => exact h
  | cons x xs ih =>
    rw [walk] at h ⊢
    split at h
    · rename_i hidle
      rw [if_pos hidle]
      exact ih h
    rename_i hidle
    rw [if_neg hidle]
    split at h
    · rename_i hup
      rw [if_pos hup]
      exact ih h
    rename_i hup
    rw [if_neg hup]
    split at h
    · cases h
    rename_i hname
    rw [if_neg hname]
    split at h
    · cases h
    · -- the way goes on through a directory, which is not where the file was put
      rename_i hdirectory
      have hother : start ++ [x] ≠ loc := fun heq => hloc (heq ▸ hdirectory)
      rw [get?_putFile, if_neg hother, hdirectory]
      exact ih h
    · split at h <;> cases h

/-- Where a path can be written: behind a directory, under a name, and not over a directory. -/
theorem target_eq_ok (h : t.target path = .ok loc) :
    ∃ init last mid, Path.segments path = init ++ [last] ∧ t.walk (t.startOf path) init = .ok (mid, .directory) ∧
      Path.IsPlain last ∧ isName last = true ∧ loc = mid ++ [last] ∧ t.get? loc ≠ some .directory := by
  have hsegments := List.dropLast_append_getLast (Path.segments_ne_nil path)
  have hlast : (Path.segments path).getLastD [] = (Path.segments path).getLast (Path.segments_ne_nil path) := by
    rw [List.getLastD_eq_getLast?, List.getLast?_eq_some_getLast (Path.segments_ne_nil path), Option.getD_some]
  unfold target at h
  split at h
  · cases h
  simp only [hlast] at h
  split at h
  · cases h
  · cases h
  rename_i mid hmid
  split at h
  · cases h
  rename_i hstep
  split at h
  · cases h
  rename_i hname
  split at h
  · cases h
  rename_i hdirectory
  obtain rfl := Except.ok.inj h
  refine ⟨_, _, mid, hsegments.symm, hmid, ?_, by simpa using hname, rfl, hdirectory⟩
  rw [not_or] at hstep
  refine ⟨fun heq => hstep.1 ?_, fun heq => hstep.1 ?_, hstep.2⟩ <;> rw [heq] <;> rfl

/-- A file that is put where a path can be written is the one the path leads to. -/
theorem locate_putFile (h : t.target path = .ok loc) : (t.putFile loc f).locate path = .ok (loc, .file f) := by
  obtain ⟨init, last, mid, hsegments, hmid, hplain, hname, rfl, hdirectory⟩ := target_eq_ok h
  have hne : path ≠ [] := by
    rintro rfl
    cases h
  have hstart : (t.putFile (mid ++ [last]) f).startOf path = t.startOf path := rfl
  rw [locate, if_neg hne, hsegments, walk_append _ _ _ (List.cons_ne_nil _ _), hstart, walk_putFile hdirectory hmid]
  have hidle : ¬ (last = [] ∨ last = ['.']) := not_or.2 ⟨hplain.1, hplain.2.1⟩
  simp [walk, hidle, hplain.2.2, hname, get?_putFile]

theorem write_isWritten (h : t.write path text modified = .ok t') : t.IsWritten t' path text := by
  cases htarget : t.target path with
  | error e =>
    rw [write, htarget] at h
    cases h
  | ok loc =>
    have hput : t.write path text modified = .ok (t.putFile loc ⟨some text, modified⟩) := by
      rw [write, htarget]
      rfl
    obtain rfl := Except.ok.inj (hput.symm.trans h)
    have hlocate := locate_putFile (f := ⟨some text, modified⟩) htarget
    refine ⟨?_, loc, _, hlocate, fun other hother => by rw [get?_putFile, if_neg hother]⟩
    rw [read, file, hlocate]

end FileTree

/-! ## Documents -/

namespace Invocation

variable {i : Invocation} {command : Command} {text notice : Chars}

/-- The texts that are asked for: the translation of a file, the source of a template unless only its path is asked
for, and a rendered template. -/
inductive Document (i : Invocation) : Command → Chars → Prop
  | translation {path source : Chars} {c : Config} {d : Dialect} (operand : Argument.operand? i.arguments = some path)
      (config : i.loadConfig = .ok c) (dialect : i.dialect c = .ok d) (read : i.read path = .ok source) :
      Document i .translate ((c.translatorTo d).translate source)
  | source {name : Chars} {c : Config} {d : Dialect} {found : ResolvedTemplate}
      (operand : Argument.operand? i.arguments = some name) (config : i.loadConfig = .ok c)
      (dialect : i.dialect c = .ok d) (resolve : ((Resolver.ofConfig i.tree c d).resolve i.tree {} name).1 = .ok found)
      (asked : "--path".toList ∉ i.arguments) : Document i .resolve found.source
  | page {name text : Chars} {c : Config} {e : Engine} {context : Value}
      (operand : Argument.operand? i.arguments = some name) (config : i.loadConfig = .ok c)
      (engine : Engine.ofConfig i.tree c = .ok e) (values : i.context = .ok context)
      (render : (e.render i.tree {} i.now name context).1 = .ok text) : Document i .render text

/-- Whether a command is asked for a document. -/
def AsksForDocument (i : Invocation) (command : Command) : Prop :=
  command = .translate ∨ (command = .resolve ∧ "--path".toList ∉ i.arguments) ∨ command = .render

theorem bind_eq_ok_iff {α β : Type} {x : Except Error α} {f : α → Except Error β} {b : β} :
    x >>= f = .ok b ↔ ∃ a, x = .ok a ∧ f a = .ok b := by
  cases x <;> simp [bind, Except.bind]

theorem operand_eq_ok_iff {usage : String} : i.operand usage = .ok text ↔ Argument.operand? i.arguments = some text := by
  unfold operand
  cases Argument.operand? i.arguments <;> simp

theorem translate_eq_ok {p : Product} (h : i.translate = .ok p) :
    ∃ notice text, i.Document .translate text ∧ p = .document notice text := by
  simp only [translate, bind_eq_ok_iff, operand_eq_ok_iff] at h
  obtain ⟨path, hpath, c, hc, d, hd, source, hsource, hp⟩ := h
  exact ⟨_, _, .translation hpath hc hd hsource, (Except.ok.inj hp).symm⟩

theorem render_eq_ok {p : Product} (h : i.render = .ok p) :
    ∃ notice text, i.Document .render text ∧ p = .document notice text := by
  simp only [render, bind_eq_ok_iff, operand_eq_ok_iff] at h
  obtain ⟨name, hname, c, hc, e, he, context, hcontext, text, htext, hp⟩ := h
  exact ⟨_, _, .page hname hc he hcontext htext, (Except.ok.inj hp).symm⟩

/-- The source of a template is a document, its path is not. -/
theorem resolve_eq_ok {p : Product} (h : i.resolve = .ok p) :
    ("--path".toList ∈ i.arguments ∧ ∃ text, p = .message text) ∨
      ∃ notice text, i.Document .resolve text ∧ p = .document notice text := by
  simp only [resolve, bind_eq_ok_iff, operand_eq_ok_iff] at h
  obtain ⟨name, hname, c, hc, d, hd, found, hfound, hp⟩ := h
  split at hp
  · rename_i hasked
    exact .inl ⟨List.contains_iff_mem.1 hasked, _, (Except.ok.inj hp).symm⟩
  · rename_i hasked
    exact .inr ⟨_, _, .source hname hc hd hfound fun hmem => hasked (List.contains_iff_mem.2 hmem),
      (Except.ok.inj hp).symm⟩

/-- The other commands have messages. -/
theorem message_of_perform {p : Product} (hcommand : command ∉ [.translate, .resolve, .render])
    (h : i.perform command = .ok p) : ∃ text, p = .message text := by
  cases command with
  | translate | resolve | render => simp at hcommand
  | check =>
    simp only [perform, check, bind_eq_ok_iff] at h
    obtain ⟨path, -, source, -, -, -, hp⟩ := h
    exact ⟨_, (Except.ok.inj hp).symm⟩
  | searchPath =>
    simp only [perform, searchPath, bind_eq_ok_iff] at h
    obtain ⟨c, -, hp⟩ := h
    exact ⟨_, (Except.ok.inj hp).symm⟩
  | config =>
    simp only [perform, checkConfig, bind_eq_ok_iff] at h
    obtain ⟨c, -, -, -, hp⟩ := h
    exact ⟨_, (Except.ok.inj hp).symm⟩
  | schema | version | help => exact ⟨_, (Except.ok.inj h).symm⟩

/-- A command that succeeds has the document it is asked for, or else a message. -/
theorem perform_eq_ok {p : Product} (h : i.perform command = .ok p) :
    (¬ i.AsksForDocument command ∧ ∃ text, p = .message text) ∨
      ∃ notice text, i.Document command text ∧ p = .document notice text := by
  by_cases hcommand : command ∈ [.translate, .resolve, .render]
  · simp only [List.mem_cons, List.not_mem_nil, or_false] at hcommand
    rcases hcommand with rfl | rfl | rfl
    · exact .inr (translate_eq_ok h)
    · rcases resolve_eq_ok h with ⟨hpath, hp⟩ | hp
      · refine .inl ⟨?_, hp⟩
        rintro (hother | ⟨-, hasked⟩ | hother)
        · cases hother
        · exact hasked hpath
        · cases hother
      · exact .inr hp
    · exact .inr (render_eq_ok h)
  · refine .inl ⟨?_, message_of_perform hcommand h⟩
    rintro (rfl | ⟨rfl, -⟩ | rfl) <;> simp at hcommand

/-- The document that is asked for is the product of the command. -/
theorem Document.perform (h : i.Document command text) : ∃ notice, i.perform command = .ok (.document notice text) := by
  cases h with
  | translation operand config dialect read =>
    refine ⟨[], ?_⟩
    simp only [Invocation.perform, translate, bind_eq_ok_iff, operand_eq_ok_iff]
    exact ⟨_, operand, _, config, _, dialect, _, read, rfl⟩
  | @source _ _ _ found operand config dialect resolve asked =>
    have hasked : ¬ Argument.hasSwitch "--path".toList i.arguments = true := fun h => asked (List.contains_iff_mem.1 h)
    refine ⟨foundNotice found, ?_⟩
    simp only [Invocation.perform, Invocation.resolve, bind_eq_ok_iff, operand_eq_ok_iff]
    exact ⟨_, operand, _, config, _, dialect, _, resolve, if_neg hasked⟩
  | page operand config engine values render =>
    refine ⟨[], ?_⟩
    simp only [Invocation.perform, Invocation.render, bind_eq_ok_iff, operand_eq_ok_iff]
    exact ⟨_, operand, _, config, _, engine, _, values, _, render, rfl⟩

end Invocation

/-! ## Runs -/

/-- No two commands have a name in common. -/
theorem Command.ofName?_eq_some_iff {name : Chars} {command : Command} :
    Command.ofName? name = some command ↔ name ∈ command.names := by
  have hall : ∀ c : Command, c ∈ all := by
    intro c
    cases c <;> decide
  have hdistinct : ∀ c ∈ all, ∀ c' ∈ all, ∀ n ∈ c.names, n ∈ c'.names → c = c' := by decide
  have hnames {c : Command} (hc : Command.ofName? name = some c) : name ∈ c.names := by
    have hfound := List.find?_some hc
    exact List.contains_iff_mem.1 hfound
  refine ⟨hnames, fun hname => ?_⟩
  cases hfound : Command.ofName? name with
  | none => exact absurd (List.contains_iff_mem.2 hname) (List.find?_eq_none.1 hfound command (hall command))
  | some other => rw [hdistinct _ (hall other) _ (hall command) name (hnames hfound) hname]

/-- The path that the output option names: the argument behind the first of its spellings. -/
def OutputPath (arguments : List Chars) (path : Chars) : Prop :=
  ∃ k flag, Argument.IsFirst CommandOption.output.flags.contains arguments k flag ∧ arguments[k + 1]? = some path

namespace Report

variable {i : Invocation} {notice text : Chars}

/-- What a run has done that showed a document: the text is in the file that the output option names, no other file has
changed, and nothing is printed; without the option the text is printed, and no file has changed. -/
structure Shows (r : Report) (i : Invocation) (text : Chars) : Prop where
  inFile : ∀ path, OutputPath i.arguments path → i.tree.IsWritten r.tree path text ∧ r.output = []
  onOutput : (∀ path, ¬ OutputPath i.arguments path) → r.tree = i.tree ∧ r.output = withLineBreak text

/-- A document is shown, or the path of the output cannot be written. -/
theorem deliver_cases (i : Invocation) (notice text : Chars) :
    ((deliver i notice text).code = 0 ∧ (deliver i notice text).Shows i text) ∨
      ((deliver i notice text).code = 1 ∧ (deliver i notice text).tree = i.tree ∧
        ∃ path, OutputPath i.arguments path ∧ ∀ loc, i.tree.target path ≠ .ok loc) := by
  have hvalue (path : Chars) : i.value? .output = some path ↔ OutputPath i.arguments path :=
    Argument.value?_eq_some_iff
  unfold deliver
  split
  · rename_i hnone
    refine .inl ⟨rfl, fun path hpath => ?_, fun _ => ⟨rfl, rfl⟩⟩
    rw [(hvalue path).2 hpath] at hnone
    cases hnone
  · rename_i path hpath
    split
    · rename_i tree hwrite
      refine .inl ⟨rfl, fun other hother => ?_, fun hnone => absurd ((hvalue path).1 hpath) (hnone path)⟩
      obtain rfl : path = other := Option.some.inj (hpath.symm.trans ((hvalue other).2 hother))
      exact ⟨FileTree.write_isWritten hwrite, rfl⟩
    · rename_i cause hwrite
      refine .inr ⟨rfl, rfl, path, (hvalue path).1 hpath, fun loc hloc => ?_⟩
      rw [FileTree.write, hloc] at hwrite
      cases hwrite

/-- What a command leaves behind. -/
theorem ofProduct_cases (i : Invocation) (command : Command) :
    ((ofProduct i (i.perform command)).code = 1 ∧ (ofProduct i (i.perform command)).tree = i.tree) ∨
      ((ofProduct i (i.perform command)).code = 0 ∧
        ((¬ i.AsksForDocument command ∧ (ofProduct i (i.perform command)).tree = i.tree) ∨
          ∃ text, i.Document command text ∧ (ofProduct i (i.perform command)).Shows i text)) := by
  cases h : i.perform command with
  | error e => exact .inl ⟨rfl, rfl⟩
  | ok p =>
    rcases Invocation.perform_eq_ok h with ⟨hasks, text, rfl⟩ | ⟨notice, text, hdocument, rfl⟩
    · exact .inr ⟨rfl, .inl ⟨hasks, rfl⟩⟩
    · rcases deliver_cases i notice text with ⟨hcode, hshows⟩ | ⟨hcode, htree, -⟩
      · exact .inr ⟨hcode, .inr ⟨text, hdocument, hshows⟩⟩
      · exact .inl ⟨hcode, htree⟩

/-- A document that can be shown is shown. -/
theorem shows_of_document {command : Command} (h : i.Document command text)
    (hpath : ∀ path, OutputPath i.arguments path → ∃ loc, i.tree.target path = .ok loc) :
    (ofProduct i (i.perform command)).code = 0 ∧ (ofProduct i (i.perform command)).Shows i text := by
  obtain ⟨notice, hperform⟩ := h.perform
  rw [hperform]
  rcases deliver_cases i notice text with hshown | ⟨-, -, path, hpath', hrefused⟩
  · exact hshown
  · obtain ⟨loc, hloc⟩ := hpath path hpath'
    exact absurd hloc (hrefused loc)

end Report

theorem runCommandLine_of_mem_names {name : Chars} {rest : List Chars} {command : Command} (h : name ∈ command.names)
    (input : Option Chars) (tree : FileTree) (now : Instant) :
    runCommandLine (name :: rest) input tree now =
      Report.ofProduct ⟨rest, input, tree, now⟩ (Invocation.perform ⟨rest, input, tree, now⟩ command) := by
  simp only [runCommandLine, Command.ofName?_eq_some_iff.2 h]

/-- A run ends with code 1 and leaves the files as they were, or with code 0. In that case its command is asked for no
document and leaves the files as they were as well, or it shows the one it is asked for. And a document that is asked
for, all of whose steps succeed, is shown if the file for it can be written. -/
theorem runCommandLine_tree (arguments : List Chars) (input : Option Chars) (tree : FileTree) (now : Instant) :
    let r := runCommandLine arguments input tree now
    ((r.code = 1 ∧ r.tree = tree) ∨
      (r.code = 0 ∧ ∃ name rest command, arguments = name :: rest ∧ name ∈ command.names ∧
        let i : Invocation := ⟨rest, input, tree, now⟩
        ((¬ i.AsksForDocument command ∧ r.tree = tree) ∨ ∃ text, i.Document command text ∧ r.Shows i text))) ∧
    ∀ name rest command text, arguments = name :: rest → name ∈ command.names →
      let i : Invocation := ⟨rest, input, tree, now⟩
      i.Document command text → (∀ path, OutputPath rest path → ∃ loc, tree.target path = .ok loc) →
        r.code = 0 ∧ r.Shows i text := by
  intro r
  constructor
  · cases arguments with
    | nil => exact .inl ⟨rfl, rfl⟩
    | cons name rest =>
      cases hname : Command.ofName? name with
      | none =>
        have hr : r = Report.ofUnknown name ⟨rest, input, tree, now⟩ := by
          simp only [r, runCommandLine, hname]
        rw [hr]
        exact .inl ⟨rfl, rfl⟩
      | some command =>
        have hmem := Command.ofName?_eq_some_iff.1 hname
        have hr : r = _ := runCommandLine_of_mem_names hmem input tree now
        rw [hr]
        rcases Report.ofProduct_cases ⟨rest, input, tree, now⟩ command with hfailed | ⟨hcode, hends⟩
        · exact .inl hfailed
        · exact .inr ⟨hcode, name, rest, command, rfl, hmem, hends⟩
  · rintro name rest command text rfl hmem i hdocument hpath
    have hr : r = _ := runCommandLine_of_mem_names hmem input tree now
    rw [hr]
    exact Report.shows_of_document hdocument hpath

/-- A translation that is written beside its source. -/
theorem runCommandLine_tree_translate :
    let tree := (FileTree.empty ["w".toList]).addFile ["w".toList, "a.html".toList] ⟨some "\x7b$x\x7d".toList, 3⟩
    let rest := ["a.html".toList, "-o".toList, "b.html".toList]
    let i : Invocation := ⟨rest, some [], tree, ⟨1000, 0⟩⟩
    let r := runCommandLine ("translate".toList :: rest) (some []) tree ⟨1000, 0⟩
    "translate".toList ∈ Command.translate.names ∧ i.Document .translate "\x7b\x7b x|raw \x7d\x7d".toList ∧
      (∀ path, OutputPath rest path → ∃ loc, tree.target path = .ok loc) ∧ OutputPath rest "b.html".toList ∧
      r.code = 0 ∧ tree.IsWritten r.tree "b.html".toList "\x7b\x7b x|raw \x7d\x7d".toList ∧ r.output = [] := by
  intro tree rest i r
  have hname : "translate".toList ∈ Command.translate.names := by decide
  have hmissing : ¬ tree.exists? (Path.join tree.cwdPath Config.fileName) = true := by decide +kernel
  have hconfig : i.loadConfig = .ok (Config.rebase {} "/w".toList) := by
    change Config.discover tree tree.cwdPath = _
    rw [Config.discover, if_neg hmissing]
    rfl
  have hdocument : i.Document .translate "\x7b\x7b x|raw \x7d\x7d".toList := by
    have htext : ((Config.rebase {} "/w".toList).translatorTo .twig).translate "\x7b$x\x7d".toList =
        "\x7b\x7b x|raw \x7d\x7d".toList := by decide +kernel
    have hoperand : Argument.operand? i.arguments = some "a.html".toList := by decide
    have hread : i.read "a.html".toList = .ok "\x7b$x\x7d".toList := by decide +kernel
    exact htext ▸ .translation hoperand hconfig rfl hread
  have hvalue : Argument.value? .output rest = some "b.html".toList := by decide
  have houtput := Argument.value?_eq_some_iff.1 hvalue
  have htarget : ∀ path, OutputPath rest path → ∃ loc, tree.target path = .ok loc := by
    intro path hpath
    obtain rfl := Option.some.inj (hvalue.symm.trans (Argument.value?_eq_some_iff.2 hpath))
    exact ⟨["w".toList, "b.html".toList], by decide +kernel⟩
  obtain ⟨hcode, hshows⟩ := (runCommandLine_tree _ (some []) tree ⟨1000, 0⟩).2 _ rest .translate _ rfl hname hdocument htarget
  exact ⟨hname, hdocument, htarget, houtput, hcode, hshows.inFile _ houtput⟩

end ViewBridge

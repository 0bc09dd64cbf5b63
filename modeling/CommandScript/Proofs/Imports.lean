import CommandScript.Proofs.Cutting
import CommandScript.Proofs.Failure
import CommandScript.Proofs.Sequencing

/-! Imports by a relative name. The name is looked up next to the file of the statement, however
many imports led to that file: the directory of the file is the directory of what it imports. Only a
file whose own name has no directory part is served badly, since the slash that is put behind an
empty directory makes the name one from the top of the file system. After an import without a tilde
every name has a slash, so no such file is met but at the start. -/
namespace CommandScript

/-! ### Names and directories -/

namespace Path

def start : Text → Path
  | '/' :: _ => top
  | _ => []

def parts : Text → List Text
  | '/' :: rest => rest.splitOn '/'
  | name => name.splitOn '/'

private theorem start_cons (c : Char) (rest : Text) :
    start (c :: rest) = if c = '/' then top else [] := by
  by_cases slash : c = '/'
  · simp [start, slash]
  · simp [start, slash]

private theorem parts_cons (c : Char) (rest : Text) :
    parts (c :: rest) = if c = '/' then rest.splitOn '/' else (c :: rest).splitOn '/' := by
  by_cases slash : c = '/'
  · simp [parts, slash]
  · simp [parts, slash]

private theorem start_append_slash (directory first second : Text) :
    start (directory ++ '/' :: first) = start (directory ++ '/' :: second) := by
  cases directory with
  | nil => simp [start_cons]
  | cons c rest => simp [start_cons]

/-- The parts up to a slash do not depend on what is behind it. -/
theorem parts_append_slash (directory rest : Text) :
    parts (directory ++ '/' :: rest) = (if directory = [] then [] else parts directory) ++
    rest.splitOn '/' := by
  cases directory with
  | nil => simp [parts_cons]
  | cons c front =>
    have cut := Text.splitOn_append '/' front rest
    have whole := Text.splitOn_append '/' (c :: front) rest
    by_cases slash : c = '/'
    · simp [parts_cons, slash, cut]
    · simp only [List.cons_append] at whole
      simp [parts_cons, slash, whole]

private theorem parts_whole {name : Text} (whole : '/' ∉ name) : parts name = [name] := by
  cases name with
  | nil => rfl
  | cons c rest =>
    have other : c ≠ '/' := fun same => whole (by simp [same])
    rw [parts_cons, if_neg other]
    exact List.splitOn_eq_singleton whole

end Path

namespace FileTree

variable (t : FileTree)

def directory (name : Text) : Except Fault Path :=
  t.follow (Path.start name) (Path.parts name).dropLast

private theorem follow_append (here : Path) (first second : List Text) :
    t.follow here (first ++ second) =
      (t.follow here first >>= fun there => t.follow there second) := by
  induction first generalizing here with
  | nil => rfl
  | cons part rest ih =>
    rw [List.cons_append, follow, follow]
    cases t.entry here with
    | absent => rfl
    | file => rfl
    | directory =>
      simp only [ih]
      split
      · rfl
      · split
        · split
          · rfl
          · rfl
        · rfl

private theorem locate_eq {name : Text} (clean : Char.ofNat 0 ∉ name) (some : name ≠ []) :
    t.locate name = t.follow (Path.start name) (Path.parts name) := by
  cases name with
  | nil => exact absurd rfl some
  | cons c rest =>
    by_cases slash : c = '/'
    · subst slash
      simp [locate, clean, Path.start_cons, Path.parts_cons]
    · simp [locate, clean, slash, Path.start_cons, Path.parts_cons]

private theorem directory_append_slash (d : Text) {last : Text} (whole : '/' ∉ last) :
    t.directory (d ++ '/' :: last) = t.follow (Path.start (d ++ ['/']))
      (if d = [] then [] else Path.parts d) := by
  rw [directory, Path.parts_append_slash, List.splitOn_eq_singleton whole, List.dropLast_concat,
    Path.start_append_slash d last []]

/-- Names that differ after the last slash of one of them lead on from the same directory. -/
theorem locate_beside {d last rest : Text} (whole : '/' ∉ last) (clean : Char.ofNat 0 ∉ d)
    (pure : Char.ofNat 0 ∉ rest) :
    t.locate (d ++ '/' :: rest) =
      (t.directory (d ++ '/' :: last) >>= fun there => t.follow there (rest.splitOn '/')) := by
  have unmarked : Char.ofNat 0 ∉ d ++ '/' :: rest := by
    simp only [List.mem_append, List.mem_cons, not_or]
    exact ⟨clean, by decide, pure⟩
  rw [locate_eq t unmarked (by simp), Path.parts_append_slash, follow_append,
    directory_append_slash t d whole, Path.start_append_slash d rest []]

end FileTree

private theorem Text.eq_append_slash {text : Text} (member : '/' ∈ text) :
    ∃ d last, text = d ++ '/' :: last ∧ '/' ∉ last := by
  obtain ⟨front, back, cut, whole⟩ := List.eq_append_cons_of_mem (List.mem_reverse.mpr member)
  refine ⟨back.reverse, front.reverse, ?_, by simpa using whole⟩
  simpa using congrArg List.reverse cut

/-- A name is found in its directory, under what is behind its last slash. -/
theorem FileTree.locate_in_directory (t : FileTree) {name : Text} (clean : Char.ofNat 0 ∉ name)
    (some : name ≠ []) :
    ∃ last, last <:+ name ∧ '/' ∉ last ∧
    t.locate name = (t.directory name >>= fun there => t.follow there [last]) := by
  by_cases slash : '/' ∈ name
  · obtain ⟨d, last, rfl, whole⟩ := Text.eq_append_slash slash
    simp only [List.mem_append, List.mem_cons, not_or] at clean
    refine ⟨last, ⟨d ++ ['/'], by simp⟩, whole, ?_⟩
    rw [locate_beside t whole clean.1 clean.2.2, List.splitOn_eq_singleton whole]
  · refine ⟨name, List.suffix_refl name, slash, ?_⟩
    rw [locate_eq t clean some, directory, Path.parts_whole slash]
    rfl

namespace Import

def IsRelative (name : Text) : Prop := ∃ c rest, name = c :: rest ∧ c ≠ '~' ∧ c ≠ '/'

private theorem directoryOf_append_slash (d : Text) {last : Text} (whole : '/' ∉ last) :
    directoryOf '/' (d ++ '/' :: last) = d := by
  rw [directoryOf, Text.splitOn_append, List.splitOn_eq_singleton whole, List.dropLast_concat]
  exact List.intercalate_splitOn '/'

private theorem directoryOf_whole {file : Text} (whole : '/' ∉ file) :
    directoryOf '/' file = [] := by
  rw [directoryOf, List.splitOn_eq_singleton whole]
  rfl

variable {host : Host} (posix : host.platform = .posix) (files : FileTree) (importer : Text)
  {name path : Text}
include posix

private theorem resolve_relative (relative : IsRelative name) :
    resolve host files importer name =
      .ok (directoryOf '/' importer ++ '/' :: (name ++ ".aln".toList)) := by
  obtain ⟨c, rest, rfl, noTilde, noSlash⟩ := relative
  simp [resolve, posix, Platform.separator, noSlash]

example : resolve {} {} "d/main.aln".toList ['m'] = .ok "d/m.aln".toList ∧ resolve {}
    {} "main.aln".toList ['m'] = .ok "/m.aln".toList := by
  decide

/-- Without a tilde an import always means a name with a slash. -/
theorem slash_mem_resolve (meant : resolve host files importer name = .ok path)
    (noTilde : name.head? ≠ some '~') : '/' ∈ path := by
  cases name with
  | nil => cases meant
  | cons c rest =>
    have other : c ≠ '~' := by simpa using noTilde
    by_cases slash : c = '/'
    · simp [resolve, posix, Platform.separator, slash] at meant
      simp [← meant]
    · have relative := resolve_relative posix files importer ⟨c, rest, rfl, other, slash⟩
      rw [relative, Except.ok.injEq] at meant
      simp [← meant]

omit posix in
/-- A relative name is looked up in the directory of the importing file, if the name of that file
has a slash, and from the top of the file system, if not. -/
theorem locate_relative (clean : Char.ofNat 0 ∉ importer) (pure : Char.ofNat 0 ∉ name) :
    files.locate (directoryOf '/' importer ++ '/' :: name) =
      ((if '/' ∈ importer then files.directory importer else .ok Path.top) >>= fun there =>
        files.follow there (name.splitOn '/')) := by
  by_cases slash : '/' ∈ importer
  · obtain ⟨d, last, rfl, whole⟩ := Text.eq_append_slash slash
    rw [if_pos slash, directoryOf_append_slash d whole]
    simp only [List.mem_append, not_or] at clean
    exact files.locate_beside whole clean.1 pure
  · rw [if_neg slash, directoryOf_whole slash, List.nil_append]
    have unmarked : Char.ofNat 0 ∉ '/' :: name := by
      simp only [List.mem_cons, not_or]
      exact ⟨by decide, pure⟩
    rw [files.locate_eq unmarked (by simp)]
    rfl

end Import

/-! ### Files that import one another -/

private theorem Comes.file_eq {rounds n : Nat} {file : Text} {r : Ref .node} {w v : World}
    {s : Site} (comes : Comes rounds file n r w s v) : s.file = file := by
  induction comes with
  | here => rfl
  | inside _ _ _ ih => exact ih

/-- A statement finds the file that it imports and has its program ready to run, where names have
slashes. -/
structure Site.Imports (s : Site) (w : World) (name path : Text) (program : Ref .node)
    (v : World) : Prop where
  posix : w.host.platform = .posix
  verb : s.command.verb? = some .importFile
  word : s.command.whole[1]? = some name
  meant : Import.resolve w.host w.files s.file name = .ok path
  loaded : ∃ source, w.files.read path = .ok source ∧
    (Program.load s.ev.slack s.scope false source).exec w = (.ok program, v)

namespace Program

/-- A program comes to a statement of its own file or of a file that is imported from there,
directly or by way of other files. The names are those of the imports on the way. -/
inductive Arrives (limits : Limits) (scope : Ref .scope) (interactive : Bool) (file source : Text)
    (w : World) : List Text → Site → World → Prop where
  | start {s : Site} {v : World} (comes : ComesTo limits scope interactive file source w s v) :
      Arrives limits scope interactive file source w [] s v
  | next {names : List Text} {s q : Site} {v u x : World} {name path : Text}
      {program : Ref .node} {n : Nat}
      (arrived : Arrives limits scope interactive file source w names s v)
      (imports : s.Imports v name path program u)
      (level : s.ev = .ofRoom limits.rounds n) (comes : Comes limits.rounds path n program u q x) :
      Arrives limits scope interactive file source w (names ++ [name]) q x

variable {limits : Limits} {scope : Ref .scope} {interactive : Bool} {file source : Text}
  {w v : World} {names : List Text} {s : Site}

/-- A file is the first one, or it was opened under a name that has a slash, or a tilde was before
it. -/
theorem Arrives.file_cases (arrived : Arrives limits scope interactive file source w names s v) :
    (names = [] → s.file = file) ∧ ∀ name, names.getLast? = some name → name.head? ≠ some '~' →
      '/' ∈ s.file := by
  cases arrived with
  | start comes =>
    obtain ⟨program, loaded, q, u, _, _, comes⟩ := comes
    refine ⟨fun _ => comes.file_eq, ?_⟩
    intro name last
    cases last
  | next arrived imports level comes =>
    refine ⟨fun none => absurd none (by simp), ?_⟩
    intro name last noTilde
    rw [List.getLast?_concat, Option.some.injEq] at last
    subst last
    rw [comes.file_eq]
    exact Import.slash_mem_resolve imports.posix _ _ imports.meant noTilde

end Program

def Import.opening (ev : Evaluator) (scope : Ref .scope) (path : Text) : Run Outcome := do
  let text ← Run.readFile path
  let program ← Program.load ev.slack scope false text
  let _ ← ev.run program path
  return .done

theorem Site.exec_importFile {s : Site} {v : World} {name path : Text}
    (verb : s.command.verb? = some .importFile) (word : s.command.whole[1]? = some name)
    (meant : Import.resolve v.host v.files s.file name = .ok path) :
    s.act.exec v = (Import.opening s.ev s.scope path).exec v := by
  have named : (s.word 1).exec v = (.ok name, v) := by simp [Site.word, Run.nth, word]
  have resolved : (Run.ofExcept (Import.resolve v.host v.files s.file name)).exec v =
      (.ok path, v) := by
    rw [meant]
    rfl
  rw [act, verb]
  change s.importFile.exec v = _
  rw [importFile, Run.exec_bind_ok v named, Run.exec_bind_ok v (Run.exec_get v),
    Run.exec_bind_ok v resolved]
  rfl

/-- A statement imports a relative name in a file, which its program came to over any number of
imports. It opens the name with its ending in the directory in which the file of the statement
stands itself, if the name of that file has a slash, and at the top of the file system, if it has
none; the program that is read there runs as that of the opened file. Only the file that the program
was started from and one that is imported by a tilde can have a name without a slash. -/
theorem relative_import_opens_beside_file {limits : Limits} {scope : Ref .scope}
    {interactive : Bool} {file source : Text} {w v : World} {names : List Text} {s : Site}
    {name : Text} (arrived : Program.Arrives limits scope interactive file source w names s v)
    (posix : v.host.platform = .posix) (verb : s.command.verb? = some .importFile)
    (word : s.command.whole[1]? = some name) (relative : Import.IsRelative name) :
    ∃ path,
      s.act.exec v = (Import.opening s.ev s.scope path).exec v ∧
      (∀ d last, s.file = d ++ '/' :: last → '/' ∉ last →
        path = d ++ '/' :: (name ++ ".aln".toList)) ∧
      ('/' ∉ s.file → path = '/' :: (name ++ ".aln".toList)) ∧
      (Char.ofNat 0 ∉ s.file → s.file ≠ [] → ∃ last, last <:+ s.file ∧ '/' ∉ last ∧
        v.files.locate s.file = (v.files.directory s.file >>= fun there =>
          v.files.follow there [last])) ∧
      (Char.ofNat 0 ∉ s.file → Char.ofNat 0 ∉ name → v.files.locate path =
        ((if '/' ∈ s.file then v.files.directory s.file else .ok Path.top) >>= fun there =>
          v.files.follow there ((name ++ ".aln".toList).splitOn '/'))) ∧
      (names = [] → s.file = file) ∧
      ∀ last, names.getLast? = some last → last.head? ≠ some '~' → '/' ∈ s.file := by
  refine ⟨_, Site.exec_importFile verb word (Import.resolve_relative posix v.files s.file relative),
    ?_, ?_, ?_, ?_, arrived.file_cases⟩
  · intro d last known whole
    rw [known, Import.directoryOf_append_slash d whole]
  · intro whole
    rw [Import.directoryOf_whole whole, List.nil_append]
  · exact v.files.locate_in_directory
  · intro clean pure
    apply Import.locate_relative v.files s.file clean
    rw [List.mem_append, not_or]
    exact ⟨pure, by decide⟩

/-- An empty statement leads to the statements in it. -/
theorem Site.enters_empty {s : Site} (command : s.command = .of []) {w : World}
    (quiet : (w.store.node s.node).interactive = false)
    (unnamed : w.store.isVisible s.scope [] = false) : s.Enters w w := by
  have verb : s.command.verb? = none := by
    rw [command]
    decide
  have first : s.command.whole[0]? = some [] := by
    rw [command]
    rfl
  unfold Enters
  rw [verb]
  exact ⟨rfl, quiet, [], first, unnamed⟩

namespace Program

private theorem exec_load {limit : Nat} {scope : Ref .scope} {interactive : Bool} {source : Text}
    {trees : List Tree} {w : World} (fits : isTooDeep limit (Layout.flatten source) = false)
    (parsed : (Tree.parse (Layout.flatten source)).1 = trees) :
    (load limit scope interactive source).exec w =
      (.ok (w.store.plantProgram scope interactive trees).1,
        { w with store := (w.store.plantProgram scope interactive trees).2 }) := by
  rw [load, Run.exec_bind_ok w
    ((exec_loadFlat scope interactive w limit _).trans (if_neg (Bool.eq_false_iff.mp fits))),
    parsed]
  rfl

def importing (letter : Char) : Text := "import ".toList ++ [letter, ';']

private theorem exec_load_importing (limit : Nat) (w : World) {letter : Char}
    (known : letter = 'm' ∨ letter = 'n') :
    (load (limit + 1) ⟨0⟩ false (importing letter)).exec w =
      (.ok (w.store.plantProgram ⟨0⟩ false [.leaf ("import ".toList ++ [letter]) 0, .leaf [] 1]).1,
        { w with store := (w.store.plantProgram ⟨0⟩ false [.leaf ("import ".toList ++ [letter]) 0,
          .leaf [] 1]).2 }) := by
  have parsed : Tree.parse (Layout.flatten (importing letter)) =
      ([.leaf ("import ".toList ++ [letter]) 0, .leaf [] 1], 1) := by
    rcases known with rfl | rfl
    · rfl
    · rfl
  have cut : (Layout.flatten (importing letter)).splitOn ';' =
      ["import ".toList ++ [letter], []] := by
    rcases known with rfl | rfl
    · rfl
    · rfl
  apply exec_load
  · rw [isTooDeep_eq, parsed, cut]
    simp [Tree.depthAll, Tree.depth, Spelled.leadingSpaces, Spells.spells]
  · rw [parsed]

end Program

def World.shelf : World where
  store := (Store.newScope {} none).2
  files :=
    { files := [(["d".toList, "m.aln".toList], Program.importing 'n'),
      (["d".toList, "n.aln".toList], "print 'n';".toList)] }

theorem relative_import_opens_beside_file_chain :
    ∃ s v path, Program.Arrives ⟨6, 0⟩ ⟨0⟩ false "d/main".toList (Program.importing 'm') .shelf
      [['m']] s v ∧
      s.file = "d/m.aln".toList ∧ path = "d/n.aln".toList ∧
      v.files.locate path = .ok ["d".toList, "n.aln".toList] ∧
      s.act.exec v = (Import.opening s.ev s.scope path).exec v := by
  let ready : World := { World.shelf with
    store := (World.shelf.store.plantProgram ⟨0⟩ false [.leaf "import m".toList 0, .leaf [] 1]).2 }
  let opened : World := { ready with
    store := (ready.store.plantProgram ⟨0⟩ false [.leaf "import n".toList 0, .leaf [] 1]).2 }
  let first := Site.ofNode (.ofRoom 0 5) ready.store ⟨0⟩ "d/main".toList
  let second := Site.ofNode (.ofRoom 0 3) opened.store ⟨3⟩ "d/m.aln".toList
  have started : Program.ComesTo ⟨6, 0⟩ ⟨0⟩ false "d/main".toList
      (Program.importing 'm') .shelf first ready :=
    ⟨⟨2⟩, ready, ⟨0⟩, ready, Program.exec_load_importing 11 .shelf (.inl rfl), .here _ _ _,
      .here 5 ⟨0⟩ ready⟩
  have imports : first.Imports ready ['m'] "d/m.aln".toList ⟨5⟩ opened :=
    ⟨rfl, rfl, rfl, rfl, Program.importing 'n', rfl, Program.exec_load_importing 9 ready (.inr rfl)⟩
  have enters : (Site.ofNode (.ofRoom 0 4) opened.store ⟨5⟩ "d/m.aln".toList).Enters
      opened opened :=
    Site.enters_empty rfl rfl rfl
  have comes : Comes 0 "d/m.aln".toList 5 ⟨5⟩ opened second opened :=
    .inside enters (.here _ _ _) (.here 3 ⟨3⟩ opened)
  have arrived : Program.Arrives ⟨6, 0⟩ ⟨0⟩ false "d/main".toList (Program.importing 'm') .shelf
      [['m']] second opened :=
    .next (.start started) imports rfl comes
  have word : second.command.whole[1]? = some ['n'] := rfl
  obtain ⟨path, opens, beside, _⟩ :=
    relative_import_opens_beside_file arrived rfl rfl word ⟨'n', [], rfl, by decide, by decide⟩
  have named := beside ['d'] "m.aln".toList rfl (by decide)
  subst named
  exact ⟨second, opened, _, arrived, rfl, rfl, rfl, opens⟩

end CommandScript

import CommandScript.Proofs.Imports
import CommandScript.Proofs.Lines

/-! Imports of libraries by name. The name is looked up in the directories of the library path, one
after the other. The path joins them by colons, of which a directory has none, or one behind the
letter of its drive; either way the directories that it was joined from are found again. -/
namespace CommandScript

def Platform.colons : Platform → Nat
  | posix => 0
  | windows => 1

namespace Import

/-! ### The directories of a library path -/

private theorem exists_drive {d : Text} (colon : d.count ':' = 1) :
    ∃ drive rest, d = drive ++ ':' :: rest ∧ ':' ∉ drive ∧ ':' ∉ rest := by
  have member : ':' ∈ d := List.count_pos_iff.mp (by omega)
  obtain ⟨drive, rest, rfl, first⟩ := List.eq_append_cons_of_mem member
  refine ⟨drive, rest, rfl, first, ?_⟩
  rw [List.count_append, List.count_cons_self, List.count_eq_zero.mpr first] at colon
  exact List.count_eq_zero.mp (by omega)

/-- The halves of a directory are put together again. -/
theorem pairs_drive {d : Text} (colon : d.count ':' = 1) (more : List Text) :
    directories.pairs (d.splitOn ':' ++ more) = d :: directories.pairs more := by
  obtain ⟨drive, rest, rfl, first, second⟩ := exists_drive colon
  rw [Text.splitOn_append_cons first, List.splitOn_eq_singleton second]
  rfl

private theorem pairs_join {ds : List Text} (some : ds ≠ []) (colons : ∀ d ∈ ds, d.count ':' = 1) :
    directories.pairs (([':'].intercalate ds).splitOn ':') = ds := by
  induction ds with
  | nil => exact absurd rfl some
  | cons d rest ih =>
    obtain ⟨colon, others⟩ := List.forall_mem_cons.mp colons
    cases rest with
    | nil =>
      have whole := pairs_drive colon []
      rw [List.append_nil] at whole
      rw [List.intercalate_singleton]
      exact whole
    | cons e rest =>
      rw [List.intercalate_cons_cons, List.append_assoc, List.singleton_append, Text.splitOn_append,
        pairs_drive colon, ih (List.cons_ne_nil e rest) others]

/-- The directories that a library path was joined from are looked in, in their order. -/
theorem directories_join {platform : Platform} {ds : List Text} (some : ds ≠ [])
    (colons : ∀ d ∈ ds, d.count ':' = platform.colons) :
    directories platform ([':'].intercalate ds) = ds := by
  cases platform with
  | posix =>
    exact List.splitOn_intercalate ':'
      (fun d member => List.count_eq_zero.mp (colons d member)) some
  | windows => exact pairs_join some colons

/-! ### The search -/

def HasLibrary (files : FileTree) (separator : Char) (name directory : Text) : Prop :=
  files.isPresent (moduleFile separator directory name) = true ∨
  files.isPresent (packageFile separator directory name) = true

section Search

variable {files : FileTree} {separator : Char} {name : Text}

private theorem searchLibrary_cons (d : Text) (ds : List Text) :
    searchLibrary files separator (d :: ds) name =
      if files.isPresent (moduleFile separator d name) then moduleFile separator d name
      else if files.isPresent (packageFile separator d name) then packageFile separator d name
      else searchLibrary files separator ds name := by
  simp only [searchLibrary, List.flatMap_cons, candidates, List.cons_append, List.nil_append,
    List.find?_cons]
  cases files.isPresent (moduleFile separator d name) with
  | true => rfl
  | false => cases files.isPresent (packageFile separator d name) <;> rfl

/-- Directories without the library are passed over. -/
theorem searchLibrary_append {before : List Text}
    (without : ∀ d ∈ before, ¬ HasLibrary files separator name d) (ds : List Text) :
    searchLibrary files separator (before ++ ds) name = searchLibrary files separator ds name := by
  induction before with
  | nil => rfl
  | cons d before ih =>
    obtain ⟨here, others⟩ := List.forall_mem_cons.mp without
    obtain ⟨noModule, noPackage⟩ := not_or.mp here
    rw [List.cons_append, searchLibrary_cons, if_neg noModule, if_neg noPackage, ih others]

/-- The first directory with the library gives the file. -/
theorem searchLibrary_found {before : List Text} {d : Text}
    (without : ∀ e ∈ before, ¬ HasLibrary files separator name e)
    (found : HasLibrary files separator name d) (after : List Text) :
    searchLibrary files separator (before ++ d :: after) name =
      if files.isPresent (moduleFile separator d name) then moduleFile separator d name
        else packageFile separator d name := by
  rw [searchLibrary_append without, searchLibrary_cons]
  split
  · rfl
  · next noModule => rw [if_pos (found.resolve_left noModule)]

private theorem searchLibrary_missing {ds : List Text}
    (without : ∀ d ∈ ds, ¬ HasLibrary files separator name d) :
    searchLibrary files separator ds name = name := by
  have passed := searchLibrary_append without []
  rwa [List.append_nil] at passed

end Search

private theorem exec_library (ev : Evaluator) (file : Text) {r : Ref .node} {v : World}
    {name joined : Text} (command : (v.store.node r).command = "import ~".toList ++ name)
    (oneWord : ' ' ∉ name) (setting : v.host.libraryPath = some joined) :
    (runStep ev r file).exec v = (opening ev (v.store.node r).scope
      (searchLibrary v.files v.host.platform.separator (directories v.host.platform joined)
        name)).exec v := by
  let s := Site.ofNode ev v.store r file
  have text : s.command = .of ("import".toList ++ ' ' :: ('~' :: name)) :=
    congrArg Command.of command
  have verb : s.command.verb? = some .importFile := by
    rw [text, Command.verb?_word (by simp)]
    rfl
  have word : s.command.whole[1]? = some ('~' :: name) := by
    have whole : ' ' ∉ '~' :: name := by simpa using oneWord
    rw [text, Command.of, Text.words, Text.splitOn_append_cons (by decide),
      List.splitOn_eq_singleton whole]
    rfl
  have meant : resolve v.host v.files s.file ('~' :: name) =
      .ok (searchLibrary v.files v.host.platform.separator
        (directories v.host.platform joined) name) := by
    simp only [resolve, setting]
  rw [runStep_exec]
  exact Site.exec_importFile verb word meant

/-- A statement imports a library, where the library path joins some directories. These are searched
in their order, and the first one that has the library gives the file that is opened: the file with
the name of the library if there is one, and else the main file of the directory with this name. If
none has the library, its bare name is opened. -/
theorem library_import_opens_first_found (ev : Evaluator) (file : Text) {r : Ref .node}
    {v : World} (name : Text) (ds : List Text)
    (command : (v.store.node r).command = "import ~".toList ++ name) (oneWord : ' ' ∉ name)
    (nonempty : ds ≠ []) (colons : ∀ d ∈ ds, d.count ':' = v.host.platform.colons)
    (setting : v.host.libraryPath = some ([':'].intercalate ds)) :
    let separator := v.host.platform.separator
    directories v.host.platform ([':'].intercalate ds) = ds ∧
    ∃ path, (runStep ev r file).exec v = (opening ev (v.store.node r).scope path).exec v ∧
      (∀ before d after, ds = before ++ d :: after →
        (∀ e ∈ before, ¬ HasLibrary v.files separator name e) →
        HasLibrary v.files separator name d →
        path = if v.files.isPresent (moduleFile separator d name) then moduleFile separator d name
        else packageFile separator d name) ∧
      ((∀ d ∈ ds, ¬ HasLibrary v.files separator name d) → path = name) := by
  intro separator
  have tried := directories_join nonempty colons
  have opens := exec_library ev file command oneWord setting
  rw [tried] at opens
  refine ⟨tried, _, opens, ?_, searchLibrary_missing⟩
  rintro before d after rfl without found
  exact searchLibrary_found without found after

def drives : World where
  store := ((Store.newScope {} none).2.newNode
    { command := "import ~m".toList, index := 0, children := [], scope := ⟨0⟩,
      interactive := false }).2
  files := { files := [(["D:lib\\m\\__main__.aln".toList], "print 'm';".toList)] }
  host := { libraryPath := some "C:lib:D:lib".toList, platform := .windows }

theorem library_import_opens_first_found_drives :
    drives.host.libraryPath = some ([':'].intercalate ["C:lib".toList, "D:lib".toList]) ∧
      directories drives.host.platform "C:lib:D:lib".toList = ["C:lib".toList, "D:lib".toList] ∧
      (runStep (.ofRoom 0 3) ⟨0⟩ []).exec drives =
        (opening (.ofRoom 0 3) ⟨0⟩ "D:lib\\m\\__main__.aln".toList).exec drives := by
  obtain ⟨tried, path, opens, first, _⟩ :=
    library_import_opens_first_found (.ofRoom 0 3) [] (r := ⟨0⟩) (v := drives) ['m']
    ["C:lib".toList, "D:lib".toList] rfl (by decide) (by decide) (by decide) rfl
  have without : ∀ e ∈ ["C:lib".toList], ¬ HasLibrary drives.files '\\' ['m'] e := by
    rintro e member
    obtain rfl := List.mem_singleton.mp member
    rintro (present | present)
    · cases present
    · cases present
  have named : path = "D:lib\\m\\__main__.aln".toList :=
    first ["C:lib".toList] "D:lib".toList [] rfl without (.inr rfl)
  subst named
  exact ⟨rfl, tried, opens⟩

end Import

end CommandScript

import CommandScript.Files
import Mathlib.Data.List.Basic

/-! Files that are read after they were written. Writing a file leaves all directories where they
are, so the name leads to the same path afterwards, and the file there has what was written. -/
namespace CommandScript.FileTree

variable {t later : FileTree} {p q : Path} {content : Text}

private theorem lookup_setFile (files : List (Path × Text)) :
    (setFile p content files).lookup q = if q = p then some content else files.lookup q := by
  induction files with
  | nil => by_cases same : q = p <;> simp [setFile, same]
  | cons entry rest ih =>
    obtain ⟨key, old⟩ := entry
    by_cases here : key = p
    · subst here
      by_cases same : q = key
      · simp [setFile, same]
      · simp [setFile, List.lookup_cons, same, beq_false_of_ne same]
    · rw [setFile, if_neg here, List.lookup_cons, List.lookup_cons, ih]
      by_cases same : q = p
      · subst same
        simp [beq_false_of_ne (Ne.symm here)]
      · simp only [if_neg same]

private theorem mem_setFile (p : Path) (content : Text) {files : List (Path × Text)} {old : Text}
    (member : (q, old) ∈ files) : ∃ new, (q, new) ∈ setFile p content files := by
  induction files with
  | nil => cases member
  | cons entry rest ih =>
    obtain ⟨key, text⟩ := entry
    by_cases here : key = p
    · rw [setFile, if_pos here]
      rcases List.mem_cons.mp member with same | inside
      · cases same
        exact ⟨content, here ▸ List.mem_cons_self⟩
      · exact ⟨old, List.mem_cons_of_mem _ inside⟩
    · rw [setFile, if_neg here]
      rcases List.mem_cons.mp member with same | inside
      · cases same
        exact ⟨old, List.mem_cons_self⟩
      · obtain ⟨new, found⟩ := ih inside
        exact ⟨new, List.mem_cons_of_mem _ found⟩

def withFile (t : FileTree) (p : Path) (content : Text) : FileTree :=
  { t with files := setFile p content t.files }

private theorem isDirectory_withFile (before : t.isDirectory q = true) :
    (t.withFile p content).isDirectory q = true := by
  simp only [isDirectory, withFile, Bool.or_eq_true, List.any_eq_true] at before ⊢
  refine before.imp_right ?_
  rintro ⟨⟨path, old⟩, member, below⟩
  obtain ⟨new, found⟩ := mem_setFile p content member
  exact ⟨(path, new), found, below⟩

/-- A directory stays one when a file is written elsewhere. -/
theorem entry_withFile (before : t.entry q = .directory) (other : q ≠ p) :
    (t.withFile p content).entry q = .directory := by
  have missing : t.files.lookup q = none := by
    cases known : t.files.lookup q with
    | none => rfl
    | some text =>
      rw [entry, known] at before
      cases before
  have there : (t.isDirectory q || q == Path.top) = true := by
    by_contra absent
    rw [entry, missing] at before
    simp only [if_neg absent] at before
    cases before
  have still : ((t.withFile p content).isDirectory q || q == Path.top) = true := by
    rcases Bool.or_eq_true_iff.mp there with inside | top
    · rw [isDirectory_withFile inside, Bool.true_or]
    · rw [top, Bool.or_true]
  have unfound : (t.withFile p content).files.lookup q = none := by
    rw [withFile, lookup_setFile, if_neg other, missing]
  rw [entry, unfound]
  exact if_pos still

private theorem follow_withFile (kept : t.entry p ≠ .directory) {here : Path} {parts : List Text}
    (found : t.follow here parts = .ok q) : (t.withFile p content).follow here parts = .ok q := by
  induction parts generalizing here with
  | nil => exact found
  | cons part rest ih =>
    rw [follow] at found ⊢
    cases known : t.entry here with
    | file text =>
      rw [known] at found
      cases found
    | absent =>
      rw [known] at found
      cases found
    | directory =>
      rw [known] at found
      rw [entry_withFile known fun same => kept (by rw [← same, known])]
      simp only at found ⊢
      by_cases still : part = [] ∨ part = ['.']
      · rw [if_pos still] at found ⊢
        exact ih found
      · rw [if_neg still] at found ⊢
        by_cases up : part = ['.', '.']
        · rw [if_pos up] at found ⊢
          by_cases top : here.isEmpty = true
          · rw [if_pos top] at found
            cases found
          · rw [if_neg top] at found ⊢
            exact ih found
        · rw [if_neg up] at found ⊢
          exact ih found

private theorem locate_withFile (kept : t.entry p ≠ .directory) {name : Text}
    (found : t.locate name = .ok q) : (t.withFile p content).locate name = .ok q := by
  unfold locate at found ⊢
  by_cases bad : name.contains (Char.ofNat 0) = true
  · rw [if_pos bad] at found
    cases found
  · rw [if_neg bad] at found ⊢
    split at found
    · cases found
    · exact follow_withFile kept found
    · exact follow_withFile kept found

/-- A name can be written if it leads to a path that is no directory. -/
theorem writable_inv {name : Text} (written : t.writable name = .ok p) :
    t.locate name = .ok p ∧ t.entry p ≠ .directory := by
  unfold writable at written
  cases found : t.locate name with
  | error fault =>
    rw [found] at written
    cases written
  | ok path =>
    rw [found] at written
    have kept : t.entry path ≠ .directory := by
      intro known
      simp only [bind, Except.bind, known] at written
      cases written
    have same : path = p := by
      simp only [bind, Except.bind] at written
      cases known : t.entry path with
      | directory => exact absurd known kept
      | file text =>
        rw [known] at written
        exact Except.ok.inj written
      | absent =>
        simp only [known] at written
        split at written
        · exact Except.ok.inj written
        · cases written
    subst same
    exact ⟨rfl, kept⟩

/-- What is written to a file is read from it, up to line ends. -/
theorem read_write {name : Text} (written : t.write name content = .ok later) :
    later.read name = .ok (plainLines content) := by
  unfold write at written
  cases place : t.writable name with
  | error fault =>
    rw [place] at written
    cases written
  | ok p =>
    rw [place] at written
    obtain ⟨found, kept⟩ := writable_inv place
    have result : later = t.withFile p content := (Except.ok.inj written).symm
    have cell : (t.withFile p content).entry p = .file content := by
      rw [entry, withFile, lookup_setFile, if_pos rfl]
    rw [result, read, locate_withFile kept found]
    simp only [bind, Except.bind, cell]

end CommandScript.FileTree

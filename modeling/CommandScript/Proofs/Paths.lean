import CommandScript.Proofs.Cutting
import CommandScript.Proofs.ReadAfterWrite
import CommandScript.Proofs.Tags

/-! Names with members. What such a name means is found step by step: the first name in a scope, the
next one in the scope of the members of the variable, and so on. Assignments do not change what
names mean, and neither do new cells and new names change what the other names mean. -/
namespace CommandScript

theorem Table.find?_insert_other {name other : Text} (apart : other ≠ name) (r : Ref .variable)
    (t : Table) : (t.insert name r).find? other = t.find? other := by
  induction t with
  | nil => simp [insert, find?, List.lookup_cons, beq_false_of_ne apart]
  | cons entry rest ih =>
    obtain ⟨key, old⟩ := entry
    simp only [find?] at ih
    by_cases same : key = name
    · simp [insert, find?, same, List.lookup_cons, beq_false_of_ne apart]
    · simp [insert, find?, if_neg same, List.lookup_cons, ih]

namespace Store

variable {st later : Store} {scope : Ref .scope} {name : Text} {rest : List Text}
  {r : Ref .variable}

def find (st : Store) (scope : Ref .scope) (name : Text) : List Text → Option (Ref .variable)
  | [] => (st.resolve scope name).map (·.2)
  | member :: rest =>
    (st.resolve scope name).bind fun found => (st.var found.2).members.bind fun members =>
      st.find members member rest

def findPath (st : Store) (scope : Ref .scope) (name : Text) : Option (Ref .variable) :=
  match name.splitOn '.' with
  | first :: rest => st.find scope first rest
  | [] => none

def GoesThrough (st : Store) (scope : Ref .scope) (name : Text) (x : Ref .variable) : Prop :=
  ∃ first rest k, name.splitOn '.' = first :: rest ∧ k < rest.length ∧
  st.find scope first (rest.take k) = some x

/-- The first name of a path means a variable, which is the one meant or has the members in which
the rest is found. -/
theorem find_inv (found : st.find scope name rest = some r) :
    ∃ owner q, st.resolve scope name = some (owner, q) ∧
      (rest = [] ∧ q = r ∨ ∃ member more members, rest = member :: more ∧
        (st.var q).members = some members ∧
        st.find members member more = some r) := by
  cases rest with
  | nil =>
    obtain ⟨⟨owner, q⟩, known, rfl⟩ := Option.map_eq_some_iff.mp found
    exact ⟨owner, q, known, .inl ⟨rfl, rfl⟩⟩
  | cons member more =>
    obtain ⟨⟨owner, q⟩, known, found⟩ := Option.bind_eq_some_iff.mp found
    obtain ⟨members, inside, found⟩ := Option.bind_eq_some_iff.mp found
    exact ⟨owner, q, known, .inr ⟨member, more, members, rfl, inside, found⟩⟩

theorem Closed.find (closed : st.Closed) (held : st.Has scope.cell)
    (found : st.find scope name rest = some r) : st.Has r.cell := by
  induction rest generalizing scope name with
  | nil =>
    obtain ⟨owner, q, known, ⟨_, rfl⟩ | ⟨_, _, _, same, _⟩⟩ := find_inv found
    · exact (closed.resolve held known).2
    · cases same
  | cons member more ih =>
    obtain ⟨owner, q, known, ⟨same, _⟩ | ⟨_, _, members, same, inside, found⟩⟩ := find_inv found
    · cases same
    · cases same
      exact ih (closed.members (closed.resolve held known).2 inside) found

theorem Closed.findPath (closed : st.Closed) (held : st.Has scope.cell)
    (found : st.findPath scope name = some r) : st.Has r.cell := by
  unfold Store.findPath at found
  split at found
  · exact closed.find held found
  · cases found

theorem isVisible_of_findPath (found : st.findPath scope name = some r) :
    st.isVisible scope name = true := by
  obtain ⟨rest, parts⟩ := Text.splitOn_eq_before '.' name
  rw [findPath, parts] at found
  obtain ⟨owner, q, known, _⟩ := find_inv found
  rw [isVisible, known]
  rfl

end Store

section Lookup

variable {scope : Ref .scope} {name : Text} {rest : List Text} {r : Ref .variable} {w : World}

private theorem lookupFrom_find (ev : Evaluator) (found : w.store.find scope name rest = some r) :
    (lookupFrom ev scope name rest).exec w = (.ok (.held r), w) := by
  induction rest generalizing scope name with
  | nil =>
    obtain ⟨owner, q, known, ⟨_, rfl⟩ | ⟨_, _, _, same, _⟩⟩ := Store.find_inv found
    · rw [lookupFrom, Run.exec_bind_ok w (Run.exec_getStore w), known]
      rfl
    · cases same
  | cons member more ih =>
    obtain ⟨owner, q, known, ⟨same, _⟩ | ⟨_, _, members, same, inside, found⟩⟩ :=
      Store.find_inv found
    · cases same
    · cases same
      rw [lookupFrom, Run.exec_bind_ok w (Run.exec_getStore w), known]
      simp only [inside]
      exact ih found

theorem lookup_findPath (ev : Evaluator) (found : w.store.findPath scope name = some r) :
    (lookup ev scope name).exec w = (.ok (.held r), w) := by
  unfold Store.findPath at found
  unfold lookup
  cases parts : name.splitOn '.' with
  | nil =>
    rw [parts] at found
    cases found
  | cons first rest =>
    rw [parts] at found
    exact lookupFrom_find ev found

/-- A name, perhaps with members, that an expression can be: no element, call, literal, condition or
word that stands for a text, and without spaces around it. -/
structure PlainPath (name : Text) : Prop where
  noElement : name.getLast? ≠ some ']'
  noCall : name.getLast? ≠ some ')'
  noQuotes : Spelled.isQuoted name = false
  noInt : Number.readInt? name = none
  noFloat : Number.readFloat? name = none
  noCondition : isCondition name = false
  noInput : name ≠ Literal.inputWord
  noWord : Literal.fixed.lookup name = none
  trimmed : Spelled.trimSpaces name = name

/-- A name reads as the variable that it means. -/
theorem read_path (rounds n : Nat) (plain : PlainPath name)
    (found : w.store.findPath scope name = some r) :
    ((Evaluator.ofRoom rounds (n + 2)).valueOf scope name).exec w =
      ((w.store.var r).reading, w) := by
  have expanded : (Literal.expandValue (.text name)).exec w = (.ok (.text name), w) := by
    simp only [Literal.expandValue, Literal.expand, if_neg plain.noInput, plain.noWord]
    rfl
  have named : bindText (Evaluator.ofRoom rounds n) (some scope) nameless true name =
      bindName (Evaluator.ofRoom rounds n) (some scope) true (some name) := by
    unfold bindText
    simp only [plain.noQuotes, plain.noInt, plain.noFloat, plain.noCondition, plain.trimmed,
      Bool.false_eq_true, if_false]
  have copied : (bindName (Evaluator.ofRoom rounds n) (some scope) true (some name)).exec w =
      (.ok { name := (w.store.var r).name, home := some scope, content := (w.store.var
        r).content, tag := (w.store.var r).tag }, w) := by
    unfold bindName
    simp only
    rw [Run.exec_bind_ok w (Run.exec_getStore w), Store.isVisible_of_findPath found, if_pos rfl,
      Run.exec_bind_ok w (lookup_findPath _ found)]
    rfl
  change (valueStep (Evaluator.ofRoom rounds (n + 1)) scope name).exec w = _
  unfold valueStep
  rw [Run.exec_bind_ok w (Run.exec_getStore w), if_neg (fun both => plain.noCall both.1),
    if_neg (fun both => plain.noElement both.1), evaluate_eq,
    Run.exec_bind_ok w (Run.exec_readItem_bare w _), Run.exec_bind_ok w expanded]
  change (bindText (Evaluator.ofRoom rounds n) (some scope) nameless true name >>=
    Variable.read).exec w = _
  rw [named, Run.exec_bind_ok w copied, Variable.exec_read]
  rfl

end Lookup

/-! ### What names mean later -/

namespace Store

variable {st later : Store} {scope : Ref .scope} {name : Text} {rest : List Text}
  {r : Ref .variable}

private theorem members_overwrite (st : Store) (r q : Ref .variable) (v : Value) :
    ((st.overwrite r v).var q).members = (st.var q).members := by
  have kept : ∀ (st : Store) (p : Ref .variable) (u : Value),
      ((st.updateVariable p fun x => { x with content := u }).var q).members =
        (st.var q).members := by
    intro st p u
    rcases Arena.read_update_cases st.vars p q (fun x => { x with content := u }) with same |
      ⟨_, _, changed⟩
    · exact congrArg Variable.members same
    · exact (congrArg Variable.members changed).trans rfl
  unfold overwrite
  split
  · rw [kept, kept]
  · rw [kept]

theorem find_overwrite (st : Store) (r : Ref .variable) (v : Value) (scope : Ref .scope)
    (name : Text) (rest : List Text) :
    (st.overwrite r v).find scope name rest = st.find scope name rest := by
  induction rest generalizing scope name with
  | nil => rw [find, find, resolve_overwrite]
  | cons member more ih => simp only [find, resolve_overwrite, members_overwrite, ih]

/-- Every scope has an outermost one around it. -/
def Rooted (st : Store) : Prop :=
  ∀ s : Ref .scope, st.Has s.cell → (st.scope (st.root s)).parent = none

instance (st : Store) : Decidable st.Rooted :=
  decidable_of_iff (∀ i, i < st.scopes.size → (st.scope (st.root ⟨i⟩)).parent = none)
    ⟨fun all s held => all s.index held, fun all i held => all ⟨i⟩ held⟩

/-- A chain of scopes that has come to its end stays the same in a later store, however far it is
followed. -/
theorem outward_extends (closed : st.Closed) (extended : st.scopes.Extends later.scopes)
    {n m : Nat} (more : n ≤ m) {s : Ref .scope} (held : st.Has s.cell)
    (ended : ∀ a, (st.outward n s).getLast? = some a → (st.scope a).parent = none) :
    later.outward m s = st.outward n s := by
  induction n generalizing m s with
  | zero =>
    have top : (later.scope s).parent = none := by
      rw [Store.scope, (extended s held).2]
      exact ended s rfl
    cases m with
    | zero => rfl
    | succ m => rw [outward, outward, top]
  | succ n ih =>
    obtain ⟨m, rfl⟩ := Nat.exists_eq_add_of_le' (Nat.le_trans (Nat.succ_pos n) more)
    have same : later.scope s = st.scope s := (extended s held).2
    rw [outward, outward, same]
    cases above : (st.scope s).parent with
    | none => rfl
    | some parent =>
      simp only
      refine congrArg _ (ih (Nat.le_of_succ_le_succ more) (closed.parent held above) ?_)
      intro a last
      apply ended
      rw [outward, above]
      simp only [List.getLast?_cons, last, Option.getD_some]

theorem ancestors_extends (closed : st.Closed) (extended : st.scopes.Extends later.scopes)
    (held : st.Has scope.cell) (ends : (st.scope (st.root scope)).parent = none) :
    later.ancestors scope = st.ancestors scope := by
  refine outward_extends closed extended extended.size_le held fun a last => ?_
  have outermost : st.root scope = a := by
    rw [root, ancestors, last]
    rfl
  rw [← outermost]
  exact ends

theorem find?_bindName_other {other : Text} (apart : other ≠ name) (target s : Ref .scope)
    (x : Variable) :
    ((st.bindName target name x).tableOf s).find? other = (st.tableOf s).find? other := by
  change ((st.tables.update (st.scope target).table (Table.insert name ⟨st.vars.size⟩)).read
    (st.scope s).table).find? other = _
  rcases Arena.read_update_cases st.tables (st.scope target).table (st.scope s).table
    (Table.insert name ⟨st.vars.size⟩) with
    same | ⟨_, _, changed⟩
  · rw [same]
    rfl
  · rw [changed, Table.find?_insert_other apart]
    rfl

/-- A later store in which the scopes and variables are as before and, in their tables, all but some
names. -/
structure Keeps (st later : Store) (new : List Text) : Prop where
  scopes : st.scopes.Extends later.scopes
  vars : ∀ r : Ref .variable, st.Has r.cell → later.var r = st.var r
  tables : ∀ s : Ref .scope, st.Has s.cell → ∀ name, name ∉ new → (later.tableOf s).find? name =
    (st.tableOf s).find? name

namespace Keeps

variable {middle : Store} {new : List Text}

theorem refl (st : Store) : st.Keeps st [] := ⟨.refl _, fun _ _ => rfl, fun _ _ _ _ => rfl⟩

theorem extend (keeps : st.Keeps middle new) (wider : st.Grows middle) (closed : middle.Closed)
    (extended : middle.Extends later) : st.Keeps later new where
  scopes := keeps.scopes.trans extended.scopes
  vars r held := ((extended.vars r (held.mono wider)).2).trans (keeps.vars r held)
  tables s held name other := by
    have inside := held.mono wider
    have scope : later.scope s = middle.scope s := (extended.scopes s inside).2
    have table : later.table (middle.scope s).table = middle.table (middle.scope s).table :=
      (extended.tables _ (closed.table inside)).2
    rw [tableOf, scope, table]
    exact keeps.tables s held name other

theorem bind (keeps : st.Keeps middle new) (wider : st.Grows middle) (target : Ref .scope)
    (name : Text) (x : Variable) : st.Keeps (middle.bindName target name x) (name :: new) where
  scopes := keeps.scopes
  vars r inside := (var_bindName_old (inside.mono wider)).trans (keeps.vars r inside)
  tables s inside other unlike := by
    rw [find?_bindName_other (List.ne_of_not_mem_cons unlike)]
    exact keeps.tables s inside other (List.not_mem_of_not_mem_cons unlike)

section Meaning

variable (keeps : st.Keeps later new) (closed : st.Closed)
include keeps closed

theorem ancestors (held : st.Has scope.cell) (ends : (st.scope (st.root scope)).parent = none) :
    later.ancestors scope = st.ancestors scope := ancestors_extends closed keeps.scopes held ends

theorem root (held : st.Has scope.cell) (ends : (st.scope (st.root scope)).parent = none) :
    later.root scope = st.root scope := by
  rw [Store.root, Store.root, keeps.ancestors closed held ends]

theorem resolve (held : st.Has scope.cell) (ends : (st.scope (st.root scope)).parent = none)
    (old : name ∉ new) : later.resolve scope name = st.resolve scope name :=
  resolve_of_tables (keeps.ancestors closed held ends) fun a member =>
    keeps.tables a (closed.ancestors held member) name old

theorem find (rooted : st.Rooted) (held : st.Has scope.cell) (old : ∀ n ∈ name :: rest, n ∉ new) :
    later.find scope name rest = st.find scope name rest := by
  have first := keeps.resolve closed held (rooted scope held) (old name List.mem_cons_self)
  induction rest generalizing scope name with
  | nil => rw [Store.find, Store.find, first]
  | cons member more ih =>
    rw [Store.find, Store.find, first]
    cases known : st.resolve scope name with
    | none => rfl
    | some found =>
      obtain ⟨owner, q⟩ := found
      have inside := (closed.resolve held known).2
      simp only [Option.bind_some, keeps.vars q inside]
      cases members : (st.var q).members with
      | none => rfl
      | some m =>
        have below := closed.members inside members
        have old := fun n listed => old n (List.mem_cons_of_mem _ listed)
        exact ih below old (keeps.resolve closed below (rooted m below)
          (old member List.mem_cons_self))

theorem findPath (rooted : st.Rooted) (held : st.Has scope.cell)
    (old : ∀ part ∈ name.splitOn '.', part ∉ new) :
    later.findPath scope name = st.findPath scope name := by
  unfold Store.findPath
  split
  · next first rest parts =>
    rw [parts] at old
    exact keeps.find closed rooted held old
  · rfl

end Meaning

end Keeps

end Store

end CommandScript

import CommandScript.Proofs.Paths

/-! Stores in which every variable is registered: its home is the scope in whose table it stands,
and its name is the one under which it stands there. In such a store an assignment comes back to the
variable that it started from, so that it changes one binding only, and all variables stay
registered. -/
namespace CommandScript

private theorem Variable.home_ofValue (st : Store) (name : Text) (home : Option (Ref .scope))
    (v : Value) : (ofValue st name home v).home = home := by
  cases v <;> rfl

private theorem Variable.name_ofValue (st : Store) (name : Text) (home : Option (Ref .scope))
    (v : Value) : (ofValue st name home v).name = some name := by
  cases v <;> rfl

namespace Store

variable {st middle later : Store} {p : Ref .scope → Prop} {s a owner target : Ref .scope}
  {name : Text} {r : Ref .variable}

/-! ### The nearest scope -/

inductive FirstOutward (st : Store) (p : Ref .scope → Prop) : Ref .scope → Ref .scope → Prop where
  | here {s : Ref .scope} (holds : p s) : FirstOutward st p s s
  | outer {s parent found : Ref .scope} (fails : ¬ p s) (above : (st.scope s).parent = some parent)
      (next : FirstOutward st p parent found) : FirstOutward st p s found

def Declares (st : Store) (name : Text) (s : Ref .scope) : Prop :=
  ((st.tableOf s).find? name).isSome

instance (st : Store) (name : Text) (s : Ref .scope) : Decidable (st.Declares name s) :=
  inferInstanceAs (Decidable (_ = true))

/-- A scope takes in the global declarations made inside of it: it is sealed or outermost. -/
def TakesGlobals (st : Store) (s : Ref .scope) : Prop :=
  (st.scope s).isSealed = true ∨ (st.scope s).parent = none

theorem head?_outward (n : Nat) (s : Ref .scope) : (st.outward n s).head? = some s := by
  cases n with
  | zero => rfl
  | succ n =>
    rw [outward]
    split <;> rfl

theorem firstOutward_of_chain {n : Nat} {before rest : List (Ref .scope)}
    (chain : st.outward n s = before ++ a :: rest) (fails : ∀ b ∈ before, ¬ p b) (holds : p a) :
    st.FirstOutward p s a := by
  have first := st.head?_outward n s
  rw [chain] at first
  induction before generalizing n s with
  | nil =>
    obtain rfl : a = s := Option.some.inj first
    exact .here holds
  | cons b before ih =>
    obtain rfl : b = s := Option.some.inj first
    cases n with
    | zero => simp [outward] at chain
    | succ n =>
      rw [outward] at chain
      cases above : (st.scope b).parent with
      | none => simp [above] at chain
      | some parent =>
        simp only [above, List.cons_append, List.cons.injEq, true_and] at chain
        have next := ih chain (fun c member => fails c (List.mem_cons_of_mem _ member))
          (chain ▸ head?_outward n parent)
        exact .outer (fails b List.mem_cons_self) above next

private theorem FirstOutward.mem_outward {n : Nat} (first : st.FirstOutward p s a)
    (ended : ∀ last, (st.outward n s).getLast? = some last → (st.scope last).parent = none) :
    a ∈ st.outward n s := by
  induction first generalizing n with
  | here => exact self_mem_outward n _
  | @outer s parent found fails above next ih =>
    cases n with
    | zero =>
      rw [ended s rfl] at above
      cases above
    | succ n =>
      rw [outward, above] at ended ⊢
      refine List.mem_cons_of_mem _ (ih fun last known => ended last ?_)
      simp only [List.getLast?_cons, known, Option.getD_some]

theorem FirstOutward.holds (first : st.FirstOutward p s a) : p a := by
  induction first with
  | here holds => exact holds
  | outer _ _ _ ih => exact ih

theorem FirstOutward.unique {b : Ref .scope} (first : st.FirstOutward p s a)
    (second : st.FirstOutward p s b) : a = b := by
  induction first with
  | here holds =>
    cases second with
    | here => rfl
    | outer fails => exact absurd holds fails
  | outer fails above _ ih =>
    cases second with
    | here holds => exact absurd holds fails
    | outer _ above' next =>
      rw [above] at above'
      cases above'
      exact ih next

theorem FirstOutward.congr {q : Ref .scope → Prop} (closed : st.Closed) (held : st.Has s.cell)
    (parents : ∀ s, (later.scope s).parent = (st.scope s).parent)
    (same : ∀ s : Ref .scope, st.Has s.cell → (p s ↔ q s)) (first : st.FirstOutward p s a) :
    later.FirstOutward q s a := by
  induction first with
  | here holds => exact .here ((same _ held).mp holds)
  | outer fails above _ ih =>
    refine .outer (fun holds => fails ((same _ held).mpr holds)) ?_ (ih (closed.parent held above))
    rw [parents, above]

private theorem FirstOutward.mem_ancestors (first : st.FirstOutward p s a)
    (ends : (st.scope (st.root s)).parent = none) : a ∈ st.ancestors s := by
  refine first.mem_outward fun last known => ?_
  rw [root, ancestors, known] at ends
  exact ends

/-- A name means the variable of that name in the nearest scope that has one. -/
theorem resolve_first (found : st.resolve s name = some (owner, r)) :
    st.FirstOutward (st.Declares name) s owner ∧ (st.tableOf owner).find? name = some r := by
  obtain ⟨before, a, rest, chain, here, earlier⟩ := List.findSome?_eq_some_iff.mp found
  obtain ⟨q, bound, same⟩ := Option.map_eq_some_iff.mp here
  cases same
  refine ⟨firstOutward_of_chain chain ?_ ?_, bound⟩
  · intro b member
    simp [Declares, Option.map_eq_none_iff.mp (earlier b member)]
  · simp [Declares, bound]

theorem not_first_of_unknown (ends : (st.scope (st.root s)).parent = none)
    (unknown : st.resolve s name = none) (a : Ref .scope) :
    ¬ st.FirstOutward (st.Declares name) s a := by
  intro first
  have holds := first.holds
  simp [Declares, resolve_eq_none.mp unknown a (first.mem_ancestors ends)] at holds

theorem resolve_self (bound : (st.tableOf s).find? name = some r) :
    st.resolve s name = some (s, r) := by
  obtain ⟨rest, chain⟩ := List.head?_eq_some_iff.mp (st.head?_outward st.scopes.size s)
  rw [resolve, ancestors, chain, List.findSome?_cons, bound]
  rfl

/-- Global declarations go to the nearest scope that takes them in. -/
theorem globalOf_first (ends : (st.scope (st.root s)).parent = none) :
    st.FirstOutward st.TakesGlobals s (st.globalOf s) := by
  rw [globalOf]
  cases found : (st.ancestors s).find? fun s =>
    (st.scope s).isSealed || (st.scope s).parent.isNone with
  | none =>
    have outermost := List.find?_eq_none.mp found _ (root_mem_ancestors s)
    simp [ends] at outermost
  | some target =>
    obtain ⟨holds, before, rest, chain, earlier⟩ := List.find?_eq_some_iff_append.mp found
    refine firstOutward_of_chain chain ?_ ?_
    · intro b member
      simpa [TakesGlobals, Option.isSome_iff_ne_none] using earlier b member
    · simpa [TakesGlobals] using holds

/-! ### Changes to some bindings -/

/-- In a later store the scopes, and the variables that are not bound to some names of some scopes,
are as before. -/
structure ChangesOnly (st later : Store) (changed : Ref .scope → Text → Prop) : Prop where
  grows : st.Grows later
  scopes : ∀ s : Ref .scope, later.Has s.cell → st.Has s.cell
  names : ∀ s : Ref .scope, st.Has s.cell → ∀ name, ¬ changed s name →
    (later.tableOf s).find? name = (st.tableOf s).find? name
  bound : ∀ s : Ref .scope, st.Has s.cell → ∀ name r, (later.tableOf s).find? name = some r →
    st.Has r.cell →
    (st.tableOf s).find? name = some r
  vars : ∀ r : Ref .variable, st.Has r.cell →
    (∀ s name, st.Has s.cell → changed s name → (st.tableOf s).find? name ≠ some r) →
      later.var r = st.var r
  lists : later.lists = st.lists
  records : st.records.Extends later.records
  nodes : later.nodes = st.nodes

namespace ChangesOnly

variable {changed more : Ref .scope → Text → Prop}

theorem trans (first : st.ChangesOnly middle changed) (second : middle.ChangesOnly later more) :
    st.ChangesOnly later fun s name => changed s name ∨ more s name where
  grows := first.grows.trans second.grows
  scopes s held := first.scopes s (second.scopes s held)
  names s held name other := by
    rw [second.names s (held.mono first.grows) name fun change => other (.inr change),
      first.names s held name fun change => other (.inl change)]
  bound s held name r found old :=
    first.bound s held name r (second.bound s (held.mono first.grows) name r found
      (old.mono first.grows)) old
  vars r held other := by
    rw [second.vars r (held.mono first.grows) ?_,
      first.vars r held fun s name inside change => other s name inside (.inl change)]
    intro s name inside change found
    exact other s name (first.scopes s inside) (.inr change)
      (first.bound s (first.scopes s inside) name r found held)
  lists := second.lists.trans first.lists
  records := first.records.trans second.records
  nodes := second.nodes.trans first.nodes

/-- Where tables and variables are the same, nothing has changed. -/
theorem of_same (grows : st.Grows later) (size : later.scopes.size = st.scopes.size)
    (table : ∀ s, (later.scope s).table = (st.scope s).table) (tables : later.tables = st.tables)
    (vars : later.vars = st.vars) (lists : later.lists = st.lists)
    (records : st.records.Extends later.records) (nodes : later.nodes = st.nodes) :
    st.ChangesOnly later changed := by
  have same : ∀ s, later.tableOf s = st.tableOf s := by
    intro s
    rw [tableOf, table, Store.table, tables]
    rfl
  refine ⟨grows, ?_, ?_, ?_, ?_, lists, records, nodes⟩
  · intro s inside
    simpa [Has, Ref.cell, count, size] using inside
  · intro s _ name _
    rw [same]
  · intro s _ name r found _
    rwa [same] at found
  · intro r _ _
    rw [var, vars]
    rfl

theorem mono (changes : st.ChangesOnly later changed)
    (wider : ∀ s name, changed s name → more s name) : st.ChangesOnly later more :=
  { changes with
    names := fun s held name other => changes.names s held name fun change =>
      other (wider s name change)
    vars := fun r held other => changes.vars r held fun s name inside change =>
      other s name inside (wider s name change) }

end ChangesOnly

/-! ### Registered variables -/

/-- The scopes make up trees, each has a table of its own, and the variables in it have the scope
for their home and the name under which they stand there for their name. -/
structure Registered (st : Store) : Prop where
  closed : st.Closed
  rooted : st.Rooted
  tables : ∀ s t : Ref .scope, st.Has s.cell → st.Has t.cell → (st.scope s).table =
    (st.scope t).table → s = t
  entries : ∀ s : Ref .scope, st.Has s.cell → ∀ entry ∈ st.tableOf s,
    (st.var entry.2).home = some s ∧ (st.var entry.2).name = some entry.1

instance (st : Store) : Decidable st.Registered :=
  decidable_of_iff (st.Closed ∧ st.Rooted ∧
      (∀ i, i < st.scopes.size → ∀ j, j < st.scopes.size → (st.scope ⟨i⟩).table =
        (st.scope ⟨j⟩).table → i = j) ∧
      ∀ i, i < st.scopes.size → ∀ entry ∈ st.tableOf ⟨i⟩, (st.var entry.2).home = some ⟨i⟩ ∧
      (st.var entry.2).name = some entry.1)
    ⟨fun ⟨closed, rooted, tables, entries⟩ =>
      ⟨closed, rooted, fun s t first second same =>
        congrArg Ref.mk (tables s.index first t.index second same),
        fun s held => entries s.index held⟩,
    fun registered => ⟨registered.closed, registered.rooted,
      fun i first j second same => congrArg Ref.index (registered.tables ⟨i⟩ ⟨j⟩ first second same),
      fun i held => registered.entries ⟨i⟩ held⟩⟩

private theorem outward_of_parents (parents : ∀ s, (later.scope s).parent = (st.scope s).parent)
    (n : Nat) (s : Ref .scope) : later.outward n s = st.outward n s := by
  induction n generalizing s with
  | zero => rfl
  | succ n ih => simp only [outward, parents, ih]

theorem Rooted.of_parents (rooted : st.Rooted) (size : later.scopes.size = st.scopes.size)
    (parents : ∀ s, (later.scope s).parent = (st.scope s).parent) : later.Rooted := by
  intro s held
  have inside : st.Has s.cell := by
    simpa [Has, Ref.cell, count, size] using held
  have outermost : later.root s = st.root s := by
    simp only [root, ancestors, size, outward_of_parents parents]
  rw [outermost, parents]
  exact rooted s inside

/-- An assignment changes contents only. -/
theorem var_overwrite_cases (st : Store) (r q : Ref .variable) (v : Value) :
    ∃ content, (st.overwrite r v).var q = { st.var q with content } := by
  have kept : ∀ (st : Store) (p : Ref .variable) (u : Value),
      ∃ content, (st.updateVariable p fun x => { x with content := u }).var q =
        { st.var q with content } := by
    intro st p u
    rcases Arena.read_update_cases st.vars p q (fun x => { x with content := u }) with same |
      ⟨_, _, changed⟩
    · exact ⟨_, same⟩
    · exact ⟨u, changed⟩
  unfold overwrite
  split
  · next q' known =>
    obtain ⟨content, first⟩ := kept st r v
    obtain ⟨content, second⟩ :=
      kept (st.updateVariable r fun x => { x with content := v }) q' v.asRead
    rw [first] at second
    exact ⟨content, second⟩
  · exact kept st r v

theorem closed_overwrite {v : Value} (closed : st.Closed) (r : Ref .variable)
    (scalar : v.IsScalar) : (st.overwrite r v).Closed := by
  have written := closed.setContent r (scalar.cells ▸ hasAll_nil st)
  unfold overwrite
  split
  · exact written.setContent _ (scalar.cells_asRead ▸ hasAll_nil _)
  · exact written

/-- The variable that a value makes refers to its home and to what the value refers to. -/
theorem Closed.ofValue (closed : st.Closed) {home : Option (Ref .scope)}
    (held : ∀ h, home = some h → st.Has h.cell) (name : Text) {v : Value}
    (known : st.HasAll v.cells) : st.HasAll (Variable.ofValue st name home v).cells := by
  have plain : st.HasAll ((home.map Ref.cell).toList ++ v.cells) :=
    hasAll_append.mpr ⟨hasAll_option.mpr held, known⟩
  cases v with
  | record q =>
    refine hasAll_append.mpr ⟨plain, hasAll_option.mpr fun m inside => ?_⟩
    obtain ⟨⟨t, node⟩, body, rfl⟩ := Option.map_eq_some_iff.mp inside
    exact closed.nodeScope (closed.body (known _ List.mem_cons_self) body).2
  | _ => exact hasAll_append.mpr ⟨plain, hasAll_nil st⟩

def declared (st : Store) (target : Ref .scope) (name : Text) (v : Value) : Store :=
  st.bindName target name (Variable.ofValue st name (some target) v)

/-- An assignment changes variables only. -/
theorem overwrite_rest (st : Store) (r : Ref .variable) (v : Value) :
    (st.overwrite r v).scopes = st.scopes ∧ (st.overwrite r v).lists = st.lists ∧
    (st.overwrite r v).records = st.records ∧
      (st.overwrite r v).nodes = st.nodes := by
  unfold overwrite
  split <;> exact ⟨rfl, rfl, rfl, rfl⟩

theorem grows_overwrite (st : Store) (r : Ref .variable) (v : Value) :
    st.Grows (st.overwrite r v) := by
  unfold overwrite
  split
  · exact (grows_updateVariable _ _ _).trans (grows_updateVariable _ _ _)
  · exact grows_updateVariable _ _ _

namespace Registered

variable (registered : st.Registered)
include registered

theorem has (held : st.Has s.cell) (bound : (st.tableOf s).find? name = some r) : st.Has r.cell :=
  registered.closed.bound (registered.closed.table held) (Table.mem_of_find? bound)

theorem entry (held : st.Has s.cell) (bound : (st.tableOf s).find? name = some r) :
    (st.var r).home = some s ∧ (st.var r).name = some name :=
  registered.entries s held _ (Table.mem_of_find? bound)

/-- A variable is bound under one name of one scope only. -/
theorem unique {t : Ref .scope} {other : Text} (first : st.Has s.cell)
    (here : (st.tableOf s).find? name = some r) (second : st.Has t.cell)
    (there : (st.tableOf t).find? other = some r) : t = s ∧ other = name := by
  obtain ⟨home, named⟩ := registered.entry first here
  obtain ⟨home', named'⟩ := registered.entry second there
  rw [home] at home'
  rw [named] at named'
  exact ⟨(Option.some.inj home').symm, (Option.some.inj named').symm⟩

private theorem namesake_self (held : st.Has s.cell) (bound : (st.tableOf s).find? name = some r) :
    st.namesake r = some r := by
  obtain ⟨home, named⟩ := registered.entry held bound
  rw [namesake, home, named, Option.bind_some, Option.bind_some, resolve_self bound]
  rfl

/-- The variables that are bound elsewhere are as before. -/
theorem kept {changed : Ref .scope → Text → Prop} (changes : st.ChangesOnly later changed)
    (held : st.Has s.cell) (other : ¬ changed s name) (bound : (st.tableOf s).find? name = some r) :
    (later.tableOf s).find? name = some r ∧ later.var r = st.var r := by
  constructor
  · rw [changes.names s held name other, bound]
  · refine changes.vars r (registered.has held bound) fun t label inside change found => ?_
    obtain ⟨rfl, rfl⟩ := registered.unique held bound inside found
    exact other change

theorem of_same (closed : later.Closed) (size : later.scopes.size = st.scopes.size)
    (parent : ∀ s, (later.scope s).parent = (st.scope s).parent)
    (table : ∀ s, (later.scope s).table = (st.scope s).table) (tables : later.tables = st.tables)
    (vars : later.vars = st.vars) : later.Registered := by
  have inside : ∀ s : Ref .scope, later.Has s.cell → st.Has s.cell := by
    intro s held
    simpa [Has, Ref.cell, count, size] using held
  refine ⟨closed, registered.rooted.of_parents size parent, ?_, ?_⟩
  · intro s t first second same
    rw [table, table] at same
    exact registered.tables s t (inside s first) (inside t second) same
  · intro s held entry member
    rw [tableOf, table, Store.table, tables] at member
    rw [var, vars]
    exact registered.entries s (inside s held) entry member

section Binding

variable (held : st.Has target.cell) {x : Variable}
include held

theorem find?_bindName (name : Text) (x : Variable) (inside : st.Has s.cell) (label : Text) :
    ((st.bindName target name x).tableOf s).find? label =
      if s = target ∧ label = name then some ⟨st.vars.size⟩ else (st.tableOf s).find? label := by
  by_cases same : label = name
  · subst same
    rw [tableOf_bindName target s label x (registered.closed.table held)]
    by_cases here : s = target
    · subst here
      rw [if_pos rfl, if_pos ⟨rfl, rfl⟩, Table.find?_insert_here]
    · have apart : (st.scope s).table ≠ (st.scope target).table :=
        fun same => here (registered.tables s target inside held same)
      rw [if_neg apart, if_neg fun both => here both.1]
  · rw [find?_bindName_other same, if_neg fun both => same both.2]

theorem changesOnly_bindName (name : Text) (x : Variable) :
    st.ChangesOnly (st.bindName target name x) fun s label => s = target ∧ label = name where
  grows := grows_bindName st target name x
  scopes _ held := held
  names s inside label other := by rw [registered.find?_bindName held name x inside, if_neg other]
  bound s inside label r found old := by
    rw [registered.find?_bindName held name x inside] at found
    split at found
    · obtain rfl := Option.some.inj found
      exact absurd old (Nat.lt_irrefl _)
    · exact found
  vars _ old _ := var_bindName_old old
  lists := rfl
  records := .refl _
  nodes := rfl

theorem bindName (home : x.home = some target) (named : x.name = some name)
    (known : st.HasAll x.cells) : (st.bindName target name x).Registered where
  closed := registered.closed.bindName known
  rooted := registered.rooted.of_parents rfl fun _ => rfl
  tables s t first second same := registered.tables s t first second same
  entries s inside entry member := by
    have old : ∀ entry ∈ st.tableOf s, ((st.bindName target name x).var entry.2).home = some s ∧
        ((st.bindName target name x).var entry.2).name = some entry.1 := by
      intro entry listed
      rw [var_bindName_old (registered.closed.bound (registered.closed.table inside) listed)]
      exact registered.entries s inside entry listed
    rw [tableOf_bindName target s name x (registered.closed.table held)] at member
    split at member
    · next same =>
      obtain rfl := registered.tables s target inside held same
      rcases Table.mem_insert member with rfl | listed
      · rw [var_bindName_fresh]
        exact ⟨home, named⟩
      · exact old entry listed
    · exact old entry member

theorem declared (name : Text) {v : Value} (known : st.HasAll v.cells) :
    (st.declared target name v).Registered :=
  registered.bindName held (Variable.home_ofValue st name _ v) (Variable.name_ofValue st name _ v)
    (registered.closed.ofValue (fun _ same => Option.some.inj same ▸ held) name known)

theorem find?_declared (name : Text) (v : Value) :
    ((st.declared target name v).tableOf target).find? name = some ⟨st.vars.size⟩ := by
  rw [Store.declared, registered.find?_bindName held name _ held, if_pos ⟨rfl, rfl⟩]

end Binding

section Writing

variable (held : st.Has s.cell) (bound : (st.tableOf s).find? name = some r) (v : Value)
include held bound

theorem var_overwrite : (st.overwrite r v).var r = { st.var r with content := v.asRead } := by
  rw [Store.var_overwrite v (registered.has held bound),
    if_pos (registered.namesake_self held bound)]

theorem changesOnly_overwrite :
    st.ChangesOnly (st.overwrite r v) fun t label => t = s ∧ label = name where
  grows := st.grows_overwrite r v
  scopes t inside := ((st.overwrite_frame r v).1 t).mp inside
  names t _ label _ := by rw [(st.overwrite_frame r v).2.1]
  bound t _ label q found _ := by rwa [(st.overwrite_frame r v).2.1] at found
  vars q _ other := by
    have apart : q ≠ r := by
      rintro rfl
      exact other s name held ⟨rfl, rfl⟩ bound
    refine var_overwrite_elsewhere v apart ?_
    rw [registered.namesake_self held bound]
    exact fun same => apart (Option.some.inj same).symm
  lists := (st.overwrite_rest r v).2.1
  records := (st.overwrite_rest r v).2.2.1 ▸ .refl _
  nodes := (st.overwrite_rest r v).2.2.2

end Writing

theorem overwrite (r : Ref .variable) {v : Value} (scalar : v.IsScalar) :
    (st.overwrite r v).Registered := by
  obtain ⟨inside, tables, _⟩ := st.overwrite_frame r v
  have scope : (st.overwrite r v).scope = st.scope := by
    funext s
    rw [Store.scope, (st.overwrite_rest r v).1]
    rfl
  constructor
  · exact closed_overwrite registered.closed r scalar
  · refine registered.rooted.of_parents ?_ fun s => by rw [scope]
    rw [(st.overwrite_rest r v).1]
  · intro s t first second same
    rw [scope] at same
    exact registered.tables s t ((inside s).mp first) ((inside t).mp second) same
  · intro s held entry member
    rw [tables] at member
    obtain ⟨content, known⟩ := st.var_overwrite_cases r entry.2 v
    rw [known]
    exact registered.entries s ((inside s).mp held) entry member

end Registered

end Store

/-- Where all variables are registered, a scalar is assigned to a name. If scopes from the inside
out have the name, the nearest one is meant, and its variable takes the value and keeps all else.
Otherwise a new variable is declared: in the scope itself, or for a global declaration in the
nearest scope that takes these in. No other binding and no other variable changes, and all variables
are registered again. -/
theorem assign_changes_one_binding (rounds n : Nat) (w : World) (registered : w.store.Registered)
    (scope : Ref .scope) (held : w.store.Has scope.cell) (isGlobal : Bool) (name : Text)
    (single : '.' ∉ name) (nonempty : name ≠ []) (noElement : name.getLast? ≠ some ']')
    (v : Value) (scalar : v.IsScalar) :
    let st := w.store
    let ev := Evaluator.ofRoom rounds (n + 1)
    ∃ owner later, (assign ev scope isGlobal name (.bare v)).exec w =
      (.ok (), { w with store := later }) ∧
      (st.FirstOutward (st.Declares name) scope owner ∧ st.isVisible scope name = true ∧
          (∃ r, (st.tableOf owner).find? name = some r ∧
            (lookup ev scope name).exec w = (.ok (.held r), w) ∧
            (later.tableOf owner).find? name = some r ∧
            later.var r = { st.var r with content := v.asRead }) ∨
        (∀ a, ¬ st.FirstOutward (st.Declares name) scope a) ∧ st.isVisible scope name = false ∧
          (if isGlobal then st.FirstOutward st.TakesGlobals scope owner else owner = scope) ∧
          ∃ r, ¬ st.Has r.cell ∧ (later.tableOf owner).find? name = some r ∧
          later.var r = Variable.ofValue st name (some owner) v) ∧
      (∀ s label r, st.Has s.cell → ¬ (s = owner ∧ label = name) →
        (st.tableOf s).find? label = some r →
        (later.tableOf s).find? label = some r ∧ later.var r = st.var r) ∧
      st.ChangesOnly later (fun s label => s = owner ∧ label = name) ∧ later.scopes = st.scopes ∧
      later.Registered := by
  intro st ev
  have ends := registered.rooted scope held
  have assigned :=
    assign_scalar rounds n w registered.closed held isGlobal single nonempty noElement scalar
  unfold Store.assigned at assigned
  cases found : st.resolve scope name with
  | some meaning =>
    obtain ⟨owner, r⟩ := meaning
    rw [found] at assigned
    obtain ⟨nearest, bound⟩ := Store.resolve_first found
    have inside := (registered.closed.resolve held found).1
    have changes := registered.changesOnly_overwrite inside bound v
    refine ⟨owner, st.overwrite r v, assigned,
      .inl ⟨nearest, ?_, r, bound, lookup_single ev w single found, ?_, ?_⟩, ?_, changes,
      (st.overwrite_rest r v).1, registered.overwrite r scalar⟩
    · rw [isVisible_single single, found]
      rfl
    · rw [(st.overwrite_frame r v).2.1, bound]
    · exact registered.var_overwrite inside bound v
    · intro s label q within other known
      exact registered.kept changes within other known
  | none =>
    rw [found] at assigned
    let target := st.targetOf scope isGlobal
    have nearest : if isGlobal then st.FirstOutward st.TakesGlobals scope target
        else target = scope := by
      cases isGlobal with
      | false => rfl
      | true => exact Store.globalOf_first ends
    have inside : st.Has target.cell := by
      refine registered.closed.ancestors held ?_
      cases isGlobal with
      | false => exact Store.self_mem_ancestors scope
      | true => exact Store.globalOf_mem_ancestors scope
    have known : st.HasAll v.cells := scalar.cells ▸ Store.hasAll_nil st
    have changes :=
      registered.changesOnly_bindName inside name (Variable.ofValue st name (some target) v)
    refine ⟨target, st.declared target name v, assigned,
      .inr ⟨Store.not_first_of_unknown ends found, ?_, nearest, ⟨st.vars.size⟩, Nat.lt_irrefl _,
        registered.find?_declared inside name v, Store.var_bindName_fresh target name _⟩, ?_,
        changes, rfl, registered.declared inside name known⟩
    · rw [isVisible_single single, found]
      rfl
    · intro s label q within other known
      exact registered.kept changes within other known

end CommandScript

import CommandScript.Proofs.Scoping

/-! Variables that are what their tags say. A store is described if every variable that some scope
binds has a content of the kind that its tag names, and leads to the members of the object that it
holds. Making cells and binding names to described variables keeps a store described. -/
namespace CommandScript

def Tag.describes : Tag → Value → Bool
  | .text, .text _ => true
  | .int, .int _ => true
  | .float, .float _ => true
  | .list, .list _ => true
  | .function, .node _ => true
  | .object, .record _ => true
  | _, _ => false

/-- The tag of a variable names the kind of its content, and for a class or an object the variable
has the scope of its statement for the members. -/
structure Variable.Described (st : Store) (x : Variable) : Prop where
  tag : x.tag.describes x.content = true
  members : ∀ q table node, x.content = .record q → (st.record q).body = some (table, node) →
    x.members = some (st.node node).scope

private theorem Variable.described_iff (st : Store) (x : Variable) :
    x.Described st ↔ x.tag.describes x.content = true ∧ (match x.content with
      | .record q => (st.record q).body.all fun body => x.members == some (st.node body.2).scope
      | _ => true) = true := by
  refine ⟨fun described => ⟨described.tag, ?_⟩, fun both => ⟨both.1, ?_⟩⟩
  · split
    · next q content =>
      rw [Option.all_eq_true]
      exact fun (table, node) body => beq_iff_eq.mpr (described.members q table node content body)
    · rfl
  · intro q table node content body
    have members := both.2
    rw [content] at members
    exact beq_iff_eq.mp (Option.all_eq_true _ _ |>.mp members _ body)

instance (st : Store) (x : Variable) : Decidable (x.Described st) :=
  decidable_of_iff _ (Variable.described_iff st x).symm

namespace Store

/-- Every variable that a scope binds is what its tag says. -/
def Described (st : Store) : Prop :=
  ∀ s, st.Has s.cell → ∀ name r, (name, r) ∈ st.tableOf s → (st.var r).Described st

instance (st : Store) : Decidable st.Described :=
  decidable_of_iff (∀ i, i < st.scopes.size → ∀ entry ∈ st.tableOf ⟨i⟩,
    (st.var entry.2).Described st)
    ⟨fun all s has name r member => all s.index has (name, r) member,
      fun described i inside entry member => described ⟨i⟩ inside entry.1 entry.2 member⟩

def Binds (st : Store) (r : Ref .variable) : Prop :=
  ∃ s name, st.Has (Ref.cell s) ∧ (name, r) ∈ st.tableOf s

theorem Described.var {st : Store} (described : st.Described) {r : Ref .variable}
    (bound : st.Binds r) : (st.var r).Described st := by
  obtain ⟨s, name, has, entry⟩ := bound
  exact described s has name r entry

theorem Binds.of_resolve {st : Store} (closed : st.Closed) {s owner : Ref .scope} {name : Text}
    {r : Ref .variable} (has : st.Has s.cell) (found : st.resolve s name = some (owner, r)) :
    st.Binds r :=
  ⟨owner, name, (closed.resolve has found).1, Table.mem_of_find? (resolve_inv found).2⟩

theorem IsEmpty.described {st : Store} (empty : st.IsEmpty) : st.Described :=
  fun s has => absurd has (empty.not_has s.cell)

end Store

variable {st later : Store}

theorem Variable.Described.extends {x : Variable} (described : x.Described st) (closed : st.Closed)
    (known : st.HasAll x.cells) (extended : st.Extends later) : x.Described later where
  tag := described.tag
  members := by
    intro q table node content body
    have has : st.Has q.cell := by
      have inside := (Store.hasAll_append.mp (Store.hasAll_append.mp known).1).2
      rw [content] at inside
      exact inside _ (List.mem_singleton.mpr rfl)
    have record : later.record q = st.record q := (extended.records q has).2
    rw [record] at body
    have same : later.node node = st.node node := (extended.nodes node (closed.body has body).2).2
    rw [same]
    exact described.members q table node content body

namespace Store

/-- Adding cells keeps a store described if the new scopes bind nothing but described variables. -/
theorem Described.extends (described : st.Described) (closed : st.Closed)
    (extended : st.Extends later)
    (fresh : ∀ s, later.Has s.cell → ¬ st.Has s.cell → ∀ name r, (name, r) ∈ later.tableOf s →
      (later.var r).Described later) :
    later.Described := by
  intro s has name r entry
  by_cases old : st.Has s.cell
  · have scope : later.scope s = st.scope s := (extended.scopes s old).2
    have table : later.tableOf s = st.tableOf s := by
      rw [tableOf, scope]
      exact (extended.tables _ (closed.table old)).2
    rw [table] at entry
    have held := closed.bound (closed.table old) entry
    have var : later.var r = st.var r := (extended.vars r held).2
    rw [var]
    exact (described s old name r entry).extends closed (closed.vars r held) extended
  · exact fresh s has old name r entry

theorem Described.congr (described : st.Described)
    (scopes : ∀ s : Ref .scope, later.Has s.cell → st.Has s.cell)
    (tables : ∀ s, later.tableOf s = st.tableOf s) (vars : later.vars = st.vars)
    (bodies : ∀ q, (later.record q).body = (st.record q).body) (nodes : later.nodes = st.nodes) :
    later.Described := by
  intro s has name r entry
  have node : ∀ n, later.node n = st.node n := fun n => by rw [Store.node, nodes, Store.node]
  have var : later.var r = st.var r := by rw [Store.var, vars, Store.var]
  rw [tables] at entry
  have before := described s (scopes s has) name r entry
  rw [var]
  refine ⟨before.tag, ?_⟩
  intro q table n content body
  rw [bodies] at body
  rw [node]
  exact before.members q table n content body

namespace Described

variable (described : st.Described) (closed : st.Closed)
include described

theorem updateList (l : Ref .list) (f : Array Item → Array Item) : (st.updateList l f).Described :=
  described.congr (fun _ has => has) (fun _ => rfl) rfl (fun _ => rfl) rfl

theorem updateRecord (q : Ref .record) (f : Record → Record) (body : ∀ r, (f r).body = r.body) :
    (st.updateRecord q f).Described := by
  refine described.congr (fun _ has => has) (fun _ => rfl) rfl (fun p => ?_) rfl
  rcases Arena.read_update_cases st.records q p f with same | ⟨_, _, changed⟩
  · exact congrArg Record.body same
  · exact (congrArg Record.body changed).trans (body _)

theorem updateScope (s : Ref .scope) (f : Scope → Scope) (same : ∀ x, (f x).table = x.table) :
    (st.updateScope s f).Described := by
  refine described.congr (fun p => (st.has_updateScope s f p.cell).mp) (fun p => ?_) rfl
    (fun _ => rfl) rfl
  have table : ((st.updateScope s f).scope p).table = (st.scope p).table := by
    rcases Arena.read_update_cases st.scopes s p f with kept | ⟨_, _, changed⟩
    · exact congrArg Scope.table kept
    · exact (congrArg Scope.table changed).trans (same _)
  rw [tableOf, table]
  rfl

theorem updateTable (t : Ref .table) (f : Table → Table)
    (fits : ∀ table name r, (name, r) ∈ f table → (name, r) ∈ table ∨ (st.var r).Described st) :
    (st.updateTable t f).Described := by
  intro s has name r entry
  have before : (st.var r).Described st := by
    rcases Arena.read_update_cases st.tables t (st.scope s).table f with same | ⟨_, _, changed⟩
    · have table : (st.updateTable t f).tableOf s = st.tableOf s := same
      exact described s has name r (table ▸ entry)
    · have table : (st.updateTable t f).tableOf s = f (st.tableOf s) := changed
      rcases fits _ name r (table ▸ entry) with old | new
      · exact described s has name r old
      · exact new
  exact ⟨before.tag, before.members⟩

theorem eraseName (t : Ref .table) (name : Text) : (st.updateTable t (·.erase name)).Described :=
  described.updateTable t _ fun _ _ _ entry => .inl (Table.mem_erase entry)

theorem insertName (t : Ref .table) (name : Text) {r : Ref .variable}
    (fits : (st.var r).Described st) : (st.updateTable t (Table.insert name r)).Described := by
  refine described.updateTable t _ fun table other q entry => ?_
  rcases Table.mem_insert entry with new | old
  · cases new
    exact .inr fits
  · exact .inl old

theorem shareTable (s : Ref .scope) {owner : Ref .scope} (held : st.Has owner.cell) :
    (st.updateScope s fun x => { x with table := (st.scope owner).table }).Described := by
  let share := fun x : Scope => { x with table := (st.scope owner).table }
  intro p has name r entry
  have before : (st.var r).Described st := by
    rcases Arena.read_update_cases st.scopes s p share with same | ⟨_, _, changed⟩
    · have table : (st.updateScope s share).tableOf p = st.tableOf p :=
        congrArg (fun x : Scope => st.table x.table) same
      exact described p ((st.has_updateScope s _ _).mp has) name r (table ▸ entry)
    · have scope : (st.updateScope s share).scope p = share (st.scope p) := changed
      have table : (st.updateScope s share).tableOf p = st.tableOf owner := by
        rw [tableOf, scope]
        rfl
      exact described owner held name r (table ▸ entry)
  exact ⟨before.tag, before.members⟩

include closed

theorem newVariable (x : Variable) : (st.newVariable x).2.Described :=
  described.extends closed (st.extends_newVariable x) fun _ has new => absurd has new

theorem newList (items : Array Item) : (st.newList items).2.Described :=
  described.extends closed (st.extends_newList items) fun _ has new => absurd has new

theorem newRecord (r : Record) : (st.newRecord r).2.Described :=
  described.extends closed (st.extends_newRecord r) fun _ has new => absurd has new

theorem newNode (n : Node) : (st.newNode n).2.Described :=
  described.extends closed (st.extends_newNode n) fun _ has new => absurd has new

theorem newScope (parent : Option (Ref .scope)) : (st.newScope parent).2.Described := by
  refine described.extends closed (st.extends_newScope parent) fun s has new name r entry => ?_
  rcases (st.has_newScope parent s).mp has with old | rfl
  · exact absurd old new
  · rw [st.tableOf_newScope parent] at entry
    exact absurd entry List.not_mem_nil

theorem bindName {target : Ref .scope} {name : Text} {x : Variable} (held : st.Has target.cell)
    (known : st.HasAll x.cells) (fits : x.Described st) :
    (st.bindName target name x).Described := by
  have extended := st.extends_newVariable x
  have sees : ∀ {y : Variable}, y.Described st → st.HasAll y.cells →
      y.Described (st.bindName target name x) := by
    intro y before inside
    exact ⟨before.tag, (before.extends closed inside extended).members⟩
  intro s has other r entry
  rw [tableOf_bindName target s name x (closed.table held)] at entry
  have old : (other, r) ∈ st.tableOf s → ((st.bindName target name x).var r).Described
      (st.bindName target name x) := by
    intro member
    have bound := closed.bound (closed.table has) member
    rw [var_bindName_old bound]
    exact sees (described s has other r member) (closed.vars r bound)
  split at entry
  · rcases Table.mem_insert entry with new | member
    · obtain ⟨rfl, rfl⟩ := Prod.mk.inj new
      rw [var_bindName_fresh]
      exact sees fits known
    · exact old member
  · exact old entry

end Described

end Store

end CommandScript

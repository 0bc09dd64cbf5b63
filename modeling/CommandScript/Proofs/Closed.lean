import CommandScript.Store.Graph
import CommandScript.Store.Scope
import Mathlib.Data.List.Basic

/-! Stores without loose ends: every cell that a cell refers to is in the store. All ways in which
programs change a store keep it so, and no cell is ever lost. -/
namespace CommandScript

def Scope.cells (s : Scope) : List Cell := (s.parent.map Ref.cell).toList ++ [s.table.cell]

def Table.cells (t : Table) : List Cell := t.map (·.2.cell)

def Variable.cells (x : Variable) : List Cell :=
  (x.home.map Ref.cell).toList ++ x.content.cells ++ (x.members.map Ref.cell).toList

def Node.cells (n : Node) : List Cell := n.children.map Ref.cell ++ [n.scope.cell]

namespace Store

def Grows (st later : Store) : Prop := ∀ k, st.count k ≤ later.count k

theorem Grows.refl (st : Store) : st.Grows st := fun _ => Nat.le_refl _

theorem Grows.trans {st middle later : Store} (first : st.Grows middle)
    (second : middle.Grows later) : st.Grows later :=
  fun k => Nat.le_trans (first k) (second k)

theorem Has.mono {st later : Store} {c : Cell} (has : st.Has c) (grows : st.Grows later) :
    later.Has c :=
  Nat.lt_of_lt_of_le has (grows c.kind)

theorem HasAll.mono {st later : Store} {cs : List Cell} (has : st.HasAll cs)
    (grows : st.Grows later) :
    later.HasAll cs := fun c member => (has c member).mono grows

theorem hasAll_append {st : Store} {first second : List Cell} :
    st.HasAll (first ++ second) ↔ st.HasAll first ∧ st.HasAll second := by
  simp only [HasAll, List.mem_append, or_imp, forall_and]

theorem hasAll_cons {st : Store} {c : Cell} {cs : List Cell} :
    st.HasAll (c :: cs) ↔ st.Has c ∧ st.HasAll cs := by
  simp only [HasAll, List.mem_cons, forall_eq_or_imp]

theorem hasAll_nil (st : Store) : st.HasAll [] := fun _ member => absurd member List.not_mem_nil

theorem hasAll_option {st : Store} {k : Kind} {r : Option (Ref k)} :
    st.HasAll (r.map Ref.cell).toList ↔ ∀ q, r = some q → st.Has q.cell := by
  cases r <;> simp [HasAll]

structure Within (st later : Store) : Prop where
  scopes : st.scopes.All fun s => later.HasAll s.cells
  tables : st.tables.All fun t => later.HasAll t.cells
  vars : st.vars.All fun x => later.HasAll x.cells
  lists : st.lists.All fun items => later.HasAll (Item.cellsOf items)
  records : st.records.All fun r => later.HasAll r.cells
  nodes : st.nodes.All fun n => later.HasAll n.cells

/-- Every cell that a cell refers to is in the store. -/
abbrev Closed (st : Store) : Prop := st.Within st

instance (st later : Store) : Decidable (st.Within later) :=
  decidable_of_iff (_ ∧ _ ∧ _ ∧ _ ∧ _ ∧ _)
    ⟨fun ⟨scopes, tables, vars, lists, records, nodes⟩ =>
      ⟨scopes, tables, vars, lists, records, nodes⟩, fun within =>
        ⟨within.scopes, within.tables, within.vars, within.lists, within.records, within.nodes⟩⟩

theorem Within.mono {st middle later : Store} (within : st.Within middle)
    (grows : middle.Grows later) : st.Within later where
  scopes := within.scopes.imp fun _ has => has.mono grows
  tables := within.tables.imp fun _ has => has.mono grows
  vars := within.vars.imp fun _ has => has.mono grows
  lists := within.lists.imp fun _ has => has.mono grows
  records := within.records.imp fun _ has => has.mono grows
  nodes := within.nodes.imp fun _ has => has.mono grows

theorem Closed.edges {st : Store} (closed : st.Closed) (c : Cell) (has : st.Has c) :
    st.HasAll (st.edges c) := by
  match c with
  | ⟨.scope, index⟩ => exact closed.scopes ⟨index⟩ has
  | ⟨.table, index⟩ => exact closed.tables ⟨index⟩ has
  | ⟨.variable, index⟩ => exact closed.vars ⟨index⟩ has
  | ⟨.list, index⟩ => exact closed.lists ⟨index⟩ has
  | ⟨.record, index⟩ => exact closed.records ⟨index⟩ has
  | ⟨.node, index⟩ => exact closed.nodes ⟨index⟩ has

def IsEmpty (st : Store) : Prop := ∀ k, st.count k = 0

theorem IsEmpty.not_has {st : Store} (empty : st.IsEmpty) (c : Cell) : ¬ st.Has c := by
  rw [Has, empty]
  exact Nat.not_lt_zero _

theorem IsEmpty.closed {st : Store} (empty : st.IsEmpty) : st.Closed := by
  refine ⟨?_, ?_, ?_, ?_, ?_, ?_⟩ <;> exact fun r held => absurd held (empty.not_has r.cell)

theorem isEmpty_empty : ({} : Store).IsEmpty := fun k => by cases k <;> rfl

theorem closed_empty : ({} : Store).Closed := isEmpty_empty.closed

section Members

variable {st : Store}

theorem has_of_mem_table {t : Ref .table} {entry : Text × Ref .variable}
    (member : entry ∈ st.table t) : st.Has t.cell := by
  by_contra absent
  rw [table, Arena.read_of_not_holds absent] at member
  cases member

theorem has_of_mem_list {l : Ref .list} {item : Item} (member : item ∈ (st.list l).toList) :
    st.Has l.cell := by
  by_contra absent
  rw [list, Arena.read_of_not_holds absent] at member
  cases member

theorem has_of_mem_entries {q : Ref .record} {entry : Key × Item}
    (member : entry ∈ (st.record q).entries) : st.Has q.cell := by
  by_contra absent
  rw [record, Arena.read_of_not_holds absent] at member
  cases member

end Members

namespace Closed

variable {st : Store}

theorem parent (closed : st.Closed) {s p : Ref .scope} (has : st.Has s.cell)
    (above : (st.scope s).parent = some p) : st.Has p.cell :=
  hasAll_option.mp (hasAll_append.mp (closed.scopes s has)).1 p above

theorem table (closed : st.Closed) {s : Ref .scope} (has : st.Has s.cell) :
    st.Has (st.scope s).table.cell :=
  (hasAll_append.mp (closed.scopes s has)).2 _ (List.mem_singleton.mpr rfl)

theorem bound (closed : st.Closed) {t : Ref .table} (has : st.Has t.cell) {name : Text}
    {r : Ref .variable} (entry : (name, r) ∈ st.table t) : st.Has r.cell :=
  closed.tables t has _ (List.mem_map_of_mem entry)

theorem content (closed : st.Closed) {r : Ref .variable} (has : st.Has r.cell) :
    st.HasAll (st.var r).content.cells :=
  (hasAll_append.mp (hasAll_append.mp (closed.vars r has)).1).2

theorem home (closed : st.Closed) {r : Ref .variable} (has : st.Has r.cell) {h : Ref .scope}
    (known : (st.var r).home = some h) : st.Has h.cell :=
  hasAll_option.mp (hasAll_append.mp (hasAll_append.mp (closed.vars r has)).1).1 h known

theorem members (closed : st.Closed) {r : Ref .variable} (has : st.Has r.cell) {m : Ref .scope}
    (known : (st.var r).members = some m) : st.Has m.cell :=
  hasAll_option.mp (hasAll_append.mp (closed.vars r has)).2 m known

theorem item (closed : st.Closed) {l : Ref .list} (has : st.Has l.cell) {i : Item}
    (element : i ∈ (st.list l).toList) :
    st.HasAll i.cells := fun c member =>
  closed.lists l has c (List.mem_flatMap.mpr ⟨i, element, member⟩)

theorem body (closed : st.Closed) {q : Ref .record} (has : st.Has q.cell) {t : Ref .table}
    {n : Ref .node} (known : (st.record q).body = some (t, n)) : st.Has t.cell ∧ st.Has n.cell := by
  have all := (hasAll_append.mp (closed.records q has)).1
  change (st.records.read q).body = _ at known
  rw [known] at all
  exact ⟨all _ (by simp), all _ (by simp)⟩

theorem entry (closed : st.Closed) {q : Ref .record} (has : st.Has q.cell) {key : Key} {i : Item}
    (known : (key, i) ∈ (st.record q).entries) : st.HasAll i.cells := fun c member =>
  (hasAll_append.mp (closed.records q has)).2 c (List.mem_flatMap.mpr ⟨(key, i), known, member⟩)

theorem child (closed : st.Closed) {n child : Ref .node} (has : st.Has n.cell)
    (below : child ∈ (st.node n).children) : st.Has child.cell :=
  (hasAll_append.mp (closed.nodes n has)).1 _ (List.mem_map_of_mem below)

theorem nodeScope (closed : st.Closed) {n : Ref .node} (has : st.Has n.cell) :
    st.Has (st.node n).scope.cell :=
  (hasAll_append.mp (closed.nodes n has)).2 _ (List.mem_singleton.mpr rfl)

end Closed

/-- A later store has all cells of an earlier one as they were. -/
structure Extends (st later : Store) : Prop where
  nans : later.sameNaN = st.sameNaN
  scopes : st.scopes.Extends later.scopes
  tables : st.tables.Extends later.tables
  vars : st.vars.Extends later.vars
  lists : st.lists.Extends later.lists
  records : st.records.Extends later.records
  nodes : st.nodes.Extends later.nodes

theorem Extends.refl (st : Store) : st.Extends st :=
  ⟨rfl, .refl _, .refl _, .refl _, .refl _, .refl _, .refl _⟩

theorem Extends.trans {st middle later : Store} (first : st.Extends middle)
    (second : middle.Extends later) : st.Extends later :=
  ⟨second.nans.trans first.nans, first.scopes.trans second.scopes, first.tables.trans second.tables,
    first.vars.trans second.vars,
    first.lists.trans second.lists, first.records.trans second.records,
      first.nodes.trans second.nodes⟩

theorem Extends.grows {st later : Store} (extended : st.Extends later) : st.Grows later := by
  rintro (_ | _)
  · exact extended.scopes.size_le
  · exact extended.tables.size_le
  · exact extended.vars.size_le
  · exact extended.lists.size_le
  · exact extended.records.size_le
  · exact extended.nodes.size_le

theorem extends_newVariable (st : Store) (x : Variable) : st.Extends (st.newVariable x).2 :=
  ⟨rfl, .refl _, .refl _, Arena.extends_alloc _ _, .refl _, .refl _, .refl _⟩

theorem extends_newList (st : Store) (items : Array Item) : st.Extends (st.newList items).2 :=
  ⟨rfl, .refl _, .refl _, .refl _, Arena.extends_alloc _ _, .refl _, .refl _⟩

theorem extends_newRecord (st : Store) (r : Record) : st.Extends (st.newRecord r).2 :=
  ⟨rfl, .refl _, .refl _, .refl _, .refl _, Arena.extends_alloc _ _, .refl _⟩

theorem extends_newScope (st : Store) (parent : Option (Ref .scope)) :
    st.Extends (st.newScope parent).2 :=
  ⟨rfl, Arena.extends_alloc _ _, Arena.extends_alloc _ _, .refl _, .refl _, .refl _, .refl _⟩

theorem extends_newNode (st : Store) (node : Node) : st.Extends (st.newNode node).2 :=
  ⟨rfl, .refl _, .refl _, .refl _, .refl _, .refl _, Arena.extends_alloc _ _⟩

section Changes

variable (st : Store)

variable {st} in
theorem var_updateVariable_here {r : Ref .variable} (f : Variable → Variable)
    (held : st.Has r.cell) :
    (st.updateVariable r f).var r = f (st.var r) := Arena.read_update_here st.vars r f held

theorem var_updateVariable_elsewhere {r other : Ref .variable} (f : Variable → Variable)
    (different : other ≠ r) : (st.updateVariable r f).var other = st.var other :=
      Arena.read_update_elsewhere st.vars r other f different

theorem has_newScope (parent : Option (Ref .scope)) (s : Ref .scope) :
    (st.newScope parent).2.Has s.cell ↔ st.Has s.cell ∨ s = (st.newScope parent).1 :=
  Arena.holds_alloc st.scopes _ s

theorem tableOf_newScope (parent : Option (Ref .scope)) :
    (st.newScope parent).2.tableOf (st.newScope parent).1 = [] := by
  have scope : (st.newScope parent).2.scope (st.newScope parent).1 =
      { parent, table := (st.tables.alloc []).1 } :=
    Arena.read_alloc_fresh _ _
  rw [tableOf, scope]
  exact Arena.read_alloc_fresh _ _

theorem has_updateScope (s : Ref .scope) (f : Scope → Scope) (c : Cell) :
    (st.updateScope s f).Has c ↔ st.Has c := by
  obtain ⟨_ | _, _⟩ := c <;> simp [Has, updateScope, count]

theorem grows_updateScope (r : Ref .scope) (f : Scope → Scope) : st.Grows (st.updateScope r f) := by
  rintro (_ | _) <;> simp [updateScope, count]

theorem grows_updateTable (r : Ref .table) (f : Table → Table) : st.Grows (st.updateTable r f) := by
  rintro (_ | _) <;> simp [updateTable, count]

theorem grows_updateVariable (r : Ref .variable) (f : Variable → Variable) :
    st.Grows (st.updateVariable r f) := by
  rintro (_ | _) <;> simp [updateVariable, count]

theorem grows_updateList (r : Ref .list) (f : Array Item → Array Item) :
    st.Grows (st.updateList r f) := by
  rintro (_ | _) <;> simp [updateList, count]

theorem grows_updateRecord (r : Ref .record) (f : Record → Record) :
    st.Grows (st.updateRecord r f) := by
  rintro (_ | _) <;> simp [updateRecord, count]

end Changes

namespace Closed

variable {st : Store}

theorem newVariable (closed : st.Closed) {x : Variable} (known : st.HasAll x.cells) :
    (st.newVariable x).2.Closed :=
  have grows := (st.extends_newVariable x).grows
  { closed.mono grows with vars := (closed.mono grows).vars.alloc (known.mono grows) }

theorem newList (closed : st.Closed) {items : Array Item} (known : st.HasAll (Item.cellsOf items)) :
    (st.newList items).2.Closed :=
  have grows := (st.extends_newList items).grows
  { closed.mono grows with lists := (closed.mono grows).lists.alloc (known.mono grows) }

theorem newRecord (closed : st.Closed) {r : Record} (known : st.HasAll r.cells) :
    (st.newRecord r).2.Closed :=
  have grows := (st.extends_newRecord r).grows
  { closed.mono grows with records := (closed.mono grows).records.alloc (known.mono grows) }

theorem newNode (closed : st.Closed) {n : Node} (known : st.HasAll n.cells) :
    (st.newNode n).2.Closed :=
  have grows := (st.extends_newNode n).grows
  { closed.mono grows with nodes := (closed.mono grows).nodes.alloc (known.mono grows) }

theorem newScope (closed : st.Closed) {parent : Option (Ref .scope)}
    (known : ∀ p, parent = some p → st.Has p.cell) : (st.newScope parent).2.Closed :=
  have grows := (st.extends_newScope parent).grows
  { closed.mono grows with
    scopes := (closed.mono grows).scopes.alloc <| hasAll_append.mpr
      ⟨hasAll_option.mpr fun p above => (known p above).mono grows,
        hasAll_cons.mpr ⟨Arena.holds_alloc_fresh st.tables [], hasAll_nil _⟩⟩
    tables := (closed.mono grows).tables.alloc (hasAll_nil _) }

theorem updateScope (closed : st.Closed) (s : Ref .scope) (f : Scope → Scope)
    (known : st.Has s.cell → st.HasAll (f (st.scope s)).cells) : (st.updateScope s f).Closed :=
  have grows := st.grows_updateScope s f
  { closed.mono grows with
    scopes := (closed.mono grows).scopes.update s f fun held => (known held).mono grows }

theorem updateTable (closed : st.Closed) (t : Ref .table) (f : Table → Table)
    (known : st.Has t.cell → st.HasAll (f (st.table t)).cells) : (st.updateTable t f).Closed :=
  have grows := st.grows_updateTable t f
  { closed.mono grows with
    tables := (closed.mono grows).tables.update t f fun held => (known held).mono grows }

theorem updateVariable (closed : st.Closed) (r : Ref .variable) (f : Variable → Variable)
    (known : st.Has r.cell → st.HasAll (f (st.var r)).cells) : (st.updateVariable r f).Closed :=
  have grows := st.grows_updateVariable r f
  { closed.mono grows with
    vars := (closed.mono grows).vars.update r f fun held => (known held).mono grows }

theorem updateList (closed : st.Closed) (l : Ref .list) (f : Array Item → Array Item)
    (known : st.Has l.cell → st.HasAll (Item.cellsOf (f (st.list l)))) :
    (st.updateList l f).Closed :=
  have grows := st.grows_updateList l f
  { closed.mono grows with
    lists := (closed.mono grows).lists.update l f fun held => (known held).mono grows }

theorem dropFirst (closed : st.Closed) (l : Ref .list) :
    (st.updateList l (·.toList.tail.toArray)).Closed := by
  refine closed.updateList l _ fun held c member => ?_
  obtain ⟨item, inside, edge⟩ := List.mem_flatMap.mp member
  exact closed.item held (List.mem_of_mem_tail inside) c edge

theorem updateRecord (closed : st.Closed) (q : Ref .record) (f : Record → Record)
    (known : st.Has q.cell → st.HasAll (f (st.record q)).cells) : (st.updateRecord q f).Closed :=
  have grows := st.grows_updateRecord q f
  { closed.mono grows with
    records := (closed.mono grows).records.update q f fun held => (known held).mono grows }

end Closed

end Store

end CommandScript

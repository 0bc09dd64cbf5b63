import CommandScript.Store.Graph

/-!
Copying all that can be reached from a cell. The copy has new cells that refer to each other as
the old ones do; the old cells are not changed.
-/
namespace CommandScript

structure Renaming where
  indices : Array (Option Nat)

namespace Renaming

variable (st : Store) (names : Renaming)

/-- The new reference for a reference; one without a new index stays as it is. -/
def ref {k : Kind} (r : Ref k) : Ref k := ⟨(names.indices.getD (st.place r.cell) none).getD r.index⟩

def value : Value → Value
  | .list r => .list (names.ref st r)
  | .node r => .node (names.ref st r)
  | .record r => .record (names.ref st r)
  | v => v

def item : Item → Item
  | .bare v => .bare (names.value st v)
  | .held r => .held (names.ref st r)

def scope (s : Scope) : Scope :=
  { s with parent := s.parent.map (names.ref st), table := names.ref st s.table }

def table (t : Table) : Table := t.map fun (name, r) => (name, names.ref st r)

def var (v : Variable) : Variable :=
  { v with
    home := v.home.map (names.ref st)
    content := names.value st v.content
    members := v.members.map (names.ref st) }

def record (r : Record) : Record :=
  { body := r.body.map fun (vars, node) => (names.ref st vars, names.ref st node)
    entries := r.entries.map fun (key, i) => (key, names.item st i) }

def node (n : Node) : Node :=
  { n with children := n.children.map (names.ref st), scope := names.ref st n.scope }

end Renaming

namespace Store

def reserve (st : Store) : Kind → Nat × Store
  | .scope => let (r, scopes) := st.scopes.alloc default; (r.index, { st with scopes })
  | .table => let (r, tables) := st.tables.alloc default; (r.index, { st with tables })
  | .variable => let (r, vars) := st.vars.alloc default; (r.index, { st with vars })
  | .list => let (r, lists) := st.lists.alloc default; (r.index, { st with lists })
  | .record => let (r, records) := st.records.alloc default; (r.index, { st with records })
  | .node => let (r, nodes) := st.nodes.alloc default; (r.index, { st with nodes })

def reserveAll (old : Store) : List Cell → Store × Renaming → Store × Renaming
  | [], acc => acc
  | c :: rest, (st, names) =>
    let (index, st) := st.reserve c.kind
    reserveAll old rest (st, ⟨names.indices.setIfInBounds (old.place c) (some index)⟩)

def fill (old : Store) (names : Renaming) (st : Store) (c : Cell) : Store :=
  match c.kind with
  | .scope =>
    let r : Ref .scope := ⟨c.index⟩
    { st with scopes := st.scopes.write (names.ref old r) (names.scope old (old.scope r)) }
  | .table =>
    let r : Ref .table := ⟨c.index⟩
    { st with tables := st.tables.write (names.ref old r) (names.table old (old.table r)) }
  | .variable =>
    let r : Ref .variable := ⟨c.index⟩
    { st with vars := st.vars.write (names.ref old r) (names.var old (old.var r)) }
  | .list =>
    let r : Ref .list := ⟨c.index⟩
    { st with lists := st.lists.write (names.ref old r) ((old.list r).map (names.item old)) }
  | .record =>
    let r : Ref .record := ⟨c.index⟩
    { st with records := st.records.write (names.ref old r) (names.record old (old.record r)) }
  | .node =>
    let r : Ref .node := ⟨c.index⟩
    { st with nodes := st.nodes.write (names.ref old r) (names.node old (old.node r)) }

def copyCells (old : Store) (cells : List Cell) : Store × Renaming :=
  let (st, names) := reserveAll old cells (old, ⟨Array.replicate old.total none⟩)
  (cells.foldl (fill old names) st, names)

def clone (st : Store) (r : Ref .record) : Ref .record × Store :=
  let (copied, names) := st.copyCells (st.reach r.cell)
  (names.ref st r, copied)

end Store

end CommandScript

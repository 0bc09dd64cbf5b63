import CommandScript.Store.Basic

/-!
The cells of a store as a graph: what a cell refers to, and what can be reached from it.
-/
namespace CommandScript

structure Cell where
  kind : Kind
  index : Nat
deriving DecidableEq, Repr

def Ref.cell {k : Kind} (r : Ref k) : Cell := ⟨k, r.index⟩

def Spot.cell : Spot → Cell
  | .content r => r.cell
  | .element r _ => r.cell
  | .entry r _ => r.cell

def Value.cells : Value → List Cell
  | .list r => [r.cell]
  | .node r => [r.cell]
  | .record r => [r.cell]
  | _ => []

def Item.cells : Item → List Cell
  | .bare v => v.cells
  | .held r => [r.cell]

def Item.cellsOf (items : Array Item) : List Cell := items.toList.flatMap Item.cells

def Record.cells (r : Record) : List Cell :=
  (match r.body with
    | some (vars, node) => [vars.cell, node.cell]
    | none => []) ++ r.entries.flatMap (·.2.cells)

namespace Store

def edges (st : Store) (c : Cell) : List Cell :=
  match c.kind with
  | .scope =>
    let s := st.scope ⟨c.index⟩
    (s.parent.map Ref.cell).toList ++ [s.table.cell]
  | .table => (st.table ⟨c.index⟩).map (·.2.cell)
  | .variable =>
    let v := st.var ⟨c.index⟩
    (v.home.map Ref.cell).toList ++ v.content.cells ++ (v.members.map Ref.cell).toList
  | .list => (st.list ⟨c.index⟩).toList.flatMap Item.cells
  | .record =>
    let r := st.record ⟨c.index⟩
    (match r.body with
      | some (vars, node) => [vars.cell, node.cell]
      | none => []) ++ r.entries.flatMap (·.2.cells)
  | .node =>
    let n := st.node ⟨c.index⟩
    n.children.map Ref.cell ++ [n.scope.cell]

inductive Reaches (st : Store) (start : Cell) : Cell → Prop where
  | refl : Reaches st start start
  | step {c d : Cell} (h : Reaches st start c) (edge : d ∈ st.edges c) : Reaches st start d

def count (st : Store) : Kind → Nat
  | .scope => st.scopes.size
  | .table => st.tables.size
  | .variable => st.vars.size
  | .list => st.lists.size
  | .record => st.records.size
  | .node => st.nodes.size

def Has (st : Store) (c : Cell) : Prop := c.index < st.count c.kind

instance (st : Store) (c : Cell) : Decidable (st.Has c) := inferInstanceAs (Decidable (_ < _))

def HasAll (st : Store) (cs : List Cell) : Prop := ∀ c ∈ cs, st.Has c

instance (st : Store) (cs : List Cell) : Decidable (st.HasAll cs) :=
  inferInstanceAs (Decidable (∀ c ∈ cs, _))

def allCells (st : Store) : List Cell :=
  [Kind.scope, .table, .variable, .list, .record, .node].flatMap fun k =>
    (List.range (st.count k)).map (⟨k, ·⟩)

def place (st : Store) (c : Cell) : Nat :=
  c.index + match c.kind with
    | .scope => 0
    | .table => st.count .scope
    | .variable => st.count .scope + st.count .table
    | .list => st.count .scope + st.count .table + st.count .variable
    | .record => st.count .scope + st.count .table + st.count .variable + st.count .list
    | .node =>
      st.count .scope + st.count .table + st.count .variable + st.count .list + st.count .record

def total (st : Store) : Nat := st.place ⟨.node, st.count .node⟩

/-- How much deeper a walk is below a cell than above it. -/
def weight : Kind → Nat
  | .scope | .variable => 4
  | .node => 6
  | .table | .list | .record => 2

/-- A walk through the graph: which cells were met (by place), the cells in the order in which
they were met, the last one first, and the greatest depth. -/
structure Walk where
  seen : Array Bool
  met : List Cell := []
  deepest : Nat := 0

def walk (st : Store) : Nat → List (Cell × Nat) → Walk → Walk
  | 0, _, w => w
  | _ + 1, [], w => w
  | fuel + 1, (c, depth) :: rest, w =>
    let place := st.place c
    if w.seen.getD place true then st.walk fuel rest w
    else
      let below := depth + weight c.kind
      st.walk fuel ((st.edges c).map (·, below) ++ rest)
        { seen := w.seen.setIfInBounds place true, met := c :: w.met,
          deepest := max w.deepest below }

/-- The walk from a cell over all that can be reached from it. Each cell is put on the stack at
most once for every reference to it. -/
def walkFrom (st : Store) (start : Cell) : Walk :=
  let steps := st.allCells.foldl (fun n c => n + (st.edges c).length) 1
  st.walk (steps + 1) [(start, 0)] { seen := Array.replicate st.total false }

def reach (st : Store) (start : Cell) : List Cell := (st.walkFrom start).met.reverse

end Store

end CommandScript

import CommandScript.Number.Basic
import CommandScript.Store.Arena
import CommandScript.Text.Basic

/-!
What a program works on: values, the variables that hold them, the scopes and tables that hold
the variables, lists, classes with their objects, and the statements that functions are made of.
-/
namespace CommandScript

/-- A value. Lists, functions and classes are shared: the value is a reference to them. -/
inductive Value where
  | nothing
  | bool (b : Bool)
  | int (n : Int)
  | float (x : Float)
  | text (s : Text)
  | list (r : Ref .list)
  | node (r : Ref .node)
  | record (r : Ref .record)

instance : Inhabited Value := ⟨.nothing⟩

/-- An element of a list is a bare value, or a variable that holds one. -/
inductive Item where
  | bare (v : Value)
  | held (r : Ref .variable)

instance : Inhabited Item := ⟨.bare .nothing⟩

instance : Spells Item where
  spells c
    | .bare (.text [d]) => c == d
    | _ => false

/-- What a variable was made to hold. The tag stays when another value is assigned. -/
inductive Tag where
  | text
  | int
  | float
  | list
  | function
  | object
  | truth
  | unknown
deriving DecidableEq, Repr

def Tag.name : Tag → Text
  | text => "str".toList
  | int => "int".toList
  | float => "float".toList
  | list => "list".toList
  | function => "node".toList
  | object => "class".toList
  | truth => "bool".toList
  | unknown => "variable".toList

/-- A variable: its name, the scope that it reports changes to, its content with the tag, and
for a class or an object the scope of its members. -/
structure Variable where
  name : Option Text
  home : Option (Ref .scope)
  content : Value
  tag : Tag
  members : Option (Ref .scope) := none

instance : Inhabited Variable := ⟨⟨none, none, .nothing, .unknown, none⟩⟩

/-- What a variable reads as in an expression: a text comes with single quotes. -/
def Variable.reading (x : Variable) : Except Fault Value :=
  if x.tag = .text then
    match x.content with
    | .text s => .ok (.text s.encloseSingle)
    | _ => .error .wrongKind
  else .ok x.content

/-- A scope: the scope around it, its table of variables, and whether it is sealed. A sealed
scope keeps the global declarations made inside it. -/
structure Scope where
  parent : Option (Ref .scope)
  table : Ref .table
  isSealed : Bool := false

instance : Inhabited Scope := ⟨⟨none, ⟨0⟩, false⟩⟩

abbrev Table := List (Text × Ref .variable)

namespace Table

def find? (t : Table) (name : Text) : Option (Ref .variable) := t.lookup name

/-- Binds a name; a name that is bound already keeps its place. -/
def insert (name : Text) (r : Ref .variable) : Table → Table
  | [] => [(name, r)]
  | (n, old) :: rest => if n = name then (name, r) :: rest else (n, old) :: insert name r rest

def erase (t : Table) (name : Text) : Table := t.filter (·.1 ≠ name)

end Table

structure Node where
  command : Text
  index : Nat
  children : List (Ref .node)
  scope : Ref .scope
  interactive : Bool

instance : Inhabited Node := ⟨⟨[], 0, [], ⟨0⟩, false⟩⟩

inductive Key where
  | text (s : Text)
  | int (n : Int)
deriving DecidableEq, Repr

/-- A class or an object has a body: its table of variables and its statement. Either kind of
record may have further entries. -/
structure Record where
  body : Option (Ref .table × Ref .node)
  entries : List (Key × Item) := []

instance : Inhabited Record := ⟨⟨none, []⟩⟩

namespace Record

/-- The number of entries, where the body counts as two. -/
def size (r : Record) : Nat := (if r.body.isSome then 2 else 0) + r.entries.length

def find? (r : Record) (key : Key) : Option Item := r.entries.lookup key

def putEntry (key : Key) (item : Item) : List (Key × Item) → List (Key × Item)
  | [] => [(key, item)]
  | (k, old) :: rest => if k = key then (key, item) :: rest else (k, old) :: putEntry key item rest

def put (r : Record) (key : Key) (item : Item) : Record :=
  { r with entries := putEntry key item r.entries }

end Record

inductive Spot where
  | content (r : Ref .variable)
  | element (r : Ref .list) (i : Nat)
  | entry (r : Ref .record) (key : Key)
deriving DecidableEq, Repr

structure Store where
  scopes : Arena .scope Scope := ∅
  tables : Arena .table Table := ∅
  vars : Arena .variable Variable := ∅
  lists : Arena .list (Array Item) := ∅
  records : Arena .record Record := ∅
  nodes : Arena .node Node := ∅
  /-- whether two spots that hold a NaN hold the same one; no value tells -/
  sameNaN : Spot → Spot → Bool := fun _ _ => false

namespace Store

def scope (st : Store) (r : Ref .scope) : Scope := st.scopes.read r
def table (st : Store) (r : Ref .table) : Table := st.tables.read r
def var (st : Store) (r : Ref .variable) : Variable := st.vars.read r
def list (st : Store) (r : Ref .list) : Array Item := st.lists.read r
def record (st : Store) (r : Ref .record) : Record := st.records.read r
def node (st : Store) (r : Ref .node) : Node := st.nodes.read r

def newVariable (st : Store) (v : Variable) : Ref .variable × Store :=
  let (r, vars) := st.vars.alloc v
  (r, { st with vars })

def newList (st : Store) (items : Array Item) : Ref .list × Store :=
  let (r, lists) := st.lists.alloc items
  (r, { st with lists })

def newRecord (st : Store) (record : Record) : Ref .record × Store :=
  let (r, records) := st.records.alloc record
  (r, { st with records })

def newNode (st : Store) (node : Node) : Ref .node × Store :=
  let (r, nodes) := st.nodes.alloc node
  (r, { st with nodes })

def newScope (st : Store) (parent : Option (Ref .scope)) : Ref .scope × Store :=
  let (table, tables) := st.tables.alloc []
  let (r, scopes) := st.scopes.alloc { parent, table }
  (r, { st with scopes, tables })

def updateScope (st : Store) (r : Ref .scope) (f : Scope → Scope) : Store :=
  { st with scopes := st.scopes.update r f }

def updateTable (st : Store) (r : Ref .table) (f : Table → Table) : Store :=
  { st with tables := st.tables.update r f }

def updateVariable (st : Store) (r : Ref .variable) (f : Variable → Variable) : Store :=
  { st with vars := st.vars.update r f }

def updateList (st : Store) (r : Ref .list) (f : Array Item → Array Item) : Store :=
  { st with lists := st.lists.update r f }

def updateRecord (st : Store) (r : Ref .record) (f : Record → Record) : Store :=
  { st with records := st.records.update r f }

def tableOf (st : Store) (r : Ref .scope) : Table := st.table (st.scope r).table

def bindName (st : Store) (scope : Ref .scope) (name : Text) (v : Variable) : Store :=
  let (r, st) := st.newVariable v
  st.updateTable (st.scope scope).table (Table.insert name r)

end Store

namespace Value

def number? : Value → Option Number
  | bool b => some (.int (if b then 1 else 0))
  | int n => some (.int n)
  | float x => some (.float x)
  | _ => none

def ofNumber : Number → Value
  | .int n => int n
  | .float x => float x

end Value

end CommandScript

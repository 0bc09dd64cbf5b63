import CommandScript.Program
import CommandScript.Proofs.Closed
import CommandScript.Proofs.Reading

/-! The scopes of a planted program mirror its blocks. Each block has a scope that was made for it
alone, inside the scope of the block around it; all other statements run in the scope of the block
that they stand in, and nothing that was in the store before is changed. -/
namespace CommandScript.Store
open CommandScript.Tree

mutual

theorem extends_plant (scope : Ref .scope) (interactive : Bool) (t : Tree) (st : Store) :
    st.Extends (plant scope interactive t st).2 := by
  cases t with
  | leaf command index => exact extends_newNode _ _
  | block command index body =>
    simp only [plant]
    exact ((extends_newScope st _).trans (extends_plantAll _ _ body _)).trans (extends_newNode _ _)

theorem extends_plantAll (scope : Ref .scope) (interactive : Bool) (trees : List Tree)
    (st : Store) : st.Extends (plantAll scope interactive trees st).2 := by
  cases trees with
  | nil => exact .refl _
  | cons t rest =>
    simp only [plantAll]
    exact (extends_plant _ _ t _).trans (extends_plantAll _ _ rest _)

end

mutual

private theorem plant_nodes_size (scope : Ref .scope) (interactive : Bool) (t : Tree) (st : Store) :
    st.nodes.size + depth t ≤ (plant scope interactive t st).2.nodes.size := by
  cases t with
  | leaf command index => simp [plant, newNode, depth]
  | block command index body =>
    have inside := plantAll_nodes_size (st.newScope (some scope)).1 interactive body
      (st.newScope (some scope)).2
    have same : (st.newScope (some scope)).2.nodes = st.nodes := rfl
    rw [same] at inside
    simp only [plant, newNode, depth, Arena.size_alloc]
    omega

private theorem plantAll_nodes_size (scope : Ref .scope) (interactive : Bool) (trees : List Tree)
    (st : Store) :
    st.nodes.size + depthAll trees ≤ (plantAll scope interactive trees st).2.nodes.size := by
  cases trees with
  | nil => simp [plantAll, depthAll]
  | cons t rest =>
    have first := plant_nodes_size scope interactive t st
    have second := plantAll_nodes_size scope interactive rest (plant scope interactive t st).2
    have below : (plant scope interactive t st).2.nodes.size ≤
        (plantAll scope interactive rest (plant scope interactive t st).2).2.nodes.size := by omega
    simp only [plantAll, depthAll]
    omega

end

/-! ### Scopes in the order of the blocks -/

def scopeOf (outermost : Ref .scope) (own : Nat → Ref .scope) (e : Statement) : Ref .scope :=
  if e.isBlock then own e.index else e.parent.elim outermost own

def Numbered (own : Nat → Ref .scope) : Nat → List Statement → Prop
  | _, [] => True
  | base, e :: rest =>
    if e.isBlock then own e.index = ⟨base⟩ ∧
      Numbered own (base + 1) rest else Numbered own base rest

private theorem numbered_append (own : Nat → Ref .scope) (base : Nat)
    (first second : List Statement) :
    Numbered own base (first ++ second) ↔
      Numbered own base first ∧ Numbered own (base + first.countP Statement.isBlock) second := by
  induction first generalizing base with
  | nil => simp [Numbered]
  | cons e rest ih =>
    cases kind : e.isBlock with
    | false =>
      simp only [List.cons_append, Numbered, kind, Bool.false_eq_true, if_false, ih,
        List.countP_cons, Nat.add_zero]
    | true =>
      simp only [List.cons_append, Numbered, kind, if_true, ih, List.countP_cons, and_assoc]
      rw [show base + 1 + rest.countP Statement.isBlock =
        base + (rest.countP Statement.isBlock + 1) by omega]

private theorem numbered_bounds (own : Nat → Ref .scope) (base : Nat) (entries : List Statement)
    (numbered : Numbered own base entries) (e : Statement) (member : e ∈ entries)
    (block : e.isBlock = true) :
    base ≤ (own e.index).index ∧ (own e.index).index < base + entries.countP Statement.isBlock := by
  obtain ⟨before, after, rfl⟩ := List.append_of_mem member
  have here := ((numbered_append own base before (e :: after)).mp numbered).2
  simp only [Numbered, block, if_true] at here
  rw [here.1, List.countP_append, List.countP_cons, block]
  simp only [if_true]
  omega

mutual

private theorem plant_sizes (scope : Ref .scope) (interactive : Bool) (parent : Option Nat)
    (t : Tree) (st : Store) :
    (plant scope interactive t st).2.scopes.size =
      st.scopes.size + (preorder parent t).countP Statement.isBlock ∧
    (plant scope interactive t st).2.tables.size =
      st.tables.size + (preorder parent t).countP Statement.isBlock := by
  cases t with
  | leaf command index => exact ⟨rfl, rfl⟩
  | block command index body =>
    obtain ⟨scopes, tables⟩ := plantAll_sizes (st.newScope (some scope)).1 interactive
      (some index) body
      (st.newScope (some scope)).2
    simp only [newScope, Arena.size_alloc] at scopes tables
    simp only [plant, newNode, newScope, preorder, List.countP_cons, if_true, scopes, tables]
    omega

private theorem plantAll_sizes (scope : Ref .scope) (interactive : Bool) (parent : Option Nat)
    (trees : List Tree) (st : Store) :
    (plantAll scope interactive trees st).2.scopes.size =
      st.scopes.size + (preorderAll parent trees).countP Statement.isBlock ∧
    (plantAll scope interactive trees st).2.tables.size =
      st.tables.size + (preorderAll parent trees).countP Statement.isBlock := by
  cases trees with
  | nil => exact ⟨rfl, rfl⟩
  | cons t rest =>
    obtain ⟨scopes, tables⟩ := plant_sizes scope interactive parent t st
    obtain ⟨scopes', tables'⟩ :=
      plantAll_sizes scope interactive parent rest (plant scope interactive t st).2
    simp only [plantAll, preorderAll, List.countP_append, scopes', tables', scopes, tables]
    omega

end

section
variable (outermost : Ref .scope) (own : Nat → Ref .scope) (interactive : Bool)

def shownAt (st : Store) (r : Ref .node) : Nat × Text × Ref .scope :=
  ((st.node r).index, (st.node r).command, (st.node r).scope)

def placed (e : Statement) : Nat × Text × Ref .scope :=
  (e.index, e.command, scopeOf outermost own e)

theorem newNode_read {st later : Store} {node : Node}
    (extended : (st.newNode node).2.Extends later) : later.node (st.newNode node).1 = node := by
  have held : (st.newNode node).2.nodes.Holds (st.newNode node).1 := Arena.holds_alloc_fresh _ _
  exact (extended.nodes _ held).2.trans (Arena.read_alloc_fresh _ _)

private theorem numbered_block {own : Nat → Ref .scope} {st : Store} {parent : Option Nat}
    {command : Text} {index : Nat} {body : List Tree} (scope : Ref .scope)
    (numbered : Numbered own st.scopes.size (preorder parent (.block command index body))) :
    own index = (st.newScope (some scope)).1 ∧
      Numbered own (st.newScope (some scope)).2.scopes.size (preorderAll (some index) body) := by
  simp only [preorder, Numbered, if_true] at numbered
  refine ⟨numbered.1, ?_⟩
  have size : (st.newScope (some scope)).2.scopes.size = st.scopes.size + 1 := Arena.size_alloc _ _
  rw [size]
  exact numbered.2

mutual

private theorem plant_statements (parent : Option Nat) (t : Tree) (scope : Ref .scope)
    (st later : Store) (fuel : Nat) (current : parent.elim outermost own = scope)
    (numbered : Numbered own st.scopes.size (preorder parent t))
    (extended : (plant scope interactive t st).2.Extends later) (deep : depth t ≤ fuel) :
    (Program.statements later fuel (plant scope interactive t st).1).map (shownAt later) =
      (preorder parent t).map (placed outermost own) := by
  cases t with
  | leaf command index =>
    have cell := newNode_read extended
    have alone : Program.statements later fuel
      (plant scope interactive (.leaf command index) st).1 =
        [(plant scope interactive (.leaf command index) st).1] := by
      cases fuel with
      | zero => rfl
      | succ fuel => simp only [Program.statements, plant, cell, List.flatMap_nil]
    rw [alone]
    simp only [plant, preorder, List.map_cons, List.map_nil, shownAt, placed, cell, scopeOf,
      Bool.false_eq_true, if_false, current]
  | block command index body =>
    obtain ⟨inner, numberedBody⟩ := numbered_block scope numbered
    have cell := newNode_read (by simpa only [plant] using extended)
    have extendedBody := (extends_newNode _ _).trans (by simpa only [plant] using extended)
    cases fuel with
    | zero => simp [depth] at deep
    | succ fuel =>
      have below :=
        plantAll_statements (some index) body _ _ later fuel inner numberedBody extendedBody
        (by simp only [depth] at deep; omega)
      simp only [Program.statements, plant, preorder, List.map_cons, cell, below]
      simp only [shownAt, placed, cell, scopeOf, if_true, inner]

private theorem plantAll_statements (parent : Option Nat) (trees : List Tree) (scope : Ref .scope)
    (st later : Store) (fuel : Nat) (current : parent.elim outermost own = scope)
    (numbered : Numbered own st.scopes.size (preorderAll parent trees))
    (extended : (plantAll scope interactive trees st).2.Extends later)
    (deep : depthAll trees ≤ fuel) :
    ((plantAll scope interactive trees st).1.flatMap (Program.statements later fuel)).map
      (shownAt later) =
      (preorderAll parent trees).map (placed outermost own) := by
  cases trees with
  | nil => rfl
  | cons t rest =>
    simp only [preorderAll] at numbered
    obtain ⟨first, second⟩ := (numbered_append own _ _ _).mp numbered
    rw [← (plant_sizes scope interactive parent t st).1] at second
    simp only [plantAll] at extended
    simp only [depthAll] at deep
    have head := plant_statements parent t scope st later fuel current first
      ((extends_plantAll _ _ _ _).trans extended) (by omega)
    have tail :=
      plantAll_statements parent rest scope _ later fuel current second extended (by omega)
    simp only [plantAll, preorderAll, List.flatMap_cons, List.map_append, head, tail]

end

structure OwnScope (st later : Store) (e : Statement) : Prop where
  parent : (later.scope (own e.index)).parent = some (e.parent.elim outermost own)
  isSealed : (later.scope (own e.index)).isSealed = false
  empty : later.tableOf (own e.index) = []
  aligned : (later.scope (own e.index)).table.index + st.scopes.size =
    (own e.index).index + st.tables.size

mutual

private theorem plant_ownScope (parent : Option Nat) (t : Tree) (scope : Ref .scope)
    (st later : Store) (current : parent.elim outermost own = scope)
    (numbered : Numbered own st.scopes.size (preorder parent t))
    (extended : (plant scope interactive t st).2.Extends later) :
    ∀ e ∈ preorder parent t, e.isBlock = true → OwnScope outermost own st later e := by
  intro e member block
  cases t with
  | leaf command index =>
    simp only [preorder, List.mem_singleton] at member
    subst member
    simp at block
  | block command index body =>
    obtain ⟨inner, numberedBody⟩ := numbered_block scope numbered
    have extendedBody := (extends_newNode _ _).trans (by simpa only [plant] using extended)
    simp only [preorder, List.mem_cons] at member
    rcases member with rfl | below
    · have extendedScope := (extends_plantAll _ _ _ _).trans extendedBody
      have heldScope : (st.newScope (some scope)).2.scopes.Holds (own index) := by
        rw [inner]
        exact Arena.holds_alloc_fresh _ _
      have heldTable : (st.newScope (some scope)).2.tables.Holds (st.tables.alloc []).1 :=
        Arena.holds_alloc_fresh _ _
      have cell : later.scope (own index) =
          { parent := some scope, table := (st.tables.alloc []).1 } := by
        rw [inner] at heldScope ⊢
        exact (extendedScope.scopes _ heldScope).2.trans (Arena.read_alloc_fresh _ _)
      refine ⟨?_, ?_, ?_, ?_⟩
      · rw [cell, current]
      · rw [cell]
      · rw [tableOf, cell]
        exact (extendedScope.tables _ heldTable).2.trans (Arena.read_alloc_fresh _ _)
      · rw [cell, inner]
        exact Nat.add_comm _ _
    · obtain ⟨outside, unsealed, empty, aligned⟩ :=
        plantAll_ownScope (some index) body _ _ later inner numberedBody extendedBody e below block
      refine ⟨outside, unsealed, empty, ?_⟩
      simp only [newScope, Arena.size_alloc] at aligned
      omega

private theorem plantAll_ownScope (parent : Option Nat) (trees : List Tree) (scope : Ref .scope)
    (st later : Store) (current : parent.elim outermost own = scope)
    (numbered : Numbered own st.scopes.size (preorderAll parent trees))
    (extended : (plantAll scope interactive trees st).2.Extends later) :
    ∀ e ∈ preorderAll parent trees, e.isBlock = true → OwnScope outermost own st later e := by
  intro e member block
  cases trees with
  | nil => exact absurd member (List.not_mem_nil)
  | cons t rest =>
    simp only [preorderAll] at numbered member
    obtain ⟨first, second⟩ := (numbered_append own _ _ _).mp numbered
    obtain ⟨scopes, tables⟩ := plant_sizes scope interactive parent t st
    rw [← scopes] at second
    simp only [plantAll] at extended
    rcases List.mem_append.mp member with here | there
    · exact plant_ownScope parent t scope st later current first
        ((extends_plantAll _ _ _ _).trans extended) e here block
    · obtain ⟨outside, unsealed, empty, aligned⟩ :=
        plantAll_ownScope parent rest scope _ later current second extended e there block
      exact ⟨outside, unsealed, empty, by omega⟩

end

end

/-! ### Programs -/

/-- The scope of the block that the segment at `j` opens: scopes are made in the order of the
blocks. -/
def blockScope (st : Store) (rs : List Role) (j : Nat) : Ref .scope :=
  ⟨st.scopes.size + (rs.take j).count .opens⟩

private theorem count_blocks (segments : List Text) (n : Nat) :
    ((statementPositions segments n).map (statementAt segments)).countP Statement.isBlock =
      ((roles segments).take n).count .opens := by
  induction n with
  | zero => simp [statementPositions]
  | succ n ih =>
    rcases role : (roles segments)[n]? with _ | found
    · have size : (roles segments).length ≤ n := List.getElem?_eq_none_iff.mp role
      rw [statementPositions_keeps _ _ (by simp [role]), List.map_append, List.countP_append, ih,
        List.take_of_length_le size, List.take_of_length_le (Nat.le_succ_of_le size)]
      simp [statementAt, role]
    · obtain ⟨bound, here⟩ := List.getElem?_eq_some_iff.mp role
      rw [← List.take_append_getElem bound, List.count_append, here]
      by_cases closing : found = .closes
      · subst closing
        rw [statementPositions_closes _ _ role, ih]
        rfl
      · rw [statementPositions_keeps _ _ (by simpa [role] using closing), List.map_append,
          List.countP_append, ih]
        cases found <;> simp [statementAt, role] at closing ⊢

private theorem numbered_statements (st : Store) (segments : List Text) (n : Nat) :
    Numbered (st.blockScope (roles segments)) st.scopes.size
      ((statementPositions segments n).map (statementAt segments)) := by
  induction n with
  | zero => simp [statementPositions, Numbered]
  | succ n ih =>
    by_cases closing : (roles segments)[n]? = some .closes
    · rw [statementPositions_closes _ _ closing]
      exact ih
    · rw [statementPositions_keeps _ _ closing, List.map_append, numbered_append]
      refine ⟨ih, ?_⟩
      rw [count_blocks]
      by_cases opening : (roles segments)[n]? = some .opens
      · simp [Numbered, statementAt, opening, blockScope]
      · simp [Numbered, statementAt, opening]

private theorem blockScope_injective (st : Store) (rs : List Role) {j k : Nat}
    (first : rs[j]? = some .opens) (second : rs[k]? = some .opens)
    (same : st.blockScope rs j = st.blockScope rs k) : j = k := by
  have growing : ∀ {a b : Nat}, rs[a]? = some .opens → a < b → (rs.take a).count .opens <
      (rs.take b).count .opens := by
    intro a b opening before
    obtain ⟨bound, here⟩ := List.getElem?_eq_some_iff.mp opening
    have taken : rs.take (a + 1) = rs.take a ++ [.opens] := by rw [← here, List.take_append_getElem]
    have further : ((rs.take (a + 1)).count .opens) ≤ (rs.take b).count .opens :=
      (List.take_sublist_take_left before).count_le _
    rw [taken, List.count_append] at further
    simp at further
    omega
  have counts : (rs.take j).count .opens = (rs.take k).count .opens := by
    simpa [blockScope] using same
  rcases Nat.lt_trichotomy j k with before | equal | after
  · exact absurd counts (Nat.ne_of_lt (growing first before))
  · exact equal
  · exact absurd counts.symm (Nat.ne_of_lt (growing second after))

section
variable (flat : Text) (scope : Ref .scope) (interactive : Bool) (st : Store)

private theorem numbered_parse :
    Numbered (st.blockScope (roles (flat.splitOn ';'))) st.scopes.size
      (preorderAll none (parse flat).1) := by
  rw [(parse_readUpTo flat).listed]
  exact numbered_statements st _ _

private theorem program_cell : (st.plantProgram scope interactive (parse flat).1).2.node
    (st.plantProgram scope interactive (parse flat).1).1 =
      ⟨[], 0, (plantAll scope interactive (parse flat).1 st).1, scope, interactive⟩ :=
  newNode_read (.refl _)

private theorem plantProgram_statements :
    let later := (st.plantProgram scope interactive (parse flat).1).2
    (Program.statements later later.nodes.size
      (st.plantProgram scope interactive (parse flat).1).1).tail.map
        (shownAt later) =
      (statementPositions (flat.splitOn ';') ((parse flat).2 + 1)).map
        (placed scope (st.blockScope (roles (flat.splitOn ';'))) ∘ statementAt
          (flat.splitOn ';')) := by
  intro later
  have size : later.nodes.size = (plantAll scope interactive (parse flat).1 st).2.nodes.size + 1 :=
    Arena.size_alloc _ _
  have deep := plantAll_nodes_size scope interactive (parse flat).1 st
  have extended : (plantAll scope interactive (parse flat).1 st).2.Extends later :=
    extends_newNode _ _
  have below := plantAll_statements scope (st.blockScope (roles (flat.splitOn ';'))) interactive
    none (parse flat).1 scope
    st later (plantAll scope interactive (parse flat).1 st).2.nodes.size rfl
      (numbered_parse flat st) extended (by omega)
  rw [size, Program.statements, List.tail_cons, program_cell, below, (parse_readUpTo flat).listed,
    List.map_map]

private theorem plantProgram_ownScope (j : Nat) (within : j ≤ (parse flat).2)
    (opening : (roles (flat.splitOn ';'))[j]? = some .opens) :
    let later := (st.plantProgram scope interactive (parse flat).1).2
    later.scopes.Holds (st.blockScope (roles (flat.splitOn ';')) j) ∧
      OwnScope scope (st.blockScope (roles (flat.splitOn ';'))) st later
        (statementAt (flat.splitOn ';') j) := by
  intro later
  have extended : (plantAll scope interactive (parse flat).1 st).2.Extends later :=
    extends_newNode _ _
  have block : (statementAt (flat.splitOn ';') j).isBlock = true := by
    simpa [statementAt] using opening
  have member : statementAt (flat.splitOn ';') j ∈ preorderAll none (parse flat).1 := by
    rw [(parse_readUpTo flat).listed]
    apply List.mem_map_of_mem
    rw [statementPositions, List.mem_filter, opening]
    exact ⟨List.mem_range.mpr (Nat.lt_succ_of_le within), rfl⟩
  refine ⟨?_, plantAll_ownScope scope _ interactive none _ scope st later rfl
    (numbered_parse flat st) extended _ member block⟩
  have bound := (numbered_bounds _ _ _ (numbered_parse flat st) _ member block).2
  rw [← (plantAll_sizes scope interactive none (parse flat).1 st).1] at bound
  exact bound

end

/-- The scopes of a program mirror the blocks of its text. Each block up to the last segment has a
scope that is its own: new, with a table that is new and empty, inside the scope of the innermost
block around it, or inside the given scope if there is none. All other statements run in the scope
of the innermost block around them. Behind a closed block the same scope is in force as before it,
and what was in the store stays. -/
structure Mirrored (rs : List Role) (last : Nat) (scope : Ref .scope) (st later : Store)
    (program : Ref .node)
    (own : Nat → Ref .scope) : Prop where
  fresh : ∀ j ≤ last, rs[j]? = some .opens →
    later.scopes.Holds (own j) ∧ ¬ st.scopes.Holds (own j) ∧
    ¬ st.tables.Holds (later.scope (own j)).table ∧
      later.tableOf (own j) = []
  inside : ∀ j ≤ last, rs[j]? = some .opens →
    ∀ around, Innermost rs j around → (later.scope (own j)).parent = some (around.elim scope own)
  distinct : ∀ j ≤ last, ∀ k ≤ last, rs[j]? = some .opens → rs[k]? = some .opens →
    own j = own k ∨ (later.scope (own j)).table = (later.scope (own k)).table → j = k
  listed : (Program.statements later later.nodes.size program).tail.map
    (fun r => (later.node r).index) =
    (List.range (last + 1)).filter (fun i => rs[i]? ≠ some .closes)
  placed : ∀ r ∈ (Program.statements later later.nodes.size program).tail,
    ∀ around, Innermost rs (later.node r).index around →
      (later.node r).scope =
        if rs[(later.node r).index]? = some .opens then own (later.node r).index
          else around.elim scope own
  outermost : (later.node program).scope = scope
  behind : ∀ j k, rs[k]? = some .closes → Innermost rs k (some j) →
    ∀ around, Innermost rs (k + 1) around ↔ Innermost rs j around
  kept : st.Extends later

section
variable (flat : Text) (scope : Ref .scope) (interactive : Bool) (st : Store)

private theorem blockScope_fresh (j : Nat) (within : j ≤ (parse flat).2)
    (opening : (roles (flat.splitOn ';'))[j]? = some .opens) :
    let own := st.blockScope (roles (flat.splitOn ';'))
    let later := (st.plantProgram scope interactive (parse flat).1).2
    later.scopes.Holds (own j) ∧ ¬ st.scopes.Holds (own j) ∧
    ¬ st.tables.Holds (later.scope (own j)).table ∧
      later.tableOf (own j) = [] := by
  intro own later
  obtain ⟨held, _, _, empty, aligned⟩ :=
    plantProgram_ownScope flat scope interactive st j within opening
  have number : (own j).index = st.scopes.size + ((roles (flat.splitOn ';')).take j).count .opens :=
    rfl
  change (later.scope (own j)).table.index + st.scopes.size =
    (own j).index + st.tables.size at aligned
  refine ⟨held, ?_, ?_, empty⟩
  · rw [Arena.Holds]
    omega
  · rw [Arena.Holds]
    omega

private theorem blockScope_distinct (j k : Nat) (within : j ≤ (parse flat).2)
    (withinOther : k ≤ (parse flat).2) (opening : (roles (flat.splitOn ';'))[j]? = some .opens)
    (openingOther : (roles (flat.splitOn ';'))[k]? = some .opens) :
    let own := st.blockScope (roles (flat.splitOn ';'))
    let later := (st.plantProgram scope interactive (parse flat).1).2
    own j = own k ∨ (later.scope (own j)).table = (later.scope (own k)).table → j = k := by
  intro own later
  have aligned := (plantProgram_ownScope flat scope interactive st j within opening).2.aligned
  have alignedOther :=
    (plantProgram_ownScope flat scope interactive st k withinOther openingOther).2.aligned
  change (later.scope (own j)).table.index + st.scopes.size =
    (own j).index + st.tables.size at aligned
  change (later.scope (own k)).table.index + st.scopes.size =
    (own k).index + st.tables.size at alignedOther
  rintro (same | same)
  · exact blockScope_injective st _ opening openingOther same
  · apply blockScope_injective st _ opening openingOther
    rw [same, alignedOther] at aligned
    have index : (own k).index = (own j).index := Nat.add_right_cancel aligned
    exact congrArg Ref.mk index.symm

private theorem statement_scope (r : Ref .node) (around : Option Nat) :
    let rs := roles (flat.splitOn ';')
    let program := (st.plantProgram scope interactive (parse flat).1).1
    let later := (st.plantProgram scope interactive (parse flat).1).2
    r ∈ (Program.statements later later.nodes.size program).tail →
      Innermost rs (later.node r).index around →
      (later.node r).scope = if rs[(later.node r).index]? = some .opens then st.blockScope rs
        (later.node r).index
        else around.elim scope (st.blockScope rs) := by
  intro rs program later member inside
  have met : shownAt later r ∈ (Program.statements later later.nodes.size program).tail.map
      (shownAt later) :=
    List.mem_map_of_mem member
  rw [plantProgram_statements flat scope interactive st] at met
  obtain ⟨i, _, seen⟩ := List.mem_map.mp met
  simp only [Function.comp, placed, shownAt, Prod.mk.injEq] at seen
  obtain ⟨sameIndex, _, sameScope⟩ := seen
  rw [← sameIndex] at inside
  rw [← sameScope, ← sameIndex, scopeOf, (innermost_iff _ _ _).mp inside]
  simp only [statementAt, decide_eq_true_eq]
  rfl

/-- Planting the statements of a flat text in any scope of any store makes scopes that mirror its
blocks. -/
theorem plantProgram_mirrored (flat : Text) (scope : Ref .scope) (interactive : Bool) (st : Store) :
    ∃ own, Mirrored (roles (flat.splitOn ';')) (parse flat).2 scope st
      (st.plantProgram scope interactive (parse flat).1).2
      (st.plantProgram scope interactive (parse flat).1).1 own := by
  -- Blocks get their scopes in the order of their positions, so that counting the blocks before one
  -- finds its scope.
  refine ⟨st.blockScope (roles (flat.splitOn ';')), ⟨?_, ?_, ?_, ?_, ?_, ?_, ?_, ?_⟩⟩
  · exact blockScope_fresh flat scope interactive st
  · intro j within opening around inside
    rw [(innermost_iff _ _ _).mp inside]
    exact (plantProgram_ownScope flat scope interactive st j within opening).2.parent
  · intro j within k withinOther
    exact blockScope_distinct flat scope interactive st j k within withinOther
  · have indices := congrArg (List.map Prod.fst) (plantProgram_statements flat scope interactive st)
    rw [List.map_map, List.map_map] at indices
    refine Eq.trans indices ?_
    exact List.map_id _
  · intro r member around inside
    exact statement_scope flat scope interactive st r around member inside
  · exact congrArg Node.scope (program_cell flat scope interactive st)
  · intro j k closing inside around
    exact innermost_congr _ (openAt_after_close _ j k closing inside) around
  · exact (extends_plantAll _ _ _ _).trans (extends_newNode _ _)

end

end CommandScript.Store

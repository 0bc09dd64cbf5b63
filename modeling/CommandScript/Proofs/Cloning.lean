import CommandScript.Store.Clone
import CommandScript.Proofs.Described
import CommandScript.Proofs.Reach

/-! A clone is a picture of what it was made from. Copying cells that refer only to each other gives
each of them one new cell with the same content, in which every reference is replaced by the
reference to the copy; there are no other new cells, and the old ones stay. -/
namespace CommandScript

inductive Content where
  | scope (s : Scope)
  | table (t : Table)
  | var (x : Variable)
  | list (items : Array Item)
  | record (r : Record)
  | node (n : Node)

def Content.cells : Content → List Cell
  | scope s => s.cells
  | table t => t.cells
  | var x => x.cells
  | list items => Item.cellsOf items
  | record r => r.cells
  | node n => n.cells

def Store.content (st : Store) (c : Cell) : Content :=
  match c.kind with
  | .scope => .scope (st.scope ⟨c.index⟩)
  | .table => .table (st.table ⟨c.index⟩)
  | .variable => .var (st.var ⟨c.index⟩)
  | .list => .list (st.list ⟨c.index⟩)
  | .record => .record (st.record ⟨c.index⟩)
  | .node => .node (st.node ⟨c.index⟩)

namespace Renaming

variable (st : Store) (names : Renaming)

def cell (c : Cell) : Cell := ⟨c.kind, (names.indices.getD (st.place c) none).getD c.index⟩

def content : Content → Content
  | .scope s => .scope (names.scope st s)
  | .table t => .table (names.table st t)
  | .var x => .var (names.var st x)
  | .list items => .list (items.map (names.item st))
  | .record r => .record (names.record st r)
  | .node n => .node (names.node st n)

private theorem cell_ref {k : Kind} (r : Ref k) : (names.ref st r).cell = names.cell st r.cell :=
  rfl

private theorem cells_value (v : Value) :
    (names.value st v).cells = v.cells.map (names.cell st) := by
  cases v <;> rfl

private theorem cells_item (i : Item) : (names.item st i).cells = i.cells.map (names.cell st) := by
  cases i with
  | bare v => exact cells_value st names v
  | held r => rfl

private theorem describes_value (tag : Tag) (v : Value) :
    tag.describes (names.value st v) = tag.describes v := by
  cases v <;> cases tag <;> rfl

private theorem cells_option {k : Kind} (r : Option (Ref k)) :
    ((r.map (names.ref st)).map Ref.cell).toList = (r.map Ref.cell).toList.map (names.cell st) := by
  cases r <;> rfl

theorem cells_content (x : Content) : (names.content st x).cells = x.cells.map (names.cell st) := by
  cases x with
  | scope s =>
    simp only [content, Content.cells, Scope.cells, scope, cells_option, List.map_append,
      List.map_cons, List.map_nil, cell_ref]
  | table t => simp [content, Content.cells, Table.cells, table, Function.comp_def, cell_ref]
  | var x =>
    simp only [content, Content.cells, Variable.cells, var, cells_option, cells_value,
      List.map_append]
  | list items =>
    simp [content, Content.cells, Item.cellsOf, List.flatMap_map, List.map_flatMap, cells_item]
  | record r =>
    obtain ⟨body, entries⟩ := r
    cases body <;> simp [content, Content.cells, Record.cells, record, List.flatMap_map,
      List.map_flatMap, cells_item, cell_ref]
  | node n => simp [content, Content.cells, Node.cells, node, Function.comp_def, cell_ref]

end Renaming

namespace Store

variable {st later : Store}

theorem edges_eq_cells (st : Store) (c : Cell) : st.edges c = (st.content c).cells := by
  obtain ⟨kind, index⟩ := c
  cases kind <;> rfl

theorem Extends.content (extended : st.Extends later) {c : Cell} (has : st.Has c) :
    later.content c = st.content c := by
  match c with
  | ⟨.scope, index⟩ => exact congrArg Content.scope (extended.scopes ⟨index⟩ has).2
  | ⟨.table, index⟩ => exact congrArg Content.table (extended.tables ⟨index⟩ has).2
  | ⟨.variable, index⟩ => exact congrArg Content.var (extended.vars ⟨index⟩ has).2
  | ⟨.list, index⟩ => exact congrArg Content.list (extended.lists ⟨index⟩ has).2
  | ⟨.record, index⟩ => exact congrArg Content.record (extended.records ⟨index⟩ has).2
  | ⟨.node, index⟩ => exact congrArg Content.node (extended.nodes ⟨index⟩ has).2

theorem extends_of_content (nans : later.sameNaN = st.sameNaN)
    (same : ∀ c, st.Has c → later.Has c ∧ later.content c = st.content c) : st.Extends later where
  nans
  scopes r has := (same ⟨.scope, r.index⟩ has).imp_right Content.scope.inj
  tables r has := (same ⟨.table, r.index⟩ has).imp_right Content.table.inj
  vars r has := (same ⟨.variable, r.index⟩ has).imp_right Content.var.inj
  lists r has := (same ⟨.list, r.index⟩ has).imp_right Content.list.inj
  records r has := (same ⟨.record, r.index⟩ has).imp_right Content.record.inj
  nodes r has := (same ⟨.node, r.index⟩ has).imp_right Content.node.inj

private theorem closed_of_content (all : ∀ c, st.Has c → st.HasAll (st.content c).cells) :
    st.Closed where
  scopes r has := all ⟨.scope, r.index⟩ has
  tables r has := all ⟨.table, r.index⟩ has
  vars r has := all ⟨.variable, r.index⟩ has
  lists r has := all ⟨.list, r.index⟩ has
  records r has := all ⟨.record, r.index⟩ has
  nodes r has := all ⟨.node, r.index⟩ has

/-! ### Reserving cells -/

theorem reserve_index (st : Store) (k : Kind) : (st.reserve k).1 = st.count k := by
  cases k <;> rfl

theorem extends_reserve (st : Store) (k : Kind) : st.Extends (st.reserve k).2 := by
  cases k
  · exact ⟨rfl, Arena.extends_alloc _ _, .refl _, .refl _, .refl _, .refl _, .refl _⟩
  · exact ⟨rfl, .refl _, Arena.extends_alloc _ _, .refl _, .refl _, .refl _, .refl _⟩
  · exact ⟨rfl, .refl _, .refl _, Arena.extends_alloc _ _, .refl _, .refl _, .refl _⟩
  · exact ⟨rfl, .refl _, .refl _, .refl _, Arena.extends_alloc _ _, .refl _, .refl _⟩
  · exact ⟨rfl, .refl _, .refl _, .refl _, .refl _, Arena.extends_alloc _ _, .refl _⟩
  · exact ⟨rfl, .refl _, .refl _, .refl _, .refl _, .refl _, Arena.extends_alloc _ _⟩

private theorem has_reserve (st : Store) (k : Kind) (c : Cell) :
    (st.reserve k).2.Has c ↔ st.Has c ∨ c = ⟨k, st.count k⟩ := by
  obtain ⟨kind, index⟩ := c
  cases k <;> cases kind <;> simp [Has, reserve, count] <;> omega

/-- Some cells of a store have new cells that stand for them, and there are no other new cells. -/
structure Reserved (old : Store) (cells : List Cell) (st : Store) (names : Renaming) : Prop where
  kept : old.Extends st
  size : names.indices.size = old.total
  named : ∀ c ∈ cells, st.Has (names.cell old c) ∧ ¬ old.Has (names.cell old c)
  distinct : ∀ c ∈ cells, ∀ d ∈ cells, names.cell old c = names.cell old d → c = d
  covered : ∀ e, st.Has e → ¬ old.Has e → ∃ c ∈ cells, names.cell old c = e

private theorem cell_named {old : Store} {names : Renaming}
    (size : names.indices.size = old.total) {c d : Cell} (index : Nat) (first : old.Has c)
    (second : old.Has d) :
    Renaming.cell old ⟨names.indices.setIfInBounds (old.place c) (some index)⟩ d =
      if d = c then ⟨c.kind, index⟩ else names.cell old d := by
  have bound := place_lt_total second
  rw [← size] at bound
  by_cases same : d = c
  · subst same
    simp [Renaming.cell, Array.getD, bound]
  · have apart : old.place c ≠ old.place d :=
      fun equal => same (place_injective second first equal.symm)
    simp [Renaming.cell, Array.getD, bound, apart, same]

theorem Reserved.step {old st : Store} {cells : List Cell} {names : Renaming}
    (reserved : Reserved old cells st names) {c : Cell} (held : ∀ d ∈ cells, old.Has d)
    (has : old.Has c) (new : c ∉ cells) :
    Reserved old (cells ++ [c]) (st.reserve c.kind).2
      ⟨names.indices.setIfInBounds (old.place c) (some (st.reserve c.kind).1)⟩ := by
  have renamed := fun {d : Cell} (inside : old.Has d) =>
    cell_named reserved.size (st.count c.kind) has inside
  have wider := (extends_reserve st c.kind).grows
  have apart : ∀ {d}, d ∈ cells → d ≠ c := fun member same => new (same ▸ member)
  -- The next cell of a kind is beyond all cells there are, hence beyond the old ones and the copies
  -- so far.
  have beyond : ¬ old.Has ⟨c.kind, st.count c.kind⟩ :=
    fun inside => Nat.lt_irrefl _ (inside.mono reserved.kept.grows)
  rw [reserve_index]
  refine ⟨reserved.kept.trans (extends_reserve _ _), ?_, ?_, ?_, ?_⟩
  · rw [Array.size_setIfInBounds]
    exact reserved.size
  · intro d member
    rcases List.mem_append.mp member with before | last
    · rw [renamed (held d before), if_neg (apart before)]
      exact (reserved.named d before).imp_left fun inside => inside.mono wider
    · obtain rfl := List.mem_singleton.mp last
      rw [renamed has, if_pos rfl]
      exact ⟨(has_reserve st d.kind _).mpr (.inr rfl), beyond⟩
  · have last : ∀ d ∈ cells, names.cell old d ≠ ⟨c.kind, st.count c.kind⟩ := by
      intro d before same
      have inside := (reserved.named d before).1
      rw [same] at inside
      exact Nat.lt_irrefl _ inside
    intro a first b second same
    rcases List.mem_append.mp first with before | here <;> rcases List.mem_append.mp second
      with other | there
    · rw [renamed (held a before), renamed (held b other), if_neg (apart before),
        if_neg (apart other)] at same
      exact reserved.distinct a before b other same
    · obtain rfl := List.mem_singleton.mp there
      rw [renamed (held a before), renamed has, if_neg (apart before), if_pos rfl] at same
      exact absurd same (last a before)
    · obtain rfl := List.mem_singleton.mp here
      rw [renamed has, renamed (held b other), if_pos rfl, if_neg (apart other)] at same
      exact absurd same.symm (last b other)
    · rw [List.mem_singleton.mp here, List.mem_singleton.mp there]
  · intro e inside outside
    rcases (has_reserve st c.kind e).mp inside with before | rfl
    · obtain ⟨d, member, same⟩ := reserved.covered e before outside
      refine ⟨d, List.mem_append_left _ member, ?_⟩
      rw [renamed (held d member), if_neg (apart member)]
      exact same
    · refine ⟨c, List.mem_append_right _ List.mem_cons_self, ?_⟩
      rw [renamed has, if_pos rfl]

theorem Reserved.all {old st : Store} {done : List Cell} {names : Renaming}
    (reserved : Reserved old done st names) (rest : List Cell)
    (held : ∀ d ∈ done ++ rest, old.Has d) (nodup : (done ++ rest).Nodup) :
    Reserved old (done ++ rest) (reserveAll old rest (st, names)).1
      (reserveAll old rest (st, names)).2 := by
  induction rest generalizing done st names with
  | nil =>
    rw [List.append_nil]
    exact reserved
  | cons c rest ih =>
    have split : done ++ c :: rest = (done ++ [c]) ++ rest := by rw [List.append_assoc]; rfl
    have new : c ∉ done := by
      intro member
      exact List.disjoint_of_nodup_append nodup member List.mem_cons_self
    have next := reserved.step (fun d member => held d (List.mem_append_left _ member))
      (held c (List.mem_append_right _ List.mem_cons_self)) new
    rw [split] at held nodup ⊢
    exact ih next held nodup

/-! ### Filling cells -/

theorem count_fill (old : Store) (names : Renaming) (st : Store) (c : Cell) (k : Kind) :
    (fill old names st c).count k = st.count k := by
  obtain ⟨kind, index⟩ := c
  cases kind <;> cases k <;> simp [fill, count]

private theorem content_fill_here (old : Store) (names : Renaming) (st : Store) (c : Cell)
    (held : st.Has (names.cell old c)) :
    (fill old names st c).content (names.cell old c) = names.content old (old.content c) := by
  match c with
  | ⟨.scope, index⟩ => exact congrArg Content.scope (Arena.read_write_here _ _ _ held)
  | ⟨.table, index⟩ => exact congrArg Content.table (Arena.read_write_here _ _ _ held)
  | ⟨.variable, index⟩ => exact congrArg Content.var (Arena.read_write_here _ _ _ held)
  | ⟨.list, index⟩ => exact congrArg Content.list (Arena.read_write_here _ _ _ held)
  | ⟨.record, index⟩ => exact congrArg Content.record (Arena.read_write_here _ _ _ held)
  | ⟨.node, index⟩ => exact congrArg Content.node (Arena.read_write_here _ _ _ held)

theorem content_fill_elsewhere (old : Store) (names : Renaming) (st : Store) {c d : Cell}
    (other : d ≠ names.cell old c) : (fill old names st c).content d = st.content d := by
  obtain ⟨kind, index⟩ := c
  obtain ⟨otherKind, position⟩ := d
  by_cases kinds : otherKind = kind
  · subst kinds
    have place : (⟨position⟩ : Ref otherKind) ≠ names.ref old ⟨index⟩ :=
      fun same => other (congrArg Ref.cell same)
    cases otherKind
    · exact congrArg Content.scope (Arena.read_write_elsewhere _ _ _ _ place)
    · exact congrArg Content.table (Arena.read_write_elsewhere _ _ _ _ place)
    · exact congrArg Content.var (Arena.read_write_elsewhere _ _ _ _ place)
    · exact congrArg Content.list (Arena.read_write_elsewhere _ _ _ _ place)
    · exact congrArg Content.record (Arena.read_write_elsewhere _ _ _ _ place)
    · exact congrArg Content.node (Arena.read_write_elsewhere _ _ _ _ place)
  · cases kind <;> cases otherKind <;> first | rfl | exact absurd rfl kinds

theorem nans_foldl_fill (old : Store) (names : Renaming) (cells : List Cell) (st : Store) :
    (cells.foldl (fill old names) st).sameNaN = st.sameNaN := by
  induction cells generalizing st with
  | nil => rfl
  | cons c rest ih =>
    refine (ih _).trans ?_
    obtain ⟨kind, index⟩ := c
    cases kind <;> rfl

/-- Filling all cells gives each the renamed content, since no two of them have the same new cell.
-/
theorem foldl_fill (old : Store) (names : Renaming) (cells : List Cell) (st : Store)
    (held : ∀ c ∈ cells, st.Has (names.cell old c)) (nodup : cells.Nodup)
    (distinct : ∀ c ∈ cells, ∀ d ∈ cells, names.cell old c = names.cell old d → c = d) :
    let filled := cells.foldl (fill old names) st
    (∀ k, filled.count k = st.count k) ∧
      (∀ c ∈ cells, filled.content (names.cell old c) = names.content old (old.content c)) ∧
      ∀ d, (∀ c ∈ cells, names.cell old c ≠ d) → filled.content d = st.content d := by
  induction cells generalizing st with
  | nil => exact ⟨fun _ => rfl, fun _ member => absurd member List.not_mem_nil, fun _ _ => rfl⟩
  | cons c rest ih =>
    intro filled
    obtain ⟨alone, fewer⟩ := List.nodup_cons.mp nodup
    have still : ∀ d ∈ rest, (fill old names st c).Has (names.cell old d) := by
      intro d member
      rw [Has, count_fill]
      exact held d (List.mem_cons_of_mem _ member)
    obtain ⟨counts, contents, others⟩ := ih (fill old names st c) still fewer
      (fun a first b second => distinct a (List.mem_cons_of_mem _ first) b
        (List.mem_cons_of_mem _ second))
    refine ⟨fun k => (counts k).trans (count_fill old names st c k), ?_, ?_⟩
    · intro d member
      rcases List.mem_cons.mp member with rfl | later
      · have untouched : ∀ e ∈ rest, names.cell old e ≠ names.cell old d := by
          intro e later same
          exact alone (distinct e (List.mem_cons_of_mem _ later) d List.mem_cons_self same ▸ later)
        exact (others _ untouched).trans
          (content_fill_here old names st d (held d List.mem_cons_self))
      · exact contents d later
    · intro d absent
      have elsewhere := others d fun e later => absent e (List.mem_cons_of_mem _ later)
      exact elsewhere.trans (content_fill_elsewhere old names st
        (Ne.symm (absent c List.mem_cons_self)))

/-! ### Copies -/

/-- Each of some cells of a store has one new cell, with its content renamed; there are no other new
cells, and the old ones are unchanged. -/
structure Copied (old : Store) (cells : List Cell) (st : Store) (names : Renaming) : Prop where
  kept : old.Extends st
  named : ∀ c ∈ cells, st.Has (names.cell old c) ∧ ¬ old.Has (names.cell old c)
  content : ∀ c ∈ cells, st.content (names.cell old c) = names.content old (old.content c)
  distinct : ∀ c ∈ cells, ∀ d ∈ cells, names.cell old c = names.cell old d → c = d
  covered : ∀ e, st.Has e → ¬ old.Has e → ∃ c ∈ cells, names.cell old c = e

private theorem copyCells_copied {old : Store} {cells : List Cell} (held : ∀ c ∈ cells, old.Has c)
    (nodup : cells.Nodup) : Copied old cells (old.copyCells cells).1 (old.copyCells cells).2 := by
  have initial : Reserved old [] old ⟨Array.replicate old.total none⟩ :=
    ⟨.refl _, Array.size_replicate, fun _ member => absurd member List.not_mem_nil,
      fun _ member => absurd member List.not_mem_nil, fun _ has new => absurd has new⟩
  have reserved := initial.all cells held nodup
  obtain ⟨counts, contents, others⟩ := foldl_fill old (old.copyCells cells).2 cells _
    (fun c member => (reserved.named c member).1) nodup reserved.distinct
  have same : ∀ e, (old.copyCells cells).1.Has e ↔
      (reserveAll old cells (old, ⟨Array.replicate old.total none⟩)).1.Has e := by
    intro e
    change e.index < _ ↔ e.index < _
    rw [← counts]
    rfl
  refine ⟨?_, ?_, contents, reserved.distinct, ?_⟩
  · apply extends_of_content ((nans_foldl_fill _ _ _ _).trans reserved.kept.nans)
    intro c has
    refine ⟨(same c).mpr (has.mono reserved.kept.grows), ?_⟩
    have apart : ∀ d ∈ cells, (old.copyCells cells).2.cell old d ≠ c := by
      rintro d member rfl
      exact (reserved.named d member).2 has
    exact (others c apart).trans (reserved.kept.content has)
  · intro c member
    exact (reserved.named c member).imp_left (same _).mpr
  · intro e has new
    exact reserved.covered e ((same e).mp has) new

namespace Copied

variable {old : Store} {cells : List Cell} {st : Store} {names : Renaming}

theorem origin (copied : Copied old cells st names) {e : Cell} (has : st.Has e) :
    old.Has e ∨ ∃ c ∈ cells, names.cell old c = e := by
  by_cases before : old.Has e
  · exact .inl before
  · exact .inr (copied.covered e has before)

theorem closed (copied : Copied old cells st names) (before : old.Closed)
    (onward : ∀ c ∈ cells, ∀ d ∈ old.edges c, d ∈ cells) : st.Closed := by
  apply closed_of_content
  intro e has
  rcases copied.origin has with inside | ⟨c, member, rfl⟩
  · rw [copied.kept.content inside, ← edges_eq_cells]
    exact (before.edges e inside).mono copied.kept.grows
  · rw [copied.content c member, Renaming.cells_content]
    intro d image
    obtain ⟨a, edge, rfl⟩ := List.mem_map.mp image
    rw [← edges_eq_cells] at edge
    exact (copied.named a (onward c member a edge)).1

theorem scope (copied : Copied old cells st names) {s : Ref .scope} (member : s.cell ∈ cells) :
    st.scope (names.ref old s) = names.scope old (old.scope s) :=
      Content.scope.inj (copied.content _ member)

theorem table (copied : Copied old cells st names) {t : Ref .table} (member : t.cell ∈ cells) :
    st.table (names.ref old t) = names.table old (old.table t) :=
      Content.table.inj (copied.content _ member)

theorem var (copied : Copied old cells st names) {r : Ref .variable} (member : r.cell ∈ cells) :
    st.var (names.ref old r) = names.var old (old.var r) :=
      Content.var.inj (copied.content _ member)

theorem record (copied : Copied old cells st names) {q : Ref .record} (member : q.cell ∈ cells) :
    st.record (names.ref old q) = names.record old (old.record q) :=
      Content.record.inj (copied.content _ member)

theorem node (copied : Copied old cells st names) {n : Ref .node} (member : n.cell ∈ cells) :
    st.node (names.ref old n) = names.node old (old.node n) :=
      Content.node.inj (copied.content _ member)

private theorem described_var (copied : Copied old cells st names)
    (onward : ∀ c ∈ cells, ∀ d ∈ old.edges c, d ∈ cells) {r : Ref .variable}
    (member : r.cell ∈ cells) (described : (old.var r).Described old) :
    (st.var (names.ref old r)).Described st := by
  rw [copied.var member]
  refine ⟨(names.describes_value old _ _).trans described.tag, ?_⟩
  intro copy table node content body
  obtain ⟨q, held, rfl⟩ : ∃ q, (old.var r).content = .record q ∧ names.ref old q = copy := by
    change names.value old (old.var r).content = .record copy at content
    cases known : (old.var r).content <;> rw [known] at content <;> cases content
    exact ⟨_, rfl, rfl⟩
  have inside : q.cell ∈ cells := by
    refine onward _ member _ ?_
    change q.cell ∈ (old.var r).cells
    rw [Variable.cells, held]
    exact List.mem_append_left _ (List.mem_append_right _ (List.mem_singleton.mpr rfl))
  rw [copied.record inside] at body
  obtain ⟨⟨vars, statement⟩, made, same⟩ := Option.map_eq_some_iff.mp body
  obtain ⟨rfl, rfl⟩ := Prod.mk.inj same
  have below : statement.cell ∈ cells := by
    refine onward _ inside _ ?_
    change statement.cell ∈ (old.record q).cells
    rw [Record.cells, made]
    exact List.mem_append_left _ (by simp)
  rw [copied.node below]
  change (old.var r).members.map (names.ref old) = _
  rw [described.members q vars statement held made]
  rfl

theorem described (copied : Copied old cells st names) (closed : old.Closed)
    (before : old.Described) (onward : ∀ c ∈ cells, ∀ d ∈ old.edges c, d ∈ cells)
    (held : ∀ c ∈ cells, old.Has c) : st.Described := by
  refine before.extends closed copied.kept fun s has new name r entry => ?_
  obtain ⟨⟨kind, index⟩, member, image⟩ := copied.covered s.cell has new
  obtain rfl : kind = .scope := congrArg Cell.kind image
  obtain rfl : names.ref old ⟨index⟩ = s := congrArg (fun c => Ref.mk c.index) image
  have table : (old.scope ⟨index⟩).table.cell ∈ cells :=
    onward _ member _ (List.mem_append_right _ (List.mem_singleton.mpr rfl))
  rw [tableOf, copied.scope member] at entry
  change (name, r) ∈ st.table (names.ref old (old.scope ⟨index⟩).table) at entry
  rw [copied.table table] at entry
  obtain ⟨⟨label, original⟩, bound, same⟩ := List.mem_map.mp entry
  obtain ⟨rfl, rfl⟩ := Prod.mk.inj same
  have inside : original.cell ∈ cells := onward _ table _ (List.mem_map_of_mem bound)
  exact copied.described_var onward inside (before ⟨index⟩ (held _ member) label original bound)

end Copied

/-- A clone copies exactly what can be reached from the record. -/
theorem clone_copied (closed : st.Closed) {q : Ref .record} (has : st.Has q.cell) :
    ∃ names : Renaming, Copied st (st.reach q.cell) (st.clone q).2 names ∧
    (st.clone q).1 = names.ref st q :=
  ⟨(st.copyCells (st.reach q.cell)).2,
    copyCells_copied (fun _ member => ((mem_reach_iff closed has).mp member).has closed has)
      (reach_nodup closed has), rfl⟩

private theorem reach_onward (closed : st.Closed) {start : Cell} (has : st.Has start) :
    ∀ c ∈ st.reach start, ∀ d ∈ st.edges c, d ∈ st.reach start := by
  intro c member d edge
  exact (mem_reach_iff closed has).mpr (.step ((mem_reach_iff closed has).mp member) edge)

theorem Closed.clone (closed : st.Closed) {q : Ref .record} (has : st.Has q.cell) :
    (st.clone q).2.Closed ∧ (st.clone q).2.Has (st.clone q).1.cell := by
  obtain ⟨names, copied, copy⟩ := clone_copied closed has
  refine ⟨copied.closed closed (reach_onward closed has), ?_⟩
  rw [copy]
  exact (copied.named q.cell ((mem_reach_iff closed has).mpr .refl)).1

theorem extends_clone (closed : st.Closed) {q : Ref .record} (has : st.Has q.cell) :
    st.Extends (st.clone q).2 := by
  obtain ⟨_, copied, _⟩ := clone_copied closed has
  exact copied.kept

theorem Described.clone (described : st.Described) (closed : st.Closed) {q : Ref .record}
    (has : st.Has q.cell) : (st.clone q).2.Described := by
  obtain ⟨names, copied, _⟩ := clone_copied closed has
  exact copied.described closed described (reach_onward closed has)
    fun _ member => ((mem_reach_iff closed has).mp member).has closed has

end Store

end CommandScript

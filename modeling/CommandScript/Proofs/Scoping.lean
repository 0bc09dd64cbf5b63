import CommandScript.Proofs.Closed

/-! What names mean. Scopes are searched from the inside out, so that the meaning of a name depends
on the scopes and their tables alone, and binding a new name in one of these scopes gives it a
meaning. -/
namespace CommandScript

namespace Table

theorem find?_insert_here (name : Text) (r : Ref .variable) (t : Table) :
    (t.insert name r).find? name = some r := by
  induction t with
  | nil => simp [insert, find?]
  | cons entry rest ih =>
    by_cases same : entry.1 = name
    · simp [insert, find?, same]
    · have different : (name == entry.1) = false := by simpa using fun h => same h.symm
      simp only [insert, find?, if_neg same, List.lookup_cons, different] at ih ⊢
      exact ih

theorem mem_insert {name : Text} {r : Ref .variable} {t : Table} {entry : Text × Ref .variable}
    (member : entry ∈ t.insert name r) : entry = (name, r) ∨ entry ∈ t := by
  induction t with
  | nil => exact .inl (List.mem_singleton.mp member)
  | cons first rest ih =>
    by_cases same : first.1 = name
    · rw [insert, if_pos same] at member
      exact (List.mem_cons.mp member).imp_right (List.mem_cons_of_mem _)
    · rw [insert, if_neg same] at member
      rcases List.mem_cons.mp member with rfl | later
      · exact .inr List.mem_cons_self
      · exact (ih later).imp_right (List.mem_cons_of_mem _)

theorem mem_of_find? {name : Text} {r : Ref .variable} {t : Table} (found : t.find? name = some r) :
    (name, r) ∈ t := by
  obtain ⟨first, rest, rfl, _⟩ := List.lookup_eq_some_iff.mp found
  exact List.mem_append_right _ List.mem_cons_self

theorem mem_erase {t : Table} {name : Text} {entry : Text × Ref .variable}
    (member : entry ∈ t.erase name) : entry ∈ t :=
  (List.mem_filter.mp member).1

end Table

namespace Store

variable {st : Store}

private theorem outward_congr {later : Store} (same : later.scopes = st.scopes) (n : Nat)
    (s : Ref .scope) : later.outward n s = st.outward n s := by
  induction n generalizing s with
  | zero => rfl
  | succ n ih => simp only [outward, scope, same, ih]

theorem ancestors_congr {later : Store} (same : later.scopes = st.scopes) (s : Ref .scope) :
    later.ancestors s = st.ancestors s := by
  simp only [ancestors, outward_congr same, same]

theorem resolve_congr {later : Store} (scopes : later.scopes = st.scopes)
    (tables : later.tables = st.tables) (s : Ref .scope) (name : Text) :
    later.resolve s name = st.resolve s name := by
  simp only [resolve, ancestors_congr scopes, tableOf, table, scope, scopes, tables]

/-- A name means the same if the scopes on the way outward have the same variable of that name. -/
theorem resolve_of_tables {later : Store} {s : Ref .scope} {name : Text}
    (chain : later.ancestors s = st.ancestors s)
    (tables : ∀ a ∈ st.ancestors s, (later.tableOf a).find? name = (st.tableOf a).find? name) :
    later.resolve s name = st.resolve s name := by
  rw [resolve, resolve, chain]
  generalize st.ancestors s = scopes at tables
  induction scopes with
  | nil => rfl
  | cons a scopes ih =>
    rw [List.findSome?_cons, List.findSome?_cons, tables a List.mem_cons_self,
      ih fun b member => tables b (List.mem_cons_of_mem a member)]

theorem resolve_updateVariable (st : Store) (r : Ref .variable) (f : Variable → Variable)
    (s : Ref .scope) : (st.updateVariable r f).resolve s = st.resolve s := by
  funext name
  have scopes : (st.updateVariable r f).scopes = st.scopes := rfl
  have tables : (st.updateVariable r f).tables = st.tables := rfl
  exact resolve_congr scopes tables s name

theorem self_mem_outward (n : Nat) (s : Ref .scope) : s ∈ st.outward n s := by
  cases n with
  | zero => exact List.mem_singleton.mpr rfl
  | succ n =>
    rw [outward]
    split
    · exact List.mem_singleton.mpr rfl
    · exact List.mem_cons_self

theorem self_mem_ancestors (s : Ref .scope) : s ∈ st.ancestors s := self_mem_outward _ s

theorem globalOf_mem_ancestors (s : Ref .scope) : st.globalOf s ∈ st.ancestors s := by
  rw [globalOf]
  cases found : (st.ancestors s).find? fun s =>
    (st.scope s).isSealed || (st.scope s).parent.isNone with
  | none => exact self_mem_ancestors s
  | some target => exact List.mem_of_find?_eq_some found

theorem root_mem_ancestors (s : Ref .scope) : st.root s ∈ st.ancestors s := by
  rw [root]
  cases last : (st.ancestors s).getLast? with
  | none => exact self_mem_ancestors s
  | some target => exact List.mem_of_getLast? last

theorem Closed.outward (closed : st.Closed) (n : Nat) {s a : Ref .scope} (has : st.Has s.cell)
    (member : a ∈ st.outward n s) : st.Has a.cell := by
  induction n generalizing s with
  | zero => exact List.mem_singleton.mp member ▸ has
  | succ n ih =>
    rw [Store.outward] at member
    split at member
    · exact List.mem_singleton.mp member ▸ has
    · next parent above =>
      rcases List.mem_cons.mp member with rfl | later
      · exact has
      · exact ih (closed.parent has above) later

theorem Closed.ancestors (closed : st.Closed) {s a : Ref .scope} (has : st.Has s.cell)
    (member : a ∈ st.ancestors s) :
    st.Has a.cell := closed.outward _ has member

/-- A name means a variable in the table of a scope that is in the chain. -/
theorem resolve_inv {s owner : Ref .scope} {name : Text} {r : Ref .variable}
    (found : st.resolve s name = some (owner, r)) :
    owner ∈ st.ancestors s ∧ (st.tableOf owner).find? name = some r := by
  obtain ⟨a, member, here⟩ := List.exists_of_findSome?_eq_some found
  obtain ⟨q, bound, same⟩ := Option.map_eq_some_iff.mp here
  cases same
  exact ⟨member, bound⟩

theorem Closed.resolve (closed : st.Closed) {s owner : Ref .scope} {name : Text}
    {r : Ref .variable} (has : st.Has s.cell) (found : st.resolve s name = some (owner, r)) :
    st.Has owner.cell ∧ st.Has r.cell := by
  obtain ⟨member, bound⟩ := resolve_inv found
  have above := closed.ancestors has member
  exact ⟨above, closed.bound (closed.table above) (Table.mem_of_find? bound)⟩

theorem resolve_eq_none {s : Ref .scope} {name : Text} :
    st.resolve s name = none ↔ ∀ a ∈ st.ancestors s, (st.tableOf a).find? name = none := by
  simp only [resolve, List.findSome?_eq_none_iff, Option.map_eq_none_iff]

theorem bindName_scopes (st : Store) (target : Ref .scope) (name : Text) (x : Variable) :
    (st.bindName target name x).scopes = st.scopes :=
  rfl

/-- Binding a name changes the table of the scope, and with it that of each scope that shares the
table. -/
theorem tableOf_bindName (target s : Ref .scope) (name : Text) (x : Variable)
    (held : st.Has (st.scope target).table.cell) :
    (st.bindName target name x).tableOf s =
      if (st.scope s).table = (st.scope target).table then (st.tableOf s).insert name ⟨st.vars.size⟩
        else st.tableOf s := by
  change (st.tables.update (st.scope target).table (Table.insert name ⟨st.vars.size⟩)).read
    (st.scope s).table = _
  split
  · next same => rw [same, Arena.read_update_here _ _ _ held, tableOf, table, same]
  · next different => rw [Arena.read_update_elsewhere _ _ _ _ different, tableOf, table]

theorem Closed.eraseName (closed : st.Closed) (t : Ref .table) (name : Text) :
    (st.updateTable t (·.erase name)).Closed := by
  refine closed.updateTable t _ fun held c member => ?_
  obtain ⟨entry, inside, rfl⟩ := List.mem_map.mp member
  exact closed.bound held (Table.mem_erase inside)

theorem Closed.insertName (closed : st.Closed) (t : Ref .table) (name : Text) {r : Ref .variable}
    (known : st.Has r.cell) : (st.updateTable t (Table.insert name r)).Closed := by
  refine closed.updateTable t _ fun held c member => ?_
  obtain ⟨entry, inside, rfl⟩ := List.mem_map.mp member
  rcases Table.mem_insert inside with rfl | old
  · exact known
  · exact closed.bound held old

theorem Closed.bindName (closed : st.Closed) {target : Ref .scope} {name : Text} {x : Variable}
    (known : st.HasAll x.cells) : (st.bindName target name x).Closed :=
  (closed.newVariable known).insertName _ name (Arena.holds_alloc_fresh st.vars x)

theorem grows_bindName (st : Store) (target : Ref .scope) (name : Text) (x : Variable) :
    st.Grows (st.bindName target name x) :=
  (st.extends_newVariable x).grows.trans (grows_updateTable _ _ _)

theorem var_bindName_fresh (target : Ref .scope) (name : Text) (x : Variable) :
    (st.bindName target name x).var ⟨st.vars.size⟩ = x :=
  Arena.read_alloc_fresh st.vars x

theorem var_bindName_old {target : Ref .scope} {name : Text} {x : Variable} {r : Ref .variable}
    (held : st.Has r.cell) : (st.bindName target name x).var r = st.var r :=
  Arena.read_alloc_of_holds st.vars x r held

/-- A name without a meaning means the new variable once it is bound in a scope of the chain. -/
theorem resolve_bindName_new (closed : st.Closed) {s target : Ref .scope} {name : Text}
    (x : Variable) (has : st.Has s.cell) (inside : target ∈ st.ancestors s)
    (unknown : st.resolve s name = none) :
    ∃ owner, (st.bindName target name x).resolve s name = some (owner, ⟨st.vars.size⟩) := by
  have held := closed.table (closed.ancestors has inside)
  have chain := ancestors_congr (st.bindName_scopes target name x) s
  cases found : (st.bindName target name x).resolve s name with
  | none =>
    have absent := resolve_eq_none.mp found target (chain ▸ inside)
    rw [tableOf_bindName target target name x held, if_pos rfl, Table.find?_insert_here] at absent
    cases absent
  | some meaning =>
    obtain ⟨owner, r⟩ := meaning
    obtain ⟨member, bound⟩ := resolve_inv found
    rw [tableOf_bindName target owner name x held] at bound
    split at bound
    · rw [Table.find?_insert_here] at bound
      cases bound
      exact ⟨owner, rfl⟩
    · rw [resolve_eq_none.mp unknown owner (chain ▸ member)] at bound
      cases bound

end Store

end CommandScript

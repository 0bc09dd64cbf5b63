import CommandScript.Proofs.Evaluation

/-! Expressions are sound, the ones that make objects, call functions or compute among them, if the
evaluator for what is nested in them is. -/
namespace CommandScript

open Run (Sound Tame Silent)

variable {ev : Evaluator} {st : Store} {scope : Ref .scope}

/-! ### Objects -/

private theorem copyClass_sound {q : Ref .record} (closed : st.Closed) (held : st.Has q.cell) :
    (copyClass ev q).Sound st fun copy later => st.Extends later ∧ later.Has copy.cell := by
  unfold copyClass
  refine Sound.getStore_bind ?_
  split
  · exact Sound.throw _
  · exact Sound.alloc (Store.extends_clone closed held).grows (closed.clone held).1
      (fun described => described.clone closed held)
      ⟨Store.extends_clone closed held, (closed.clone held).2⟩

private def shared (globals : Ref .table) (r : Ref .variable) (copy : Ref .record) (st : Store) :
    Store :=
  let st := st.updateTable globals (Table.insert sharedName r)
  match (st.record copy).body with
  | some (_, node) =>
    st.updateScope (st.root (st.node node).scope) fun s => { s with table := globals }
  | none => st

private theorem grows_shared (globals : Ref .table) (r : Ref .variable) (copy : Ref .record) :
    st.Grows (shared globals r copy st) := by
  unfold shared
  have first := st.grows_updateTable globals (Table.insert sharedName r)
  dsimp only
  split
  · exact first.trans (Store.grows_updateScope _ _ _)
  · exact first

private theorem closed_shared {globals : Ref .table} {r : Ref .variable} (copy : Ref .record)
    (closed : st.Closed) (table : st.Has globals.cell) (known : st.Has r.cell) :
    (shared globals r copy st).Closed := by
  have inserted := closed.insertName globals sharedName known
  unfold shared
  dsimp only
  split
  · refine inserted.updateScope _ _ fun held => ?_
    have before := Store.hasAll_append.mp (inserted.scopes _ held)
    refine Store.hasAll_append.mpr ⟨before.1, fun c member => ?_⟩
    obtain rfl := List.mem_singleton.mp member
    exact table.mono (st.grows_updateTable _ _)
  · exact inserted

private theorem described_shared {owner : Ref .scope} {r : Ref .variable} (copy : Ref .record)
    (described : st.Described) (held : st.Has owner.cell) (fits : (st.var r).Described st) :
    (shared (st.scope owner).table r copy st).Described := by
  have inserted := described.insertName (st.scope owner).table sharedName fits
  unfold shared
  dsimp only
  split
  · exact inserted.shareTable _
      (held.mono (st.grows_updateTable (st.scope owner).table (Table.insert sharedName r)))
  · exact inserted

private theorem instantiateShared_tame {owner : Ref .scope} {q : Ref .record} {r : Ref .variable}
    (closed : st.Closed) (held : st.Has q.cell) (inside : st.Has owner.cell)
    (known : st.Has r.cell) :
    (do
      Run.changeStore (·.updateTable (st.scope owner).table (·.erase sharedName))
      let copy ← copyClass ev q
      Run.changeStore (shared (st.scope owner).table r copy)
      return Value.record copy : Run Value).Tame st fun v later => later.HasAll v.cells := by
  have erased := st.grows_updateTable (st.scope owner).table (·.erase sharedName)
  have closedErased := closed.eraseName (st.scope owner).table sharedName
  refine Tame.changeStore_bind erased closedErased
    ((copyClass_sound closedErased (held.mono erased)).tame.bind ?_)
  rintro copy later closedLater grows ⟨_, copied⟩
  have table := ((closed.table inside).mono erased).mono grows
  have closedShared := closed_shared copy closedLater table ((known.mono erased).mono grows)
  refine Tame.changeStore_bind (grows_shared _ _ _) closedShared (Tame.pure closedShared ?_)
  intro c member
  obtain rfl := List.mem_singleton.mp member
  exact copied.mono (grows_shared _ _ _)

private theorem instantiateShared_sound {owner : Ref .scope} {q : Ref .record} {r : Ref .variable}
    (closed : st.Closed) (held : st.Has q.cell) (inside : st.Has owner.cell)
    (known : st.Has r.cell) (fits : (st.var r).Described st) :
    (do
      Run.changeStore (·.updateTable (st.scope owner).table (·.erase sharedName))
      let copy ← copyClass ev q
      Run.changeStore (shared (st.scope owner).table r copy)
      return Value.record copy : Run Value).Sound st fun v later => later.HasAll v.cells := by
  have erased := st.grows_updateTable (st.scope owner).table (·.erase sharedName)
  have closedErased := closed.eraseName (st.scope owner).table sharedName
  refine Sound.changeStore_bind erased closedErased (fun described => described.eraseName _ _) ?_
  refine (copyClass_sound closedErased (held.mono erased)).bind ?_
  rintro copy later closedLater grows ⟨extended, copied⟩
  have table := ((closed.table inside).mono erased).mono grows
  have closedShared := closed_shared copy closedLater table ((known.mono erased).mono grows)
  -- the shared variable is what it was before the copy was made
  have var : later.var r = st.var r := (extended.vars r (known.mono erased)).2
  have scope : later.scope owner = st.scope owner := (extended.scopes owner (inside.mono erased)).2
  have still : (later.var r).Described later := by
    rw [var]
    have before : (st.var r).Described
      (st.updateTable (st.scope owner).table (·.erase sharedName)) := ⟨fits.tag, fits.members⟩
    exact before.extends closedErased (closedErased.vars r (known.mono erased)) extended
  refine Sound.changeStore_bind (grows_shared _ _ _) closedShared (fun described => ?_)
    (Sound.pure closedShared ?_)
  · rw [← scope]
    exact described_shared copy described ((inside.mono erased).mono grows) still
  · intro c member
    obtain rfl := List.mem_singleton.mp member
    exact copied.mono (grows_shared _ _ _)

theorem instantiate_sound {q : Ref .record} (closed : st.Closed) (held : st.Has q.cell) :
    (instantiate ev q).Sound st fun v later => later.HasAll v.cells := by
  unfold instantiate
  refine Sound.getStore_bind ?_
  split
  · next vars node body =>
    have inside := closed.ancestors (closed.nodeScope (closed.body held body).2)
      (Store.root_mem_ancestors _)
    dsimp only
    split
    · refine (copyClass_sound closed held).bind ?_
      rintro copy later closed _ ⟨_, copied⟩
      exact Sound.pure closed fun c member => List.mem_singleton.mp member ▸ copied
    · next r found =>
      have entry := Table.mem_of_find? found
      have known := closed.bound (closed.table inside) entry
      refine Sound.of_described (instantiateShared_tame closed held inside known) fun described =>
        ?_
      exact instantiateShared_sound closed held inside known (described _ inside _ r entry)
  · exact Sound.throw _

/-! ### Expressions -/

theorem valueStep_sound (sound : ev.Sound) (text : Text) (closed : st.Closed)
    (inside : st.Has scope.cell) :
    (valueStep ev scope text).Sound st fun v later => later.HasAll v.cells := by
  unfold valueStep
  refine Sound.getStore_bind ?_
  split
  · refine (lookup_sound sound _ closed inside).bind ?_
    intro item later closed grows meaning
    refine Sound.heldItem_bind fun r same => Sound.readVariable_bind fun v given => ?_
    subst same
    have known :=
      Variable.reading_cells (closed.content (meaning.1 _ (List.mem_singleton.mpr rfl))) given
    split
    · exact callFunction_sound sound text closed (inside.mono grows)
        (known _ (List.mem_singleton.mpr rfl))
    · exact instantiate_sound closed (known _ (List.mem_singleton.mpr rfl))
    · exact Sound.pure closed (Store.hasAll_nil _)
  · split
    · refine (lookup_sound sound _ closed inside).bind ?_
      intro target middle closed grows meaning
      refine Sound.after_silent closed (bracketed_silent _ _) fun index => ?_
      refine (sound.valueOf index closed (inside.mono grows)).bind ?_
      intro v later closed further _
      refine Sound.heldItem_bind fun r same => ?_
      subst same
      exact element_sound v closed ((meaning.1 _ (List.mem_singleton.mpr rfl)).mono further)
    · have known : st.HasAll (Item.bare (.text text)).cells := Store.hasAll_nil st
      exact (evaluate_sound sound closed (someHome inside) known).mono fun _ _ _ given => given.1

/-! ### Lists -/

private theorem Item.mem_cellsOf_append {first second : Array Item} {c : Cell}
    (member : c ∈ Item.cellsOf (first ++ second)) :
    c ∈ Item.cellsOf first ∨ c ∈ Item.cellsOf second := by
  rw [Item.cellsOf, Array.toList_append, List.flatMap_append] at member
  exact List.mem_append.mp member

theorem Store.hasAll_ofNumber (st : Store) (n : Number) : st.HasAll (Value.ofNumber n).cells := by
  cases n <;> exact st.hasAll_nil

theorem newList_sound {items : Array Item} (closed : st.Closed)
    (known : st.HasAll (Item.cellsOf items)) :
    (do return Value.list (← Run.alloc (·.newList items)) : Run Value).Sound st fun v later =>
      later.HasAll v.cells := by
  have closedLater := closed.newList known
  refine Sound.alloc_bind (st.extends_newList items).grows closedLater
    (fun described => described.newList closed items) ?_
  refine Sound.pure closedLater fun c member => ?_
  obtain rfl := List.mem_singleton.mp member
  exact Arena.holds_alloc_fresh st.lists items

/-- A new list of values. -/
theorem listOf_sound {vs : List Value} (closed : st.Closed) (known : ∀ v ∈ vs, st.HasAll v.cells) :
    (do return Value.list (← Run.alloc (·.newList (vs.map Item.bare).toArray)) : Run Value).Sound st
      fun v later => later.HasAll v.cells := by
  refine newList_sound closed fun c member => ?_
  obtain ⟨item, inside, edge⟩ := List.mem_flatMap.mp member
  obtain ⟨v, there, rfl⟩ := List.mem_map.mp inside
  exact known v there c edge

/-- Two lists joined. -/
theorem joined_sound {l m : Ref .list} (closed : st.Closed) (first : st.Has l.cell)
    (second : st.Has m.cell) :
    (do return Value.list (← Run.alloc (·.newList (st.list l ++ st.list m))) : Run Value).Sound st
      fun v later => later.HasAll v.cells := by
  refine newList_sound closed fun c member => ?_
  rcases Item.mem_cellsOf_append member with inside | inside
  · exact closed.lists l first c inside
  · exact closed.lists m second c inside

theorem shorten_sound {onText : Text → Text} {onList : List Item → List Item}
    (fewer : ∀ items, onList items ⊆ items) {v : Value} (closed : st.Closed)
    (known : st.HasAll v.cells) :
    (Sequence.shorten onText onList v).Sound st fun u later => later.HasAll u.cells := by
  unfold Sequence.shorten
  split
  · exact Sound.pure closed (Store.hasAll_nil st)
  · next l =>
    refine Sound.getStore_bind ?_
    dsimp only
    split
    · exact Sound.pure closed known
    · refine newList_sound closed fun c member => ?_
      obtain ⟨item, inside, edge⟩ := List.mem_flatMap.mp member
      exact closed.item (known _ (List.mem_singleton.mpr rfl)) (fewer _ inside) c edge
  · exact Sound.pure closed known

theorem Spelled.dropQuotes_subset {α : Type} [Spells α] (s : List α) :
    Spelled.dropQuotes s ⊆ s := by
  cases s with
  | nil => exact List.Subset.refl _
  | cons a rest =>
    have front : (if Spelled.isQuote a then rest else a :: rest) ⊆ a :: rest := by
      split
      · exact List.subset_cons_self _ _
      · exact List.Subset.refl _
    unfold Spelled.dropQuotes
    dsimp only
    split
    · split
      · exact List.Subset.trans (List.dropLast_subset _) front
      · exact front
    · exact front

/-! ### What was computed elsewhere -/

namespace Store

private theorem grows_addLists (lists : List (Array Item)) (st : Store) :
    st.Grows (st.addLists lists) := by
  induction lists generalizing st with
  | nil => exact .refl _
  | cons items rest ih => exact (st.extends_newList items).grows.trans (ih _)

private theorem grows_addRecords (records : List (List (Key × Item))) (st : Store) :
    st.Grows (st.addRecords records) := by
  induction records generalizing st with
  | nil => exact .refl _
  | cons entries rest ih =>
    exact (st.extends_newRecord { body := none, entries }).grows.trans (ih _)

theorem Within.addLists {later : Store} (lists : List (Array Item)) (within : st.Within later)
    (known : later.HasAll (lists.flatMap Item.cellsOf)) : (st.addLists lists).Within later := by
  induction lists generalizing st with
  | nil => exact within
  | cons items rest ih =>
    obtain ⟨first, others⟩ := hasAll_append.mp known
    exact ih { within with lists := within.lists.alloc first } others

theorem Within.addRecords {later : Store} (records : List (List (Key × Item)))
    (within : st.Within later) (known : later.HasAll (records.flatMap (·.flatMap (·.2.cells)))) :
    (st.addRecords records).Within later := by
  induction records generalizing st with
  | nil => exact within
  | cons entries rest ih =>
    obtain ⟨first, others⟩ := hasAll_append.mp known
    exact ih { within with records := within.records.alloc first } others

theorem grows_addAll (st : Store) (lists : List (Array Item)) (records : List (List (Key × Item))) :
    st.Grows (st.addAll lists records) :=
  (grows_addLists lists st).trans (grows_addRecords records _)

end Store

/-- The new lists and records may refer to each other, so that the store is closed only when all of
them are in it. -/
theorem Answer.closed (answer : Answer st) (closed : st.Closed) :
    (st.addAll answer.lists answer.records).Closed := by
  obtain ⟨made, -⟩ := Store.hasAll_append.mp answer.fits
  obtain ⟨lists, records⟩ := Store.hasAll_append.mp made
  have before := closed.mono (st.grows_addAll answer.lists answer.records)
  exact (before.addLists answer.lists lists).addRecords answer.records records

theorem Answer.has_value (answer : Answer st) :
    (st.addAll answer.lists answer.records).HasAll answer.value.cells :=
  (Store.hasAll_append.mp answer.fits).2

end CommandScript

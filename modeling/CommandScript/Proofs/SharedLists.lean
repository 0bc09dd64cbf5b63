import CommandScript.Proofs.ListTexts
import CommandScript.Proofs.Wrapping

/-! Lists that several names mean. A list in a variable is one sequence of values, whichever of its
names a command uses: appending adds a value at its end, writing to an element changes the value
there, and an index beyond the end comes round. Elements are bare when they are appended and become
variables when the list is assigned or written to, which no reading shows. -/
namespace CommandScript

namespace Index

variable {limit length : Nat} {i : Int}

private theorem mul_succ (length limit : Nat) :
    (length : Int) * ((limit + 1 : Nat) + 1) = length * (limit + 1) + length := by
  rw [Int.mul_add, Int.mul_one]
  rfl

/-- An index comes round if the length need not be taken off too often. -/
theorem wrap_of_lt (near : i < length * (limit + 1)) :
    wrap limit i length = .ok (if i < length then i else i % length) := by
  induction limit generalizing i with
  | zero =>
    have below : i < length := by simpa using near
    rw [wrap, if_pos below, if_pos below]
  | succ limit ih =>
    rw [wrap]
    by_cases below : i < length
    · rw [if_pos below, if_pos below]
    · rw [mul_succ] at near
      have nearer : i - length < length * (limit + 1) := by omega
      rw [if_neg below, if_neg below, ih nearer, ← Int.sub_emod_right i length]
      split
      · next last => rw [Int.emod_eq_of_lt (by omega) last]
      · rfl

theorem wrap_of_le (far : length * (limit + 1) ≤ i) : wrap limit i length = .error .tooDeep := by
  induction limit generalizing i with
  | zero =>
    have beyond : ¬ i < length := by simpa using far
    rw [wrap, if_neg beyond]
  | succ limit ih =>
    rw [mul_succ] at far
    have further : length * ((limit : Int) + 1) ≤ i - length := by omega
    have nonnegative : 0 ≤ (length : Int) * (limit + 1) := Int.mul_nonneg (by omega) (by omega)
    have beyond : ¬ i < length := by omega
    rw [wrap, if_neg beyond, ih further]

/-- A negative index counts from the end. -/
theorem position?_eq (above : -length ≤ i) (below : i < length) :
    position? i length = some (i % length).toNat := by
  unfold position?
  by_cases nonnegative : 0 ≤ i
  · rw [if_pos nonnegative, if_pos below, Int.emod_eq_of_lt nonnegative below]
  · rw [if_neg nonnegative, if_pos above, ← Int.add_emod_right,
      Int.emod_eq_of_lt (by omega) (by omega)]

theorem position?_wrapped (positive : 0 < length) (above : -length ≤ i) :
    position? (if i < length then i else i % length) length = some (i % length).toNat := by
  split
  · next below => exact position?_eq above below
  · have nonzero : (length : Int) ≠ 0 := by omega
    have lower := Int.emod_nonneg i nonzero
    have upper := Int.emod_lt_of_pos i (by omega : (0 : Int) < length)
    rw [position?_eq (by omega) upper, Int.emod_emod_of_dvd i (Int.dvd_refl _)]

end Index

theorem Variable.reading_list {x : Variable} {l : Ref .list} (tag : x.tag = .list)
    (content : x.content = .list l) : x.reading = .ok (.list l) := by
  rw [reading, tag, content]
  rfl

/-! ### Variables that no table binds -/

namespace Store

variable {st later : Store} {scope target : Ref .scope} {name : Text} {l : Ref .list}
  {r : Ref .variable}

theorem isBound_of_resolve {owner : Ref .scope} (found : st.resolve scope name = some (owner, r)) :
    st.IsBound r :=
  ⟨(st.scope owner).table, name, Table.mem_of_find? (resolve_inv found).2⟩

private theorem isBound_of_namesake {q : Ref .variable} (known : st.namesake r = some q) :
    st.IsBound q := by
  obtain ⟨home, _, named⟩ := Option.bind_eq_some_iff.mp known
  obtain ⟨⟨owner, p⟩, found, rfl⟩ := Option.map_eq_some_iff.mp named
  obtain ⟨label, _, found⟩ := Option.bind_eq_some_iff.mp found
  exact isBound_of_resolve found

private theorem isBound_congr (tables : later.tables = st.tables) (bound : later.IsBound r) :
    st.IsBound r := by
  obtain ⟨t, name, entry⟩ := bound
  rw [table, tables] at entry
  exact ⟨t, name, entry⟩

private theorem isBound_bindName {x : Variable} (bound : (st.bindName target name x).IsBound r) :
    st.IsBound r ∨ r = ⟨st.vars.size⟩ := by
  obtain ⟨t, label, entry⟩ := bound
  change (label, r) ∈
    (st.tables.update (st.scope target).table (Table.insert name ⟨st.vars.size⟩)).read t at entry
  rcases Arena.read_update_cases st.tables (st.scope target).table t
    (Table.insert name ⟨st.vars.size⟩) with same | ⟨_, _, changed⟩
  · rw [same] at entry
    exact .inl ⟨t, label, entry⟩
  · rw [changed] at entry
    rcases Table.mem_insert entry with new | old
    · exact .inr (Prod.mk.inj new).2
    · exact .inl ⟨_, label, old⟩

/-- A change that gives a variable what it has is none. -/
theorem updateVariable_eq_self {f : Variable → Variable} (same : f (st.var r) = st.var r) :
    st.updateVariable r f = st := by
  have cells : st.vars.cells.modify r.index f = st.vars.cells := by
    refine Array.ext (Array.size_modify) fun i _ inside => ?_
    rw [Array.getElem_modify]
    split
    · next here =>
      subst here
      have read : st.var r = st.vars.cells[r.index] := by
        rw [var, Arena.read, Array.getD_eq_getD_getElem?, Array.getElem?_eq_getElem inside,
          Option.getD_some]
      rwa [read] at same
    · rfl
  rw [updateVariable, Arena.update, cells]

structure KeepsUnbound (st later : Store) : Prop where
  grows : st.Grows later
  vars : ∀ r : Ref .variable, st.Has r.cell → ¬ st.IsBound r → later.var r = st.var r ∧
    ¬ later.IsBound r

private theorem keepsUnbound_updateList (st : Store) (l : Ref .list) (f : Array Item → Array Item) :
    st.KeepsUnbound (st.updateList l f) :=
  ⟨grows_updateList _ l f, fun _ _ free => ⟨rfl, fun bound => free (isBound_congr rfl bound)⟩⟩

private theorem keepsUnbound_bindName (st : Store) (target : Ref .scope) (name : Text)
    (x : Variable) : st.KeepsUnbound (st.bindName target name x) := by
  refine ⟨grows_bindName _ _ _ _, fun r held free => ⟨var_bindName_old held, fun bound => ?_⟩⟩
  rcases isBound_bindName bound with old | rfl
  · exact free old
  · exact Nat.lt_irrefl _ held

private theorem keepsUnbound_overwrite (bound : st.IsBound r) (v : Value) :
    st.KeepsUnbound (st.overwrite r v) := by
  refine ⟨grows_overwrite st r v, fun q held free => ⟨?_, fun bound => ?_⟩⟩
  · refine var_overwrite_elsewhere v ?_ fun known => free (isBound_of_namesake known)
    rintro rfl
    exact free bound
  · refine free (isBound_congr ?_ bound)
    unfold overwrite
    split <;> rfl

private theorem Wraps.keepsUnbound (wraps : st.Wraps later) (closed : st.Closed) :
    st.KeepsUnbound later :=
  ⟨wraps.grows, fun _ held free => ⟨wraps.var held, wraps.not_isBound closed (.inl free)⟩⟩

end Store

/-! ### One sequence behind several names -/

inductive Value.IsOperand : Value → Prop where
  | int (n : Int) : IsOperand (.int n)
  | float (x : Float) : IsOperand (.float x)
  | text (t : Text) : IsOperand (.text t.encloseSingle)

namespace Value.IsOperand

variable {v : Value} (operand : v.IsOperand)
include operand

theorem scalar : v.IsScalar := by
  cases operand with
  | int n => exact .int n
  | float x => exact .float x
  | text t => exact .text _ (Spelled.isQuoted_encloseSingle t) (by simp [Text.encloseSingle])

theorem asRead : v.asRead = v := by
  cases operand with
  | text t => simp only [Value.asRead, Spelled.inner_encloseSingle]
  | int | float => rfl

end Value.IsOperand

structure SharedList where
  names : List Text
  elements : List Value

/-- The place that an index means: a negative one counts from the end, and one beyond the end comes
round. -/
def SharedList.place (s : SharedList) (i : Int) : Nat := (i % s.elements.length).toNat

theorem SharedList.place_lt {s : SharedList} (positive : 0 < s.elements.length) (i : Int) :
    s.place i < s.elements.length := by
  have upper := Int.emod_lt_of_pos i (by omega : (0 : Int) < s.elements.length)
  rw [place]
  omega

namespace Store

variable {st later : Store} {scope target : Ref .scope} {name : Text} {l : Ref .list}
  {r : Ref .variable}

structure ListAt (st : Store) (scope : Ref .scope) (l : Ref .list) (name : Text)
    (r : Ref .variable) : Prop where
  found : ∃ owner, st.resolve scope name = some (owner, r)
  tag : (st.var r).tag = .list
  content : (st.var r).content = .list l
  named : (st.var r).name = some name
  own : st.namesake r = some r

/-- An element stands for a value: it is the value of a number or a text, or a variable that no
table binds and that reads as it. -/
def Stands (st : Store) : Item → Value → Prop
  | .bare u, v => u = v ∧ v.IsOperand
  | .held r, v => (st.var r).reading = .ok v ∧ st.Has r.cell ∧ ¬ st.IsBound r

structure Represents (st : Store) (scope : Ref .scope) (l : Ref .list) (s : SharedList) : Prop where
  closed : st.Closed
  inside : st.Has scope.cell
  names : ∀ a ∈ s.names, Identifier a ∧ ∃ r, st.ListAt scope l a r
  size : (st.list l).size = s.elements.length
  items : ∀ (i : Nat) (v : Value), s.elements[i]? = some v → ∃ item, (st.list l)[i]? = some item ∧
    st.Stands item v

theorem Stands.mono {item : Item} {v : Value} (stands : st.Stands item v)
    (keeps : st.KeepsUnbound later) : later.Stands item v := by
  cases item with
  | bare u => exact stands
  | held r =>
    obtain ⟨reads, held, free⟩ := stands
    obtain ⟨same, still⟩ := keeps.vars r held free
    exact ⟨same ▸ reads, held.mono keeps.grows, still⟩

namespace ListAt

theorem has (found : st.ListAt scope l name r) (closed : st.Closed) (inside : st.Has scope.cell) :
    st.Has r.cell :=
  found.found.elim fun _ resolved => (closed.resolve inside resolved).2

theorem has_list (found : st.ListAt scope l name r) (closed : st.Closed)
    (inside : st.Has scope.cell) : st.Has l.cell := by
  have known := closed.content (found.has closed inside)
  rw [found.content] at known
  exact known _ List.mem_cons_self

theorem reading (found : st.ListAt scope l name r) : (st.var r).reading = .ok (.list l) :=
  Variable.reading_list found.tag found.content

/-- The name of the variable means it in its home scope too. -/
theorem home (found : st.ListAt scope l name r) :
    ∃ h owner, (st.var r).home = some h ∧ st.resolve h name = some (owner, r) := by
  obtain ⟨h, home, own⟩ := Option.bind_eq_some_iff.mp found.own
  rw [found.named, Option.bind_some] at own
  obtain ⟨⟨owner, q⟩, resolved, rfl⟩ := Option.map_eq_some_iff.mp own
  exact ⟨h, owner, home, resolved⟩

/-- What a list variable is depends on its cell and on what its name means. -/
theorem congr (found : st.ListAt scope l name r)
    (resolve : ∀ s, later.resolve s name = st.resolve s name) (same : later.var r = st.var r) :
    later.ListAt scope l name r where
  found := resolve scope ▸ found.found
  tag := same ▸ found.tag
  content := same ▸ found.content
  named := same ▸ found.named
  own := by
    obtain ⟨h, owner, home, resolved⟩ := found.home
    rw [namesake, same, home, found.named, Option.bind_some, Option.bind_some, resolve, resolved]
    rfl

end ListAt

namespace Represents

variable {s : SharedList} (rep : st.Represents scope l s)
include rep

/-- The bare elements are numbers and texts. -/
theorem scalars {v : Value} (member : .bare v ∈ (st.list l).toList) : v.IsScalar := by
  obtain ⟨i, there⟩ := Array.mem_iff_getElem?.mp (Array.mem_toList_iff.mp member)
  have within : i < s.elements.length := rep.size ▸ (Array.getElem?_eq_some_iff.mp there).1
  obtain ⟨item, same, stands⟩ := rep.items i _ (List.getElem?_eq_getElem within)
  obtain rfl := Option.some.inj (there.symm.trans same)
  exact stands.1 ▸ stands.2.scalar

theorem wrappable : st.Wrappable (.list l) := .of_scalars fun _ => rep.scalars

/-- What happens elsewhere in the store changes nothing. -/
theorem frame (closed : later.Closed) (keeps : st.KeepsUnbound later)
    (list : later.list l = st.list l)
    (names : ∀ a ∈ s.names, ∀ r, st.ListAt scope l a r → later.ListAt scope l a r) :
    later.Represents scope l s where
  closed := closed
  inside := rep.inside.mono keeps.grows
  names a member := (rep.names a member).imp_right fun ⟨r, found⟩ => ⟨r, names a member r found⟩
  size := list ▸ rep.size
  items i v there := by
    obtain ⟨item, same, stands⟩ := rep.items i v there
    exact ⟨item, list ▸ same, stands.mono keeps⟩

theorem wraps (wraps : st.Wraps later) (closed : later.Closed) : later.Represents scope l s where
  closed := closed
  inside := rep.inside.mono wraps.grows
  names a member := (rep.names a member).imp_right fun ⟨r, found⟩ =>
    ⟨r, found.congr (fun s => wraps.resolve s a) (wraps.var (found.has rep.closed rep.inside))⟩
  size := by
    rw [← rep.size, wraps.list_size]
  items i v there := by
    obtain ⟨item, same, stands⟩ := rep.items i v there
    rcases wraps.items l i with kept | ⟨u, r, bare, held, new, has, reads⟩
    · exact ⟨item, kept.trans same, stands.mono (wraps.keepsUnbound rep.closed)⟩
    · obtain rfl := Option.some.inj (same.symm.trans bare)
      rw [stands.1, stands.2.asRead] at reads
      exact ⟨.held r, held, reads, has, wraps.not_isBound rep.closed (.inr new)⟩

/-- A list gets another element. -/
theorem push {v : Value} (operand : v.IsOperand) (known : st.Has l.cell) :
    (st.push l v).Represents scope l { s with elements := s.elements ++ [v] } := by
  have closed : (st.push l v).Closed := by
    refine rep.closed.updateList l _ fun held c member => ?_
    obtain ⟨item, inside, edge⟩ := List.mem_flatMap.mp member
    rw [Array.toList_push, List.mem_append, List.mem_singleton] at inside
    rcases inside with old | rfl
    · exact rep.closed.item held old c edge
    · change c ∈ v.cells at edge
      rw [operand.scalar.cells] at edge
      cases edge
  refine ⟨closed, rep.inside, fun a member => ?_, ?_, fun i u there => ?_⟩
  · obtain ⟨identifier, r, found⟩ := rep.names a member
    exact ⟨identifier, r, found.congr (fun s => resolve_push l v s a) rfl⟩
  · rw [list_push_here l v known, Array.size_push, rep.size, List.length_append]
    rfl
  · rw [list_push_here l v known]
    by_cases last : i < s.elements.length
    · rw [List.getElem?_append_left last] at there
      obtain ⟨item, same, stands⟩ := rep.items i u there
      rw [Array.getElem?_push, if_neg (by rw [rep.size]; omega)]
      exact ⟨item, same, stands.mono (keepsUnbound_updateList st l _)⟩
    · have beyond := (List.getElem?_eq_some_iff.mp there).1
      rw [List.length_append, List.length_singleton] at beyond
      have final : i = s.elements.length := by omega
      subst final
      rw [List.getElem?_concat_length] at there
      obtain rfl := Option.some.inj there
      rw [Array.getElem?_push, if_pos rep.size.symm]
      exact ⟨.bare v, rfl, rfl, operand⟩

/-- An element of a list is replaced. -/
theorem set {v : Value} (operand : v.IsOperand) {p : Nat} (within : p < s.elements.length) :
    (st.updateList l (·.setIfInBounds p (.bare v))).Represents scope l
      { s with elements := s.elements.set p v } := by
  have inside : p < (st.list l).size := rep.size ▸ within
  have put := getElem?_list_set (Array.getElem?_eq_getElem inside) (.bare v) l
  have closed : (st.updateList l (·.setIfInBounds p (.bare v))).Closed := by
    refine rep.closed.updateList l _ fun held c member => ?_
    rcases mem_cellsOf_set member with old | new
    · exact rep.closed.lists l held c old
    · change c ∈ v.cells at new
      rw [operand.scalar.cells] at new
      cases new
  refine ⟨closed, rep.inside, fun a member => ?_, ?_, fun i u there => ?_⟩
  · obtain ⟨identifier, r, found⟩ := rep.names a member
    exact ⟨identifier, r, found.congr (fun s => resolve_updateList l _ s a) rfl⟩
  · have read : (st.updateList l (·.setIfInBounds p (.bare v))).list l =
        (st.list l).setIfInBounds p (.bare v) :=
      Arena.read_update_here _ _ _ (has_of_list (Array.getElem?_eq_getElem inside))
    rw [read, Array.size_setIfInBounds, rep.size, List.length_set]
  · rw [put]
    by_cases here : i = p
    · subst here
      rw [List.getElem?_set_self within] at there
      obtain rfl := Option.some.inj there
      exact ⟨.bare v, if_pos ⟨rfl, rfl⟩, rfl, operand⟩
    · rw [List.getElem?_set_ne (Ne.symm here)] at there
      obtain ⟨item, same, stands⟩ := rep.items i u there
      rw [if_neg fun both => here both.2]
      exact ⟨item, same, stands.mono (keepsUnbound_updateList st l _)⟩

/-- A name without a meaning is bound. -/
theorem bindName (target : Ref .scope) {x : Variable} (known : st.HasAll x.cells)
    (unknown : st.resolve scope name = none) :
    (st.bindName target name x).Represents scope l s := by
  refine rep.frame (rep.closed.bindName known) (keepsUnbound_bindName st target name x) rfl
    fun a member r found => ?_
  have apart : a ≠ name := by
    rintro rfl
    obtain ⟨owner, resolved⟩ := found.found
    rw [unknown] at resolved
    cases resolved
  exact found.congr (fun s => resolve_bindName_other apart target s x)
    (var_bindName_old (found.has rep.closed rep.inside))

/-- A variable that was not made for a list is assigned to, and so is its namesake. -/
theorem overwrite {v : Value} (scalar : v.IsScalar) (bound : st.IsBound r)
    (other : (st.var r).tag ≠ .list)
    (apart : ∀ q, st.namesake r = some q → (st.var q).tag ≠ .list) :
    (st.overwrite r v).Represents scope l s := by
  refine rep.frame (closed_overwrite rep.closed r scalar) (keepsUnbound_overwrite bound v) ?_
    fun a member q found => ?_
  · rw [Store.list, (st.overwrite_rest r v).2.1]
    rfl
  · refine found.congr (fun s => congrFun (st.resolve_overwrite r v s) a)
      (var_overwrite_elsewhere v ?_ fun known => ?_)
    · rintro rfl
      exact other found.tag
    · exact apart q known found.tag

private theorem addName {a : Text} (identifier : Identifier a) (found : st.ListAt scope l a r) :
    st.Represents scope l { s with names := a :: s.names } :=
  { rep with names := List.forall_mem_cons.mpr ⟨⟨identifier, r, found⟩, rep.names⟩ }

end Represents

/-- A name that is bound to a variable for a list means this variable. -/
theorem listAt_bindName (closed : st.Closed) (inside : st.Has scope.cell)
    (chain : target ∈ st.ancestors scope) (unknown : st.resolve scope name = none) (l : Ref .list) :
    (st.bindName target name
      { name := some name, home := some target, content := .list l, tag := .list }).ListAt
        scope l name
      ⟨st.vars.size⟩ where
  found := resolve_bindName_new closed _ inside chain unknown
  tag := by rw [var_bindName_fresh]
  content := by rw [var_bindName_fresh]
  named := by rw [var_bindName_fresh]
  own := by
    rw [namesake, var_bindName_fresh]
    simp only [Option.bind_some, resolve_bindName_here closed (closed.ancestors inside chain),
      Option.map_some]

/-- The list gets another name. -/
theorem Represents.declare {s : SharedList} (rep : st.Represents scope l s)
    (listed : st.Has l.cell) (identifier : Identifier name) (chain : target ∈ st.ancestors scope)
    (unknown : st.resolve scope name = none) :
    (st.bindName target name
      { name := some name, home := some target, content := .list l, tag := .list }).Represents scope
        l
      { s with names := name :: s.names } := by
  have cells :
      st.HasAll (Variable.cells
        { name := some name, home := some target, content := .list l, tag := .list }) :=
    hasAll_cons.mpr ⟨rep.closed.ancestors rep.inside chain, hasAll_cons.mpr ⟨listed, hasAll_nil st⟩⟩
  exact (rep.bindName target cells unknown).addName identifier
    (listAt_bindName rep.closed rep.inside chain unknown l)

end Store

end CommandScript

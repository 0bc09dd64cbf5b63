import CommandScript.Proofs.Idempotence
import CommandScript.Proofs.Texts

/-! Lists whose bare elements become variables. When a list is stored, each bare element is put into
a new variable that no name means and that reads as the element does; lists inside are treated in
the same way, and nothing else changes. -/
namespace CommandScript

namespace Store

variable {st middle later : Store}

/-- All that has happened to a store is that bare elements of lists became new variables that read
as they do. -/
structure Wraps (st later : Store) : Prop where
  scopes : later.scopes = st.scopes
  tables : later.tables = st.tables
  records : later.records = st.records
  nodes : later.nodes = st.nodes
  vars : st.vars.Extends later.vars
  size : later.lists.size = st.lists.size
  items : ∀ (l : Ref .list) (i : Nat), (later.list l)[i]? = (st.list l)[i]? ∨
    ∃ v r, (st.list l)[i]? = some (.bare v) ∧ (later.list l)[i]? = some (.held r) ∧
    ¬ st.Has r.cell ∧ later.Has r.cell ∧
      (later.var r).reading = .ok v.asRead

namespace Wraps

theorem refl (st : Store) : st.Wraps st := ⟨rfl, rfl, rfl, rfl, .refl _, rfl, fun _ _ => .inl rfl⟩

theorem trans (first : st.Wraps middle) (second : middle.Wraps later) : st.Wraps later where
  scopes := second.scopes.trans first.scopes
  tables := second.tables.trans first.tables
  records := second.records.trans first.records
  nodes := second.nodes.trans first.nodes
  vars := first.vars.trans second.vars
  size := second.size.trans first.size
  items l i := by
    rcases first.items l i with before | ⟨v, r, bare, held, new, there, reads⟩
    · rcases second.items l i with after | ⟨v, r, bare, held, new, there, reads⟩
      · exact .inl (after.trans before)
      · exact .inr ⟨v, r, before ▸ bare, held, fun old => new (first.vars r old).1, there, reads⟩
    -- what has become a variable is not bare any more, so that it stays
    · rcases second.items l i with after | ⟨_, _, other, _⟩
      · have same : later.var r = middle.var r := (second.vars r there).2
        exact .inr ⟨v, r, bare, after.trans held, new, (second.vars r there).1, same ▸ reads⟩
      · rw [held] at other
        cases other

theorem grows (wraps : st.Wraps later) : st.Grows later := by
  rintro (_ | _)
  · exact Nat.le_of_eq (congrArg Arena.size wraps.scopes.symm)
  · exact Nat.le_of_eq (congrArg Arena.size wraps.tables.symm)
  · exact wraps.vars.size_le
  · exact Nat.le_of_eq wraps.size.symm
  · exact Nat.le_of_eq (congrArg Arena.size wraps.records.symm)
  · exact Nat.le_of_eq (congrArg Arena.size wraps.nodes.symm)

theorem resolve (wraps : st.Wraps later) (scope : Ref .scope) (name : Text) :
    later.resolve scope name = st.resolve scope name :=
  resolve_congr wraps.scopes wraps.tables scope name

theorem var (wraps : st.Wraps later) {r : Ref .variable} (held : st.Has r.cell) :
    later.var r = st.var r :=
  (wraps.vars r held).2

/-- Variables that were not bound are not bound, and the new ones are not bound either. -/
theorem not_isBound (wraps : st.Wraps later) (closed : st.Closed) {r : Ref .variable}
    (loose : ¬ st.IsBound r ∨ ¬ st.Has r.cell) : ¬ later.IsBound r := by
  rintro ⟨t, name, entry⟩
  rw [Store.table, wraps.tables] at entry
  have bound : st.IsBound r := ⟨t, name, entry⟩
  exact loose.elim (absurd bound) fun new => new (bound.has closed)

/-- An element that is bare was so before. -/
theorem bare (wraps : st.Wraps later) {l : Ref .list} {i : Nat} {v : Value}
    (there : (later.list l)[i]? = some (.bare v)) : (st.list l)[i]? = some (.bare v) := by
  rcases wraps.items l i with same | ⟨_, _, _, held, _⟩
  · exact same ▸ there
  · rw [held] at there
    cases there

private theorem mem_bare (wraps : st.Wraps later) {l : Ref .list} {v : Value}
    (member : .bare v ∈ (later.list l).toList) : .bare v ∈ (st.list l).toList := by
  obtain ⟨i, there⟩ := Array.mem_iff_getElem?.mp (Array.mem_toList_iff.mp member)
  exact Array.mem_toList_iff.mpr (Array.mem_of_getElem? (wraps.bare there))

theorem firm (wraps : st.Wraps later) {l : Ref .list} {i : Nat}
    (firm : ∀ v, (st.list l)[i]? ≠ some (.bare v)) (v : Value) :
    (later.list l)[i]? ≠ some (.bare v) := by
  rcases wraps.items l i with same | ⟨v, _, bare, _⟩
  · rw [same]
    exact firm v
  · exact absurd bare (firm v)

end Wraps

def wrapAt (st : Store) (l : Ref .list) (i : Nat) (x : Variable) : Store :=
  (st.newVariable x).2.updateList l (·.setIfInBounds i (.held (st.newVariable x).1))

section WrapAt

variable {l : Ref .list} {i : Nat} {x : Variable}

theorem getElem?_wrapAt {old : Item} (there : (st.list l)[i]? = some old) (x : Variable)
    (k : Ref .list) (j : Nat) :
    ((st.wrapAt l i x).list k)[j]? = if k = l ∧ j = i then some (.held ⟨st.vars.size⟩)
    else (st.list k)[j]? := by
  have unchanged : ((st.newVariable x).2.list l)[i]? = some old := there
  exact getElem?_list_set unchanged _ k j

theorem Closed.wrapAt (closed : st.Closed) (known : st.HasAll x.cells) (l : Ref .list) (i : Nat) :
    (st.wrapAt l i x).Closed := by
  have closed := closed.newVariable known
  refine closed.updateList _ _ fun held c member => ?_
  rcases mem_cellsOf_set member with old | new
  · exact closed.lists _ held c old
  · obtain rfl := List.mem_singleton.mp new
    exact Arena.holds_alloc_fresh st.vars x

private theorem Wraps.exists_getElem? (wraps : st.Wraps later) {old : Item}
    (there : (st.list l)[i]? = some old) : ∃ new, (later.list l)[i]? = some new := by
  rcases wraps.items l i with same | ⟨_, r, _, held, _⟩
  · exact ⟨_, same.trans there⟩
  · exact ⟨_, held⟩

theorem Wraps.list_size (wraps : st.Wraps later) (l : Ref .list) :
    (later.list l).size = (st.list l).size := by
  have beyond : ∀ i : Nat, (later.list l).size ≤ i ↔ (st.list l).size ≤ i := by
    intro i
    rw [← Array.getElem?_eq_none_iff, ← Array.getElem?_eq_none_iff]
    rcases wraps.items l i with same | ⟨_, _, bare, held, _⟩
    · rw [same]
    · simp [bare, held]
  exact Nat.le_antisymm ((beyond _).mpr (Nat.le_refl _)) ((beyond _).mp (Nat.le_refl _))

/-- A new variable for a bare element takes its place. -/
theorem Wraps.wrapAt (wraps : st.Wraps middle) {v : Value} (bare : (st.list l)[i]? = some (.bare v))
    (reads : x.reading = .ok v.asRead) : st.Wraps (middle.wrapAt l i x) := by
  have extended := middle.extends_newVariable x
  obtain ⟨old, there⟩ := wraps.exists_getElem? bare
  refine ⟨wraps.scopes, wraps.tables, wraps.records, wraps.nodes, wraps.vars.trans extended.vars,
    (Arena.size_update _ _ _).trans wraps.size, fun k j => ?_⟩
  rw [getElem?_wrapAt there]
  split
  · next here =>
    refine .inr ⟨v, _, by rw [here.1, here.2, bare], rfl, ?_, Arena.holds_alloc_fresh _ _, ?_⟩
    · exact fun old => Nat.lt_irrefl _ (Nat.lt_of_lt_of_le old wraps.vars.size_le)
    · exact (congrArg Variable.reading (Arena.read_alloc_fresh _ _)).trans reads
  · rcases wraps.items k j with same | ⟨u, r, was, held, new, there, reads⟩
    · exact .inl same
    · refine .inr ⟨u, r, was, held, new, (extended.vars r there).1, ?_⟩
      exact (congrArg Variable.reading (extended.vars r there).2).trans reads

end WrapAt

/-- A value of which a variable can be made without evaluating anything: it is what evaluation
gives, or a list whose bare elements are values of this kind. -/
inductive Wrappable (st : Store) : Value → Prop where
  | settled {v : Value} (settled : v.Settled st) : Wrappable st v
  | list {l : Ref .list} (bare : ∀ v, .bare v ∈ (st.list l).toList → Wrappable st v) :
      Wrappable st (.list l)

namespace Wrappable

theorem wraps {v : Value} (wrappable : Wrappable st v) (wraps : st.Wraps later) :
    Wrappable later v := by
  induction wrappable with
  | @settled v settled =>
    cases settled with
    | list l held =>
      refine .list fun v member => ?_
      obtain ⟨r, same⟩ := held _ (wraps.mem_bare member)
      cases same
    | bool b => exact .settled (.bool b)
    | int n => exact .settled (.int n)
    | float x => exact .settled (.float x)
    | text s quoted two => exact .settled (.text s quoted two)
    | node r => exact .settled (.node r)
    | record q => exact .settled (.record q)
  | list _ ih => exact .list fun v member => ih v (wraps.mem_bare member)

theorem elements {l : Ref .list} (wrappable : Wrappable st (.list l)) {v : Value}
    (member : .bare v ∈ (st.list l).toList) : Wrappable st v := by
  cases wrappable with
  | settled settled =>
    cases settled with
    | list _ held =>
      obtain ⟨r, same⟩ := held _ member
      cases same
  | list bare => exact bare v member

theorem reading {v : Value} (wrappable : Wrappable st v) (name : Text)
    (home : Option (Ref .scope)) : (Variable.ofValue st name home v).reading = .ok v.asRead := by
  cases wrappable with
  | settled settled => exact Variable.reading_ofValue name home settled
  | list => rfl

/-- A list with such elements is not shown as a text, because none of its elements is a single
character. -/
theorem quotedListText {l : Ref .list} (wrappable : Wrappable st (.list l)) (fuel : Nat) :
    quotedListText? st fuel (st.list l).toList = none := by
  refine quotedListText_eq_none (fun c _ item last => ?_) st fuel
  cases item with
  | held r => rfl
  | bare v =>
    have inside := wrappable.elements (List.mem_of_getLast? last)
    cases v with
    | text s =>
      cases inside with
      | settled settled =>
        cases settled with
        | text _ _ two => exact spells_text_of_two two c
    | _ => rfl

/-- A list whose bare elements are numbers and texts. -/
theorem of_scalars {l : Ref .list} (scalars : ∀ v, .bare v ∈ (st.list l).toList → v.IsScalar) :
    Wrappable st (.list l) :=
  .list fun v member => .settled ((scalars v member).settled st)

end Wrappable

end Store

/-- From one world to another nothing happens but that elements become variables. If their home is
held, the store stays closed. -/
structure World.Wraps (home : Option (Ref .scope)) (w later : World) : Prop where
  rest : later = { w with store := later.store }
  store : w.store.Wraps later.store
  closed : w.store.Closed → (∀ h, home = some h → w.store.Has h.cell) → later.store.Closed

namespace World.Wraps

variable {home : Option (Ref .scope)} {w middle later : World}

theorem refl (home : Option (Ref .scope)) (w : World) : w.Wraps home w :=
  ⟨rfl, .refl _, fun closed _ => closed⟩

theorem trans (first : w.Wraps home middle) (second : middle.Wraps home later) :
    w.Wraps home later where
  rest := by
    rw [second.rest, first.rest]
  store := first.store.trans second.store
  closed closed held := second.closed (first.closed closed held) fun h same =>
    (held h same).mono first.store.grows

end World.Wraps

/-- The variables that are made of wrappable values are the ones for these values, and to make them
is to wrap elements. -/
def Evaluator.WrapsValues (ev : Evaluator) : Prop :=
  ∀ home name lenient v w x later, w.store.Wrappable v →
  (ev.bind home name lenient v).exec w = (.ok x, later) → w.Wraps home later ∧
  x = Variable.ofValue w.store name home v

section Settling

variable {ev : Evaluator} {home : Option (Ref .scope)} {w later : World} {l : Ref .list}
  (wrapping : ev.WrapsValues)
include wrapping

private theorem settleAt_wraps {i : Nat}
    (wrappable : ∀ v, (w.store.list l)[i]? = some (.bare v) → w.store.Wrappable v)
    (ok : (settleAt ev home l i).exec w = (.ok (), later)) :
    w.Wraps home later ∧ ∀ v, (later.store.list l)[i]? ≠ some (.bare v) := by
  rw [settleAt, Run.exec_bind_ok w (Run.exec_getStore w)] at ok
  split at ok
  · next v bare =>
    obtain ⟨x, middle, bound, ok⟩ := Run.exec_bind_inv w ok
    have inside := wrappable v bare
    obtain ⟨wraps, rfl⟩ := wrapping home nameless false v w x _ inside bound
    obtain rfl :
        later =
          { middle with store := middle.store.wrapAt l i (.ofValue w.store nameless home v) } :=
      (congrArg Prod.snd ok).symm
    refine ⟨⟨?_, wraps.store.wrapAt bare (inside.reading nameless home), fun closed held => ?_⟩,
      fun u => ?_⟩
    · rw [wraps.rest]
    · have member := Array.mem_toList_iff.mpr (Array.mem_of_getElem? bare)
      have known := closed.ofValue held nameless (closed.item (Store.has_of_list bare) member)
      exact (wraps.closed closed held).wrapAt (known.mono wraps.store.grows) l i
    · obtain ⟨old, there⟩ := wraps.store.exists_getElem? bare
      rw [Store.getElem?_wrapAt there, if_pos ⟨rfl, rfl⟩]
      simp
  · next other =>
    cases ok
    exact ⟨.refl home w, other⟩

private theorem settleAll_wraps (places : List Nat)
    (wrappable : ∀ i ∈ places, ∀ v, (w.store.list l)[i]? = some (.bare v) → w.store.Wrappable v)
    (ok : (places.forM (settleAt ev home l)).exec w = (.ok (), later)) :
    w.Wraps home later ∧ ∀ i ∈ places, ∀ v, (later.store.list l)[i]? ≠ some (.bare v) := by
  induction places generalizing w with
  | nil =>
    cases ok
    exact ⟨.refl _ _, by simp⟩
  | cons i rest ih =>
    obtain ⟨_, middle, first, ok⟩ := Run.exec_bind_inv w ok
    obtain ⟨wraps, here⟩ := settleAt_wraps wrapping (wrappable i List.mem_cons_self) first
    obtain ⟨further, others⟩ := ih (fun j member v bare =>
      (wrappable j (List.mem_cons_of_mem i member) v (wraps.store.bare bare)).wraps wraps.store) ok
    exact ⟨wraps.trans further, List.forall_mem_cons.mpr ⟨further.store.firm here, others⟩⟩

/-- A list that is settled has variables for its elements. -/
theorem settle_wraps (wrappable : w.store.Wrappable (.list l))
    (ok : (settle ev home l).exec w = (.ok (), later)) :
    w.Wraps home later ∧ ∀ item ∈ (later.store.list l).toList, ∃ r, item = .held r := by
  rw [settle, Run.exec_bind_ok w (Run.exec_getStore w)] at ok
  obtain ⟨wraps, settled⟩ := settleAll_wraps wrapping _ (fun i _ v bare =>
    wrappable.elements (Array.mem_toList_iff.mpr (Array.mem_of_getElem? bare))) ok
  refine ⟨wraps, fun item member => ?_⟩
  cases item with
  | held r => exact ⟨r, rfl⟩
  | bare v =>
    obtain ⟨i, there⟩ := Array.mem_iff_getElem?.mp (Array.mem_toList_iff.mp member)
    have inside : i < (w.store.list l).size :=
      (Array.getElem?_eq_some_iff.mp (wraps.store.bare there)).1
    exact absurd there (settled i (List.mem_range.mpr inside) v)

private theorem bindStep_wraps : ev.next.WrapsValues := by
  intro home name lenient v w x later wrappable ok
  cases wrappable with
  | settled settled =>
    rw [bind_settled rfl home name lenient settled] at ok
    cases ok
    exact ⟨.refl _ _, rfl⟩
  | @list l bare =>
    change (Run.getStore >>= _).exec w = _ at ok
    rw [Run.exec_bind_ok w (Run.exec_getStore w), (Store.Wrappable.list bare).quotedListText] at ok
    obtain ⟨_, middle, settled, ok⟩ := Run.exec_bind_inv w ok
    cases ok
    exact ⟨(settle_wraps wrapping (.list bare) settled).1, rfl⟩

end Settling

private theorem Evaluator.ofRoom_wraps (rounds n : Nat) : (ofRoom rounds n).WrapsValues := by
  induction n with
  | zero => exact fun _ _ _ _ _ _ _ _ ok => nomatch ok
  | succ n ih => exact bindStep_wraps ih

/-! ### Lists that are evaluated and stored -/

theorem Run.fst_exec_bind_error {α β : Type} {x : Run α} {f : α → Run β} {w : World} {fault : Fault}
    (failed : (x.exec w).1 = .error fault) : ((x >>= f).exec w).1 = .error fault := by
  have whole : x.exec w = (.error fault, (x.exec w).2) := Prod.ext failed rfl
  rw [Run.exec_bind_error w whole]

section Lists

variable (rounds n : Nat) {home : Option (Ref .scope)} {w later : World} {l : Ref .list}

theorem evaluate_wraps (wrappable : w.store.Wrappable (.list l)) {v : Value}
    (ok : (evaluate (.ofRoom rounds n) home (.bare (.list l))).exec w = (.ok v, later)) :
    v = .list l ∧ w.Wraps home later ∧ ∀ item ∈ (later.store.list l).toList, ∃ r, item =
      .held r := by
  cases n with
  | zero =>
    rw [evaluate_eq] at ok
    cases ok
  | succ n =>
    rw [(evaluate_list rfl home l w).2 (wrappable.quotedListText _)] at ok
    cases settled : (settle (.ofRoom rounds n) home l).exec w with
    | mk result after =>
      cases result with
      | error fault =>
        rw [settled] at ok
        cases ok
      | ok =>
        rw [settled] at ok
        cases ok
        exact ⟨rfl, settle_wraps (Evaluator.ofRoom_wraps rounds n) wrappable settled⟩

private theorem settleAt_scalar {i : Nat}
    (scalars : ∀ v, (w.store.list l)[i]? = some (.bare v) → v.IsScalar) :
    ∃ later, (settleAt (.ofRoom rounds (n + 1)) home l i).exec w = (.ok (), later) ∧
      ∀ (k : Ref .list) j, ¬ (k = l ∧ j = i) → (later.store.list k)[j]? = (w.store.list k)[j]? := by
  rw [settleAt, Run.exec_bind_ok w (Run.exec_getStore w)]
  split
  · next v bare =>
    rw [Run.exec_bind_ok w (bind_settled rfl home nameless false ((scalars v bare).settled _))]
    refine ⟨{ w with store := w.store.wrapAt l i (.ofValue w.store nameless home v) }, rfl,
      fun k j other => ?_⟩
    rw [Store.getElem?_wrapAt bare, if_neg other]
  · exact ⟨w, rfl, fun _ _ _ => rfl⟩

/-- Bare elements that are numbers and texts become variables, and the others stay. -/
theorem settleAll_scalars (places : List Nat)
    (scalars : ∀ i ∈ places, ∀ v, (w.store.list l)[i]? = some (.bare v) → v.IsScalar) :
    ∃ later, (places.forM (settleAt (.ofRoom rounds (n + 1)) home l)).exec w = (.ok (), later) ∧
      ∀ (k : Ref .list) j, ¬ (k = l ∧ j ∈ places) → (later.store.list k)[j]? =
        (w.store.list k)[j]? := by
  induction places generalizing w with
  | nil => exact ⟨w, rfl, fun _ _ _ => rfl⟩
  | cons i rest ih =>
    have here := scalars i List.mem_cons_self
    obtain ⟨middle, first, elsewhere⟩ := settleAt_scalar rounds n here
    obtain ⟨wraps, _⟩ := settleAt_wraps (Evaluator.ofRoom_wraps rounds (n + 1))
      (fun v bare => .settled ((here v bare).settled _)) first
    obtain ⟨later, others, beyond⟩ :=
      ih fun j member v bare => scalars j (List.mem_cons_of_mem i member) v (wraps.store.bare bare)
    refine ⟨later, (Run.exec_bind_ok w first).trans others, fun k j absent => ?_⟩
    rw [List.mem_cons] at absent
    exact (beyond k j fun both => absent ⟨both.1, .inr both.2⟩).trans
      (elsewhere k j fun both => absent ⟨both.1, .inl both.2⟩)

private theorem settle_scalars (scalars : ∀ v, .bare v ∈ (w.store.list l).toList → v.IsScalar) :
    ∃ later, (settle (.ofRoom rounds (n + 1)) home l).exec w = (.ok (), later) ∧
      ∀ k : Ref .list, k ≠ l → later.store.list k = w.store.list k := by
  rw [settle, Run.exec_bind_ok w (Run.exec_getStore w)]
  obtain ⟨later, settled, others⟩ :=
    settleAll_scalars rounds n (List.range (w.store.list l).size) fun i _ v bare =>
    scalars v (Array.mem_toList_iff.mpr (Array.mem_of_getElem? bare))
  exact ⟨later, settled, fun k other => Array.ext_getElem? fun j => others k j fun both =>
    other both.1⟩

/-- The places of a list are those before an element, its own, and those after it. -/
theorem range_eq_append_cons {k size : Nat} (inside : k < size) :
    ∃ rest, List.range size = List.range k ++ k :: rest ∧ ∀ j ∈ rest, k < j := by
  obtain ⟨more, rfl⟩ := Nat.exists_eq_add_of_lt inside
  refine ⟨(List.range more).map (k + ·.succ), ?_, ?_⟩
  · rw [Nat.add_assoc, List.range_add, List.range_succ_eq_map, List.map_cons, List.map_map]
    rfl
  · simp only [List.mem_map]
    rintro j ⟨i, _, rfl⟩
    omega

private theorem exec_settle_at {ev : Evaluator} {k : Nat} {rest : List Nat} {middle : World}
    (places : List.range (w.store.list l).size = List.range k ++ k :: rest)
    (first : ((List.range k).forM (settleAt ev home l)).exec w = (.ok (), middle)) :
    (settle ev home l).exec w = (settleAt ev home l k >>= fun _ =>
      rest.forM (settleAt ev home l)).exec middle := by
  rw [settle, Run.exec_bind_ok w (Run.exec_getStore w), places, List.forM_eq_forM,
    List.forM_append, ← List.forM_eq_forM, Run.exec_bind_ok w first]
  rfl

/-- Making variables of the elements stops at the first one of which none can be made, which stays.
-/
theorem settle_stops {k : Nat}
    (scalars : ∀ i, i < k → ∀ v, (w.store.list l)[i]? = some (.bare v) → v.IsScalar) {u : Value}
    (there : (w.store.list l)[k]? = some (.bare u)) {fault : Fault}
    (fails : ∀ middle : World, w.Wraps home middle →
      ∃ later, ((Evaluator.ofRoom rounds (n + 1)).bind home nameless false u).exec middle =
        (.error fault, later) ∧ later.store = middle.store) :
    ∃ later, (settle (.ofRoom rounds (n + 1)) home l).exec w = (.error fault, later) ∧
    w.store.Wraps later.store ∧
      (later.store.list l)[k]? = some (.bare u) := by
  obtain ⟨rest, places, _⟩ := range_eq_append_cons (Array.getElem?_eq_some_iff.mp there).1
  have within : ∀ i ∈ List.range k, ∀ v, (w.store.list l)[i]? = some (.bare v) → v.IsScalar :=
    fun i member => scalars i (List.mem_range.mp member)
  obtain ⟨middle, first, beyond⟩ := settleAll_scalars rounds n (List.range k) within
  obtain ⟨wraps, _⟩ := settleAll_wraps (Evaluator.ofRoom_wraps rounds (n + 1)) (List.range k)
    (fun i member v bare => .settled ((within i member v bare).settled _)) first
  -- scalars are put into variables without touching any other place
  have still : (middle.store.list l)[k]? = some (.bare u) := (beyond l k (by simp)).trans there
  obtain ⟨later, failed, same⟩ := fails middle wraps
  have stop : (settleAt (.ofRoom rounds (n + 1)) home l k).exec middle = (.error fault, later) := by
    rw [settleAt, Run.exec_bind_ok middle (Run.exec_getStore middle), still]
    exact Run.exec_bind_error middle failed
  refine ⟨later, ?_, same ▸ wraps.store, same ▸ still⟩
  rw [exec_settle_at places first]
  exact Run.exec_bind_error middle stop

/-- An element of which a certain variable is made, among numbers and texts: the elements before it
become variables, then it does, and then those after it. -/
theorem settle_makes {k : Nat} {u : Value} {x : Variable}
    (there : (w.store.list l)[k]? = some (.bare u))
    (scalars : ∀ i, i ≠ k → ∀ v, (w.store.list l)[i]? = some (.bare v) → v.IsScalar)
    (makes : ∀ middle : World, w.Wraps home middle →
      ((Evaluator.ofRoom rounds (n + 1)).bind home nameless false u).exec middle =
        (.ok x, middle)) :
    ∃ middle later, w.Wraps home middle ∧ (middle.store.list l)[k]? = some (.bare u) ∧
      World.Wraps home { middle with store := middle.store.wrapAt l k x } later ∧
      (settle (.ofRoom rounds (n + 1)) home l).exec w = (.ok (), later) := by
  obtain ⟨rest, places, above⟩ := range_eq_append_cons (Array.getElem?_eq_some_iff.mp there).1
  have within : ∀ i ∈ List.range k, ∀ v, (w.store.list l)[i]? = some (.bare v) → v.IsScalar :=
    fun i member => scalars i (Nat.ne_of_lt (List.mem_range.mp member))
  obtain ⟨middle, (first : ((List.range k).forM (settleAt _ home l)).exec w = _), beyond⟩ :=
    settleAll_scalars rounds n (List.range k) within
  obtain ⟨wraps, _⟩ := settleAll_wraps (Evaluator.ofRoom_wraps rounds (n + 1)) (List.range k)
    (fun i member v bare => .settled ((within i member v bare).settled _)) first
  have still : (middle.store.list l)[k]? = some (.bare u) := (beyond l k (by simp)).trans there
  let made : World := { middle with store := middle.store.wrapAt l k x }
  have here : (settleAt (.ofRoom rounds (n + 1)) home l k).exec middle = (.ok (), made) := by
    rw [settleAt, Run.exec_bind_ok middle (Run.exec_getStore middle), still]
    exact (Run.exec_bind_ok middle (makes middle wraps)).trans rfl
  have after : ∀ i ∈ rest, ∀ v, (made.store.list l)[i]? = some (.bare v) → v.IsScalar := by
    intro i member v bare
    have other : i ≠ k := Nat.ne_of_gt (above i member)
    rw [Store.getElem?_wrapAt still, if_neg fun both => other both.2] at bare
    exact scalars i other v (wraps.store.bare bare)
  obtain ⟨later, (last : (rest.forM (settleAt _ home l)).exec made = _), _⟩ :=
    settleAll_scalars rounds n rest after
  obtain ⟨further, _⟩ := settleAll_wraps (Evaluator.ofRoom_wraps rounds (n + 1)) rest
    (fun i member v bare => .settled ((after i member v bare).settled _)) last
  refine ⟨middle, later, wraps, still, further, ?_⟩
  rw [exec_settle_at places first, Run.exec_bind_ok middle here, last]

theorem evaluate_scalars (home : Option (Ref .scope))
    (scalars : ∀ v, .bare v ∈ (w.store.list l).toList → v.IsScalar) :
    ∃ later, (evaluate (.ofRoom rounds (n + 2)) home (.bare (.list l))).exec w =
      (.ok (.list l), later) ∧ w.Wraps home later ∧
      ∀ k : Ref .list, k ≠ l → later.store.list k = w.store.list k := by
  have wrappable := Store.Wrappable.of_scalars scalars
  obtain ⟨later, settled, others⟩ := settle_scalars rounds n scalars
  have evaluated : (evaluate (.ofRoom rounds (n + 2)) home (.bare (.list l))).exec w =
      (.ok (.list l), later) := by
    rw [(evaluate_list rfl home l w).2 (wrappable.quotedListText _), settled]
    rfl
  exact ⟨later, evaluated, (evaluate_wraps rounds (n + 2) wrappable evaluated).2.1, others⟩

/-- A name that is declared with a list is bound to a variable for it, after its elements became
variables. -/
theorem declaring_list {scope : Ref .scope} {name : Text}
    (wrappable : w.store.Wrappable (.list l)) {middle : World} {v : Value}
    (evaluated : (evaluate (.ofRoom rounds (n + 1)) (some scope) (.bare (.list l))).exec w =
      (.ok v, middle)) :
    (declaring (.ofRoom rounds (n + 1)) scope name (.list l)).exec w =
      (.ok (), { middle with
        store := middle.store.bindName scope name { name := some name, home := some scope,
                                                    content := .list l, tag := .list } }) := by
  obtain ⟨rfl, wraps, held⟩ := evaluate_wraps rounds (n + 1) wrappable evaluated
  rw [declaring, Run.exec_bind_ok w evaluated,
    Run.exec_bind_ok middle (bind_settled rfl (some scope) name false (.list l held))]
  rfl

end Lists

end CommandScript

import CommandScript.Proofs.Calls
import CommandScript.Proofs.Rebinding
import CommandScript.Proofs.Registration

/-! Arguments of calls. They are evaluated and bound one after the other, in the one table that the
function has. An argument therefore has the value that it had before the call unless it looks up the
name of an earlier parameter and its search comes to that table; then it has the new value of the
parameter. -/
namespace CommandScript

private theorem Variable.ofValue_congr {st later : Store} (records : later.records = st.records)
    (nodes : later.nodes = st.nodes) (name : Text) (home : Option (Ref .scope)) (v : Value) :
    ofValue later name home v = ofValue st name home v := by
  cases v with
  | record q => simp only [ofValue, Store.record, Store.node, records, nodes]
  | _ => rfl

/-- A value that is the bare spelling of a name is looked up once more, in the scope where it is
declared. -/
theorem declare_name (rounds n : Nat) {w : World} {scope : Ref .scope} {name s : Text} {v : Value}
    (single : '.' ∉ name) (plain : PlainName s) (noCondition : isCondition s = false)
    (reads : w.store.readName scope (Spelled.trimSpaces s) = .ok v) (settled : v.Settled w.store) :
    (declare (.ofRoom rounds (n + 1)) scope name (.bare (.text s))).exec w =
      (.ok (), { w with store := w.store.declared scope name v }) := by
  have evaluated : (evaluate (.ofRoom rounds (n + 1)) (some scope) (.bare (.text s))).exec w =
      (.ok v, w) := by
    rw [evaluate_name rounds n w plain noCondition, reads]
  rw [declare_single _ single, declaring, Run.exec_bind_ok w evaluated,
    Run.exec_bind_ok w (bind_settled rfl _ name false settled)]
  rfl

private theorem Run.exec_mapM_cons {α β : Type} {f : α → Run β} {a : α} {as : List α} {w : World}
    {ys : List β} :
    (((a :: as).mapM f).exec w).1 = .ok ys ↔
      ∃ y rest middle, (f a).exec w = (.ok y, middle) ∧ ((as.mapM f).exec middle).1 = .ok rest ∧
      ys = y :: rest := by
  rw [List.mapM_cons]
  constructor
  · intro ok
    obtain ⟨y, middle, first, onward⟩ := Run.exec_bind_inv w (Prod.ext ok rfl)
    obtain ⟨rest, last, following, given⟩ := Run.exec_bind_inv middle onward
    cases given
    exact ⟨y, rest, middle, first, by rw [following], rfl⟩
  · rintro ⟨y, rest, middle, first, following, rfl⟩
    rw [Run.exec_bind_ok w first, Run.exec_bind_ok middle (Prod.ext following rfl)]
    rfl

/-! ### Arguments one after the other -/

/-- Arguments are evaluated one after the other in the scope of a caller, each in the world that the
arguments before it leave, and a parameter is declared with each value. -/
inductive InTurn (ev : Evaluator) (scope place : Ref .scope) :
    World → List (Text × Text) → List Value → World → Prop where
  | nil (w : World) : InTurn ev scope place w [] [] w
  | cons {w m last : World} {argument parameter : Text} {rest : List (Text × Text)} {v : Value}
      {vs : List Value}
    (value : (ev.valueOf scope argument).exec w = (.ok v, m)) (settled : v.Settled m.store)
    (onward : InTurn ev scope place { m with store := m.store.declared place parameter v }
      rest vs last) :
    InTurn ev scope place w ((argument, parameter) :: rest) (v :: vs) last

namespace InTurn

variable {rounds n : Nat} {scope place : Ref .scope} {w u : World} {pairs : List (Text × Text)}
  {vs : List Value}

theorem exec (inTurn : InTurn (.ofRoom rounds (n + 1)) scope place w pairs vs u)
    (single : ∀ pair ∈ pairs, '.' ∉ pair.2) :
    (bindArguments (.ofRoom rounds (n + 1)) scope place pairs).exec w = (.ok (), u) := by
  induction inTurn with
  | nil w => rfl
  | cons value settled onward ih =>
    rw [bindArguments, Run.exec_bind_ok _ value,
      Run.exec_bind_ok _ (declare_settled rounds n _ (single _ List.mem_cons_self) settled)]
    exact ih fun pair listed => single pair (List.mem_cons_of_mem _ listed)

theorem split {ev : Evaluator} {front back : List (Text × Text)}
    (inTurn : InTurn ev scope place w (front ++ back) vs u) :
    ∃ first second m, vs = first ++ second ∧ first.length = front.length ∧
    InTurn ev scope place w front first m ∧
      InTurn ev scope place m back second u := by
  induction front generalizing w vs with
  | nil => exact ⟨[], vs, w, rfl, rfl, .nil w, inTurn⟩
  | cons pair front ih =>
    cases inTurn with
    | cons value settled onward =>
      obtain ⟨first, second, m, rfl, length, begin, rest⟩ := ih onward
      exact ⟨_ :: first, second, m, rfl, congrArg Nat.succ length, .cons value settled begin, rest⟩

/-- An argument without a call leaves the store as it is. -/
theorem store_eq {argument : Text} {e : Except Fault Value} {m : World} (free : ')' ∉ argument)
    (value : ((Evaluator.ofRoom rounds n).valueOf scope argument).exec w = (e, m)) :
    m.store = w.store := by
  have still := (Evaluator.ofRoom_still rounds n (Store.CallFree.of_not_mem free w.store)).valueOf
    scope argument .self w rfl
  rwa [value] at still

section Bound

variable (inTurn : InTurn (.ofRoom rounds n) scope place w pairs vs u)
  (free : ∀ pair ∈ pairs, ')' ∉ pair.1)
include inTurn free

/-- Passing arguments changes only what the parameters are bound to in the table of the function. -/
theorem rebinds {st : Store} {t : Ref .table} {names : List Text}
    (start : st.Rebinds t names w.store) (here : (st.scope place).table = t)
    (listed : ∀ pair ∈ pairs, pair.2 ∈ names) : st.Rebinds t names u.store := by
  induction inTurn with
  | nil w => exact start
  | @cons w m _ argument parameter rest v _ value settled onward ih =>
    have kept := store_eq (free _ List.mem_cons_self) value
    have step := (kept ▸ start).bindName here parameter (.ofValue m.store parameter (some place) v)
    apply ih
    · exact fun pair inside => free pair (List.mem_cons_of_mem _ inside)
    · exact step.mono (List.cons_subset.mpr ⟨listed _ List.mem_cons_self, List.Subset.refl names⟩)
    · exact fun pair inside => listed pair (List.mem_cons_of_mem _ inside)

/-- Each parameter is bound to a variable that holds the value of its argument. -/
theorem bound (table : w.store.Has (w.store.scope place).table.cell)
    (distinct : (pairs.map Prod.snd).Nodup) {p : Text} {v : Value}
    (given : (p, v) ∈ (pairs.map Prod.snd).zip vs) :
    v.Settled w.store ∧
      ∃ r, (u.store.tableOf place).find? p = some r ∧
      u.store.var r = .ofValue w.store p (some place) v := by
  induction inTurn with
  | nil w => cases given
  | @cons w m last argument parameter rest x xs value settled onward ih =>
    have kept := store_eq (free _ List.mem_cons_self) value
    have others : ∀ pair ∈ rest, ')' ∉ pair.1 :=
      fun pair inside => free pair (List.mem_cons_of_mem _ inside)
    obtain ⟨apart, distinct⟩ := List.nodup_cons.mp distinct
    rw [List.map_cons, List.zip_cons_cons, List.mem_cons] at given
    rw [← kept] at table ⊢
    have there : (m.store.declared place parameter x).Has (m.store.scope place).table.cell :=
      table.mono (Store.grows_bindName m.store place parameter _)
    rcases given with same | inside
    · cases same
      refine ⟨settled, ⟨m.store.vars.size⟩, ?_⟩
      -- The arguments that follow bind other names, so that the binding is still there at the end.
      have after := onward.rebinds others
        (Store.Rebinds.refl (m.store.scope place).table (rest.map Prod.snd) _) rfl
        fun pair listed => List.mem_map_of_mem listed
      have fresh : (m.store.declared place parameter v).Has
          (Ref.cell (k := .variable) ⟨m.store.vars.size⟩) :=
        Arena.holds_alloc_fresh m.store.vars _
      have binding : ((m.store.declared place parameter v).tableOf place).find? parameter =
          some ⟨m.store.vars.size⟩ := by
        rw [Store.declared, Store.tableOf_bindName place place parameter _ table, if_pos rfl,
          Table.find?_insert_here]
      constructor
      · rw [Store.tableOf, after.scope_eq]
        exact (after.others parameter apart).trans binding
      · rw [Store.var, (after.vars _ fresh).2]
        exact Store.var_bindName_fresh _ _ _
    · obtain ⟨settled, r, found, holds⟩ := ih others there distinct inside
      refine ⟨settled.congr rfl, r, found, ?_⟩
      rw [holds]
      exact Variable.ofValue_congr rfl rfl p _ v

end Bound

/-- An argument that is the name of an earlier parameter has the value that this parameter was
given, if its search comes to the table of the function. -/
theorem reads_parameter {argument parameter p : Text} {front back : List (Text × Text)}
    {v x : Value} {first second : List Value}
    (inTurn : InTurn (.ofRoom rounds (n + 2)) scope place w (front ++ (argument, parameter) :: back)
      (first ++ x :: second) u)
    (same : first.length = front.length)
    (free : ∀ pair ∈ front ++ (argument, parameter) :: back, ')' ∉ pair.1)
    (table : w.store.Has (w.store.scope place).table.cell) (distinct : (front.map Prod.snd).Nodup)
    (given : (p, v) ∈ (front.map Prod.snd).zip first) (plain : PlainName argument)
    (noCondition : isCondition argument = false) (named : Spelled.trimSpaces argument = p)
    (consults : w.store.Consults scope (w.store.scope place).table p) : x = v.asRead := by
  obtain ⟨begun, rest, m, values, length, before, onward⟩ := inTurn.split
  obtain ⟨rfl, rfl⟩ := List.append_inj values (same.trans length.symm)
  have frontFree : ∀ pair ∈ front, ')' ∉ pair.1 :=
    fun pair listed => free pair (List.mem_append_left _ listed)
  have noCall : ')' ∉ argument :=
    free (argument, parameter) (List.mem_append_right _ List.mem_cons_self)
  have rebinds := before.rebinds frontFree
    (Store.Rebinds.refl (w.store.scope place).table (front.map Prod.snd) w.store) rfl
    fun pair listed => List.mem_map_of_mem listed
  obtain ⟨settled, r, found, holds⟩ := before.bound frontFree table distinct given
  have inside : (m.store.table (w.store.scope place).table).find? p = some r := by
    rw [← found, Store.tableOf, rebinds.scope_eq]
  obtain ⟨owner, resolved⟩ := rebinds.resolve_bound consults inside
  have reads : m.store.ReadsName scope argument :=
    ⟨noCondition, fun call => noCall (List.mem_of_getLast? call.1)⟩
  have read : m.store.readName scope (Spelled.trimSpaces argument) = .ok v.asRead := by
    rw [named, Store.readName, resolved]
    change (m.store.var r).reading = .ok v.asRead
    rw [holds, Variable.reading_ofValue _ _ settled]
  cases onward with
  | cons value _ _ =>
    rw [read_plain rounds n m plain reads, read] at value
    cases value
    rfl

end InTurn

/-! ### Arguments all at once -/

/-- No argument looks up one of some names, or the name of a parameter before it, in a table. -/
def Store.Independent (st : Store) (t : Ref .table) (scope : Ref .scope) :
    List Text → List (Text × Text) → Prop
  | _, [] => True
  | names, (argument, parameter) :: rest =>
    ¬ st.Touches t names scope argument ∧ st.Independent t scope (parameter :: names) rest

/-- Arguments that do not depend on earlier parameters are passed with the values that they have
before the call. -/
theorem inTurn_iff_before (rounds n : Nat) {st : Store} {scope place : Ref .scope}
    {t : Ref .table} (closed : st.Closed) (held : st.Has scope.cell)
    (noClass : ∀ q u n, (st.record q).body = some (u, n) → u ≠ t)
    (here : (st.scope place).table = t) {names : List Text} {pairs : List (Text × Text)}
    (independent : st.Independent t scope names pairs) (free : ∀ pair ∈ pairs, ')' ∉ pair.1)
    {m : World} (rebinds : st.Rebinds t names m.store) (vs : List Value) :
    (∃ u, InTurn (.ofRoom rounds n) scope place m pairs vs u) ↔
      (((pairs.map Prod.fst).mapM ((Evaluator.ofRoom rounds n).valueOf scope)).exec
        { m with store := st }).1 = .ok vs ∧
        ∀ v ∈ vs, v.Settled st := by
  induction pairs generalizing names m vs with
  | nil =>
    constructor
    · rintro ⟨u, inTurn⟩
      cases inTurn
      exact ⟨rfl, fun _ member => absurd member List.not_mem_nil⟩
    · rintro ⟨none, _⟩
      cases none
      exact ⟨m, .nil m⟩
  | cons pair rest ih =>
    obtain ⟨argument, parameter⟩ := pair
    obtain ⟨untouched, independent⟩ := independent
    have others : ∀ pair ∈ rest, ')' ∉ pair.1 :=
      fun pair inside => free pair (List.mem_cons_of_mem _ inside)
    have calls := Store.CallFree.of_not_mem (free _ List.mem_cons_self) st
    have twin :=
      (Evaluator.ofRoom_twin rounds n (rebinds.twins closed held noClass calls untouched)).valueOf
        argument .self
    rw [List.map_cons, Run.exec_mapM_cons]
    rcases twin { m with store := st } rfl with ⟨v, after, before, kept, now, -⟩ |
      ⟨⟨fault, failed, before⟩, ⟨other, stopped, now⟩⟩
    · have step := rebinds.bindName here parameter (.ofValue m.store parameter (some place) v)
      let next : World := { after with store := m.store.declared place parameter v }
      have back : { next with store := st } = after := by
        rw [← kept]
      have onward := fun vs => ih independent others (m := next) step vs
      rw [back] at onward
      constructor
      · rintro ⟨u, inTurn⟩
        cases inTurn with
        | cons value settled passed =>
          rw [now] at value
          cases value
          obtain ⟨values, all⟩ := (onward _).mp ⟨u, passed⟩
          exact ⟨⟨_, _, after, before, values, rfl⟩,
            List.forall_mem_cons.mpr ⟨settled.congr rebinds.lists.symm, all⟩⟩
      · rintro ⟨⟨y, ys, middle, first, values, rfl⟩, all⟩
        rw [before] at first
        cases first
        obtain ⟨settled, all⟩ := List.forall_mem_cons.mp all
        obtain ⟨u, passed⟩ := (onward ys).mpr ⟨values, all⟩
        exact ⟨u, .cons now (settled.congr rebinds.lists) passed⟩
    · constructor
      · rintro ⟨u, inTurn⟩
        cases inTurn with
        | cons value _ _ =>
          rw [now] at value
          cases value
      · rintro ⟨⟨y, ys, middle, first, _⟩, _⟩
        rw [before] at first
        cases first

/-- A caller outside the function cannot come to its table by names without points. -/
theorem Store.not_touches {st : Store} {t : Ref .table} {scope : Ref .scope} {text : Text}
    (outside : ∀ a ∈ st.ancestors scope, (st.scope a).table ≠ t) (single : '.' ∉ text)
    (names : List Text) : ¬ st.Touches t names scope text := by
  rintro ⟨s, name, first, rest, inside, spelled, parts, meets⟩
  have whole : '.' ∉ name := fun member =>
    single (inside.part.isInfix.subset (spelled.isInfix.subset member))
  rw [List.splitOn_eq_singleton whole] at parts
  cases parts
  cases meets with
  | here _ consults =>
    obtain ⟨front, a, back, chain, same, _⟩ := consults
    exact outside a (chain ▸ List.mem_append_right _ List.mem_cons_self) same

private theorem Store.independent_of_outside {st : Store} {t : Ref .table} {scope : Ref .scope}
    {pairs : List (Text × Text)} (outside : ∀ a ∈ st.ancestors scope, (st.scope a).table ≠ t)
    (single : ∀ pair ∈ pairs, '.' ∉ pair.1) (names : List Text) :
    st.Independent t scope names pairs := by
  induction pairs generalizing names with
  | nil => trivial
  | cons pair rest ih =>
    constructor
    · exact not_touches outside (single pair List.mem_cons_self) names
    · exact ih (fun other listed => single other (List.mem_cons_of_mem _ listed)) _

/-! ### Calls -/

structure BoundInTurn (rounds n : Nat) (w : World) (scope place : Ref .scope)
    (pairs : List (Text × Text)) : Prop where
  /-- Once all arguments have their values in turn, each parameter holds the value of its argument.
  -/
  holds : ∀ vs u, InTurn (.ofRoom rounds n) scope place w pairs vs u →
    (bindArguments (.ofRoom rounds n) scope place pairs).exec w = (.ok (), u) ∧
    ∀ p v, (p, v) ∈ (pairs.map Prod.snd).zip vs → ∃ r, (u.store.tableOf place).find? p = some r ∧
      u.store.var r = .ofValue w.store p (some place) v ∧ (u.store.var r).reading = .ok v.asRead
  /-- The values are those from before the call, if no argument looks up an earlier parameter. -/
  before : w.store.Independent (w.store.scope place).table scope [] pairs →
    (∀ q u n, (w.store.record q).body = some (u, n) → u ≠ (w.store.scope place).table) → ∀ vs,
    (∃ u, InTurn (.ofRoom rounds n) scope place w pairs vs u) ↔
      (((pairs.map Prod.fst).mapM ((Evaluator.ofRoom rounds n).valueOf scope)).exec w).1 = .ok vs ∧
      ∀ v ∈ vs, v.Settled w.store
  /-- An argument that is the name of an earlier parameter, and comes to it, has the value that was
    just passed to this. -/
  overtaken : ∀ front argument parameter back first x second u, pairs =
    front ++ (argument, parameter) :: back →
    first.length = front.length → InTurn (.ofRoom rounds n) scope place w pairs
      (first ++ x :: second) u →
    ∀ p v, (p, v) ∈ (front.map Prod.snd).zip first → PlainName argument →
      isCondition argument = false →
      Spelled.trimSpaces argument = p → w.store.Consults scope (w.store.scope place).table p →
        x = v.asRead
  /-- An argument whose value is the bare spelling of a name is looked up again, among the names of
    the function. -/
  respelled : ∀ front argument parameter back first m s last v, pairs =
    front ++ (argument, parameter) :: back →
    InTurn (.ofRoom rounds n) scope place w front first m →
    ((Evaluator.ofRoom rounds n).valueOf scope argument).exec m = (.ok (.text s), last) →
      PlainName s → isCondition s = false →
    last.store.readName place (Spelled.trimSpaces s) = .ok v → v.Settled last.store →
      (bindArguments (.ofRoom rounds n) scope place pairs).exec w =
        (bindArguments (.ofRoom rounds n) scope place back).exec
          { last with store := last.store.declared place parameter v }

private theorem bindArguments_append (ev : Evaluator) (scope place : Ref .scope)
    (front back : List (Text × Text)) :
    bindArguments ev scope place (front ++ back) =
      (bindArguments ev scope place front >>= fun _ => bindArguments ev scope place back) := by
  induction front with
  | nil => rw [List.nil_append, bindArguments, pure_bind]
  | cons pair front ih =>
    obtain ⟨argument, parameter⟩ := pair
    rw [List.cons_append, bindArguments, bindArguments, ih]
    simp only [bind_assoc]

private theorem boundInTurn (rounds n : Nat) {w : World} (closed : w.store.Closed)
    {scope place : Ref .scope} (held : w.store.Has scope.cell) (there : w.store.Has place.cell)
    {pairs : List (Text × Text)} (free : ∀ pair ∈ pairs, ')' ∉ pair.1)
    (single : ∀ pair ∈ pairs, '.' ∉ pair.2) (distinct : (pairs.map Prod.snd).Nodup) :
    BoundInTurn rounds (n + 2) w scope place pairs where
  holds vs u inTurn := by
    refine ⟨inTurn.exec single, fun p v given => ?_⟩
    obtain ⟨settled, r, found, holds⟩ := inTurn.bound free (closed.table there) distinct given
    exact ⟨r, found, holds, holds ▸ Variable.reading_ofValue _ _ settled⟩
  before independent noClass vs :=
    inTurn_iff_before rounds (n + 2) closed held noClass rfl independent free
      (Store.Rebinds.refl _ [] w.store) vs
  overtaken := by
    rintro front argument parameter back first x second u rfl length inTurn p v given plain
      noCondition named consults
    have earlier : (front.map Prod.snd).Nodup := by
      rw [List.map_append] at distinct
      exact distinct.of_append_left
    exact inTurn.reads_parameter length free (closed.table there) earlier given plain noCondition
      named consults
  respelled := by
    rintro front argument parameter back first m s last v rfl inTurn value plain noCondition
      reads settled
    have point : '.' ∉ parameter :=
      single (argument, parameter) (List.mem_append_right _ List.mem_cons_self)
    have passed := inTurn.exec fun pair listed => single pair (List.mem_append_left _ listed)
    rw [bindArguments_append, Run.exec_bind_ok w passed, bindArguments, Run.exec_bind_ok m value,
      Run.exec_bind_ok last (declare_name rounds (n + 1) point plain noCondition reads settled)]

/-- A function is called with as many arguments without calls as it has parameters, by a statement
or in an expression. The arguments are passed one after the other, and only then the body runs. A
statement takes all spaces out of them first. -/
theorem arguments_bound_in_turn (rounds n : Nat) (w : World) (closed : w.store.Closed) (c : Call)
    (spelled : c.WellSpelled) (scope : Ref .scope) (held : w.store.Has scope.cell)
    (callee : Ref .node) (names : List Text) (calls : c.Calls w.store scope callee names)
    (distinct : names.Nodup) (single : ∀ p ∈ names, '.' ∉ p) :
    let ev := Evaluator.ofRoom rounds (n + 2)
    let place := (w.store.node callee).scope
    let given := c.arguments.zip names
    let squeezed := (c.arguments.map Text.compact).zip names
    (∀ node file, w.store.IsStatement node scope c.text →
      ((Evaluator.ofRoom rounds (n + 3)).run node file).exec w =
        (bindArguments ev scope place squeezed >>= fun _ =>
        runBody ev callee file >>= fun _ => pure Outcome.done).exec w) ∧
    BoundInTurn rounds (n + 2) w scope place squeezed ∧
    ((Evaluator.ofRoom rounds (n + 3)).valueOf scope c.text).exec w =
      (bindArguments ev scope place given >>= fun _ =>
      runBody ev callee [] >>= fun outcome => pure outcome.value).exec w ∧
    BoundInTurn rounds (n + 2) w scope place given := by
  intro ev place given squeezed
  obtain ⟨r, found, tag, content⟩ := calls.means
  have there : w.store.Has place.cell := by
    have inside := closed.content (closed.findPath held found)
    rw [content] at inside
    exact closed.nodeScope (inside callee.cell (List.mem_singleton.mpr rfl))
  -- The two lists of arguments differ in spaces only.
  have binds : ∀ texts : List Text, texts.length = names.length → (∀ a ∈ texts, ')' ∉ a) →
      BoundInTurn rounds (n + 2) w scope place (texts.zip names) := by
    intro texts fits free
    have parameters : (texts.zip names).map Prod.snd = names := List.map_snd_zip fits.ge
    apply boundInTurn rounds n closed held there
    · exact fun pair listed => free pair.1 (List.of_mem_zip listed).1
    · exact fun pair listed => single pair.2 (List.of_mem_zip listed).2
    · rwa [parameters]
  have free : ∀ a ∈ c.arguments, ')' ∉ a := fun a listed => (spelled.arguments a listed).noClosing
  refine ⟨fun node file stands => spelled.exec_run calls file stands, ?_,
    spelled.exec_expression ev calls, ?_⟩
  · refine binds _ (by rw [List.length_map, calls.fits]) ?_
    intro a listed
    obtain ⟨argument, inside, rfl⟩ := List.mem_map.mp listed
    exact fun member => free argument inside (List.mem_of_mem_filter member)
  · exact binds _ calls.fits free

@[irreducible] def Store.withSwap : Store where
  scopes :=
    ⟨#[{ parent := none, table := ⟨0⟩ }, { parent := some ⟨0⟩, table := ⟨1⟩ },
      { parent := some ⟨1⟩, table := ⟨2⟩ }]⟩
  tables := ⟨#[[(['f'], ⟨0⟩), (['x'], ⟨3⟩), (['y'], ⟨4⟩)], [(['a'], ⟨1⟩), (['b'], ⟨2⟩)], []]⟩
  vars := ⟨#[{ name := some ['f'], home := some ⟨0⟩, content := .node ⟨0⟩, tag := .function },
    { name := some ['a'], home := some ⟨1⟩, content := .int 1, tag := .int },
    { name := some ['b'], home := some ⟨1⟩, content := .int 2, tag := .int },
    { name := some ['x'], home := some ⟨0⟩, content := .int 7, tag := .int },
    { name := some ['y'], home := some ⟨0⟩, content := .int 8, tag := .int }]⟩
  nodes := ⟨#[{ command := "def f(a, b)".toList, index := 0, children := [⟨1⟩], scope := ⟨1⟩,
                interactive := false },
    { command := "if (a == 1)".toList, index := 1, children := [⟨2⟩], scope := ⟨2⟩,
      interactive := false },
    { command := "f(b, a)".toList, index := 2, children := [], scope := ⟨2⟩,
      interactive := false }]⟩

def Call.inner : Call := ⟨['f'], [['b'], [' ', 'a']]⟩

def Call.outer : Call := ⟨['f'], [['x'], [' ', 'y']]⟩

private theorem Store.withSwap_calls {c : Call} {scope : Ref .scope}
    (function : c.function = ['f']) (two : c.arguments.length = 2)
    (found : withSwap.findPath scope ['f'] = some ⟨0⟩) :
    c.Calls withSwap scope ⟨0⟩ [['a'], ['b']] where
  means := by
    refine ⟨⟨0⟩, by rw [function, found], by decide +kernel, ?_⟩
    unfold withSwap
    rfl
  parameters := by
    unfold withSwap
    rfl
  fits := two

private theorem Store.withSwap_reads :
    withSwap.readName ⟨2⟩ ['b'] = .ok (.int 2) ∧ withSwap.readName ⟨2⟩ ['a'] = .ok (.int 1) ∧
    withSwap.readName ⟨0⟩ ['x'] = .ok (.int 7) ∧ withSwap.readName ⟨0⟩ ['y'] = .ok (.int 8) ∧
    (withSwap.declared ⟨1⟩ ['a'] (.int 2)).readName ⟨2⟩ ['a'] = .ok (.int 2) := by
  unfold withSwap
  exact ⟨rfl, rfl, rfl, rfl, rfl⟩

private theorem Store.withSwap_noClass (q : Ref .record) : (withSwap.record q).body = none := by
  unfold withSwap
  rfl

/-- A letter is read as a name, with or without a space before it. -/
theorem World.read_letter {w : World} {scope : Ref .scope} {c : Char} {v : Value} {text : Text}
    (letter : c ∈ ['a', 'b', 'x', 'y']) (spaces : text = [c] ∨ text = [' ', c])
    (reads : w.store.readName scope [c] = .ok v) :
    ((Evaluator.ofRoom 0 2).valueOf scope text).exec w = (.ok v, w) := by
  have fair : PlainName text ∧ isCondition text = false ∧ Spelled.trimSpaces text = [c] ∧
      text.getLast? ≠ some ')' := by
    simp only [List.mem_cons, List.not_mem_nil, or_false] at letter
    rcases letter with rfl | rfl | rfl | rfl <;> rcases spaces with rfl | rfl <;>
      exact ⟨by constructor <;> decide, by decide, by decide, by decide⟩
  obtain ⟨plain, noCondition, trimmed, noCall⟩ := fair
  rw [read_plain 0 0 w plain ⟨noCondition, fun call => noCall call.1⟩, trimmed, reads]

theorem arguments_bound_in_turn_swapped :
    let w : World := { store := Store.withSwap }
    let pairs := [(['b'], ['a']), (['a'], ['b'])]
    (((pairs.map Prod.fst).mapM ((Evaluator.ofRoom 0 2).valueOf ⟨2⟩)).exec w).1 =
      .ok [.int 2, .int 1] ∧
    (∀ x u, InTurn (.ofRoom 0 2) ⟨2⟩ ⟨1⟩ w pairs [.int 2, x] u → x = .int 2) ∧
    (∃ u, ((Evaluator.ofRoom 0 3).run ⟨2⟩ []).exec w =
      (runBody (.ofRoom 0 2) ⟨0⟩ [] >>= fun _ => pure Outcome.done).exec u ∧
      ∀ p ∈ [['a'], ['b']], ∃ r, (u.store.tableOf ⟨1⟩).find? p = some r ∧
      (u.store.var r).reading = .ok (.int 2)) ∧
    ∃ u, InTurn (.ofRoom 0 2) ⟨0⟩ ⟨1⟩ w [(['x'], ['a']), ([' ', 'y'], ['b'])]
      [.int 7, .int 8] u := by
  intro w pairs
  have closed : w.store.Closed := by decide +kernel
  have place : (w.store.node ⟨0⟩).scope = ⟨1⟩ := by decide +kernel
  obtain ⟨b, a, x, y, later⟩ := Store.withSwap_reads
  obtain ⟨runs, swapped, _, _⟩ :=
    arguments_bound_in_turn 0 0 w closed Call.inner
      ⟨by decide, by decide, by decide, by decide +kernel⟩ ⟨2⟩
    (by decide +kernel) ⟨0⟩ [['a'], ['b']] (Store.withSwap_calls rfl rfl (by decide +kernel))
    (by decide) (by decide)
  obtain ⟨_, _, _, direct⟩ := arguments_bound_in_turn 0 0 w closed Call.outer
    ⟨by decide, by decide, by decide, by decide +kernel⟩ ⟨0⟩
    (by decide +kernel) ⟨0⟩ [['a'], ['b']] (Store.withSwap_calls rfl rfl (by decide +kernel))
    (by decide) (by decide)
  have squeezed : (Call.inner.arguments.map Text.compact).zip [['a'], ['b']] = pairs := by decide
  rw [place, squeezed] at runs swapped
  rw [place] at direct
  refine ⟨?_, ?_, ?_, ?_⟩
  · refine Run.exec_mapM_cons.mpr ⟨_, _, w, World.read_letter (by decide) (.inl rfl) b, ?_, rfl⟩
    exact Run.exec_mapM_cons.mpr ⟨_, [], w, World.read_letter (by decide) (.inl rfl) a, rfl, rfl⟩
  · intro x u inTurn
    apply swapped.overtaken [(['b'], ['a'])] ['a'] ['b'] [] [.int 2] x [] u rfl rfl inTurn
      ['a'] (.int 2)
    · simp
    · constructor <;> decide
    · decide
    · decide
    · exact ⟨[⟨2⟩], ⟨1⟩, [⟨0⟩], by decide +kernel, by decide +kernel, by decide +kernel⟩
  · have inTurn : InTurn (.ofRoom 0 2) ⟨2⟩ ⟨1⟩ w pairs [.int 2, .int 2] _ :=
      .cons (World.read_letter (by decide) (.inl rfl) b) (.int 2)
        (.cons (World.read_letter (by decide) (.inl rfl) later) (.int 2) (.nil _))
    obtain ⟨passed, holds⟩ := swapped.holds _ _ inTurn
    refine ⟨_, (runs ⟨2⟩ [] ⟨by decide +kernel, by decide +kernel⟩).trans
      (Run.exec_bind_ok w passed), ?_⟩
    intro p listed
    have given : (p, Value.int 2) ∈ (pairs.map Prod.snd).zip [.int 2, .int 2] := by
      simpa [pairs] using listed
    obtain ⟨r, found, _, reading⟩ := holds p (.int 2) given
    exact ⟨r, found, reading⟩
  · have outside : ∀ s ∈ w.store.ancestors ⟨0⟩, (w.store.scope s).table ≠
      (w.store.scope ⟨1⟩).table := by decide +kernel
    have noClass : ∀ q u n, (w.store.record q).body = some (u, n) →
        u ≠ (w.store.scope ⟨1⟩).table := by
      intro q u n body
      rw [Store.withSwap_noClass] at body
      cases body
    refine (direct.before (Store.independent_of_outside outside (by decide) []) noClass _).mpr
      ⟨?_, ?_⟩
    · refine Run.exec_mapM_cons.mpr ⟨_, _, w, World.read_letter (by decide) (.inl rfl) x, ?_, rfl⟩
      exact Run.exec_mapM_cons.mpr ⟨_, [], w, World.read_letter (by decide) (.inr rfl) y, rfl, rfl⟩
    · intro v listed
      simp only [List.mem_cons, List.not_mem_nil, or_false] at listed
      rcases listed with rfl | rfl <;> exact .int _

end CommandScript

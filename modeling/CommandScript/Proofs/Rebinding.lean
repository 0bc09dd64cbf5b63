import CommandScript.Proofs.Locality
import CommandScript.Proofs.Stillness

/-! Expressions while names are bound anew. When names are bound in one table, an expression without
calls keeps its value unless one of the names that it looks up is among them and its search comes to
that table. -/
namespace CommandScript

/-! ### Names bound anew in a table -/

private theorem Ref.cell_inj {k : Kind} {a b : Ref k} (same : a.cell = b.cell) : a = b := by
  cases a
  cases b
  cases same
  rfl

private theorem Value.cell_ne_table {v : Value} {c : Cell} (edge : c ∈ v.cells) (t : Ref .table) :
    c ≠ t.cell := by
  rintro rfl
  cases v <;> simp [Value.cells, Ref.cell] at edge

private theorem Item.cell_ne_table {i : Item} {c : Cell} (edge : c ∈ i.cells) (t : Ref .table) :
    c ≠ t.cell := by
  cases i with
  | bare v => exact Value.cell_ne_table edge t
  | held r =>
    rw [List.mem_singleton.mp edge]
    exact fun same => nomatch same

namespace Store

variable {t : Ref .table} {names rest : List Text} {name : Text} {scope : Ref .scope}
  {st middle later : Store}

/-- A later store in which a table may bind some names to new variables, and all else is as before.
-/
structure Rebinds (t : Ref .table) (names : List Text) (st later : Store) : Prop where
  nans : later.sameNaN = st.sameNaN
  scopes : later.scopes = st.scopes
  lists : later.lists = st.lists
  records : later.records = st.records
  nodes : later.nodes = st.nodes
  vars : st.vars.Extends later.vars
  tables : ∀ u : Ref .table, u ≠ t → later.table u = st.table u
  others : ∀ name, name ∉ names → (later.table t).find? name = (st.table t).find? name

/-- The search for a name comes to a table: no scope before one that has this table binds the name.
-/
def Consults (st : Store) (scope : Ref .scope) (t : Ref .table) (name : Text) : Prop :=
  ∃ front a back, st.ancestors scope = front ++ a :: back ∧ (st.scope a).table = t ∧
  ∀ b ∈ front, (st.tableOf b).find? name = none

inductive Meets (st : Store) (t : Ref .table) (names : List Text) :
    Ref .scope → Text → List Text → Prop where
  | here {scope : Ref .scope} {name : Text} {rest : List Text} (listed : name ∈ names)
      (consults : st.Consults scope t name) :
    Meets st t names scope name rest
  | member {scope owner members : Ref .scope} {name next : Text} {rest : List Text}
      {r : Ref .variable}
    (found : st.resolve scope name = some (owner, r)) (inside : (st.var r).members = some members)
    (onward : Meets st t names members next rest) : Meets st t names scope name (next :: rest)

namespace Rebinds

theorem refl (t : Ref .table) (names : List Text) (st : Store) : Rebinds t names st st :=
  ⟨rfl, rfl, rfl, rfl, rfl, .refl _, fun _ _ => rfl, fun _ _ => rfl⟩

variable (rebinds : Rebinds t names st later)
include rebinds

theorem scope_eq (s : Ref .scope) : later.scope s = st.scope s :=
  congrArg (Arena.read · s) rebinds.scopes

theorem bindName {target : Ref .scope} (here : (st.scope target).table = t) (name : Text)
    (x : Variable) : Rebinds t (name :: names) st (later.bindName target name x) where
  nans := rebinds.nans
  scopes := rebinds.scopes
  lists := rebinds.lists
  records := rebinds.records
  nodes := rebinds.nodes
  vars := rebinds.vars.trans (later.extends_newVariable x).vars
  tables u other := by
    have there : (later.scope target).table = t := by
      rw [rebinds.scope_eq, here]
    have apart : u ≠ (later.scope target).table := there ▸ other
    exact (Arena.read_update_elsewhere later.tables _ u _ apart).trans (rebinds.tables u other)
  others other unlisted := by
    have there : (later.scope target).table = t := by
      rw [rebinds.scope_eq, here]
    have apart : ((later.bindName target name x).tableOf target).find? other =
        (later.tableOf target).find? other :=
      find?_bindName_other (List.ne_of_not_mem_cons unlisted) target target x
    have same : (later.bindName target name x).tableOf target =
        (later.bindName target name x).table t :=
      congrArg (later.bindName target name x).table there
    rw [same, tableOf, there] at apart
    exact apart.trans (rebinds.others other (List.not_mem_of_not_mem_cons unlisted))

theorem mono {more : List Text} (listed : names ⊆ more) : Rebinds t more st later :=
  { rebinds with others := fun name unlisted => rebinds.others name fun inside => unlisted (listed
    inside) }

theorem tableOf {a : Ref .scope} (apart : (st.scope a).table ≠ t) :
    later.tableOf a = st.tableOf a := by
  rw [Store.tableOf, rebinds.scope_eq]
  exact rebinds.tables _ apart

theorem resolve (unmet : name ∈ names → ¬ st.Consults scope t name) :
    later.resolve scope name = st.resolve scope name := by
  rw [Store.resolve, Store.resolve, ancestors_congr rebinds.scopes]
  have unmet : name ∈ names → ¬ ∃ front a back, st.ancestors scope = front ++ a :: back ∧
    (st.scope a).table = t ∧
      ∀ b ∈ front, (st.tableOf b).find? name = none := unmet
  -- The search goes through the chain scope by scope, and stops before it comes to the table.
  generalize st.ancestors scope = chain at unmet
  induction chain with
  | nil => rfl
  | cons a chain ih =>
    have here : (later.tableOf a).find? name = (st.tableOf a).find? name := by
      by_cases same : (st.scope a).table = t
      · have unlisted : name ∉ names :=
          fun listed => unmet listed ⟨[], a, chain, rfl, same,
            fun _ member => absurd member List.not_mem_nil⟩
        rw [Store.tableOf, Store.tableOf, rebinds.scope_eq, same]
        exact rebinds.others name unlisted
      · rw [rebinds.tableOf same]
    rw [List.findSome?_cons, List.findSome?_cons, here]
    cases bound : (st.tableOf a).find? name with
    | some r => rfl
    | none =>
      refine ih fun listed => ?_
      rintro ⟨front, b, back, rfl, same, before⟩
      exact unmet listed ⟨a :: front, b, back, rfl, same, List.forall_mem_cons.mpr ⟨bound, before⟩⟩

/-- A search that comes to the table finds what the name is bound to there now. -/
theorem resolve_bound {r : Ref .variable} (consults : st.Consults scope t name)
    (bound : (later.table t).find? name = some r) :
    ∃ owner, later.resolve scope name = some (owner, r) := by
  obtain ⟨front, a, back, chain, same, before⟩ := consults
  rw [Store.resolve, ancestors_congr rebinds.scopes, chain]
  clear chain
  have met : ∀ b, (st.scope b).table = t → (later.tableOf b).find? name = some r := by
    intro b table
    rw [Store.tableOf, rebinds.scope_eq, table, bound]
  induction front with
  | nil =>
    rw [List.nil_append, List.findSome?_cons, met a same]
    exact ⟨a, rfl⟩
  | cons b front ih =>
    rw [List.cons_append, List.findSome?_cons]
    by_cases table : (st.scope b).table = t
    · rw [met b table]
      exact ⟨b, rfl⟩
    · rw [rebinds.tableOf table, before b List.mem_cons_self]
      exact ih fun c member => before c (List.mem_cons_of_mem _ member)

theorem find (closed : st.Closed) (held : st.Has scope.cell)
    (unmet : ¬ st.Meets t names scope name rest) :
    later.find scope name rest = st.find scope name rest := by
  induction rest generalizing scope name with
  | nil =>
    rw [Store.find, Store.find, rebinds.resolve fun listed consults =>
      unmet (.here listed consults)]
  | cons next rest ih =>
    rw [Store.find, Store.find, rebinds.resolve fun listed consults =>
      unmet (.here listed consults)]
    cases found : st.resolve scope name with
    | none => rfl
    | some pair =>
      obtain ⟨owner, r⟩ := pair
      have inside := (closed.resolve held found).2
      have same : later.var r = st.var r := (rebinds.vars r inside).2
      simp only [Option.bind_some, same]
      cases members : (st.var r).members with
      | none => rfl
      | some m =>
        exact ih (closed.members inside members) fun onward => unmet (.member found members onward)

/-- All cells but the table itself are as before, and no value leads to the table if no class has
it. -/
theorem mirrors (closed : st.Closed) (noClass : ∀ q u n, (st.record q).body = some (u, n) → u ≠ t) :
    Mirrors (fun c => st.Has c ∧ c ≠ t.cell) st later where
  cells {c} known := by
    obtain ⟨held, other⟩ := known
    match c with
    | ⟨.scope, index⟩ =>
      exact congrArg Content.scope (congrArg (Arena.read · ⟨index⟩) rebinds.scopes)
    | ⟨.table, index⟩ =>
      exact congrArg Content.table
        (rebinds.tables ⟨index⟩ fun same => other (congrArg Ref.cell same))
    | ⟨.variable, index⟩ => exact congrArg Content.var (rebinds.vars ⟨index⟩ held).2
    | ⟨.list, index⟩ => exact congrArg Content.list (congrArg (Arena.read · ⟨index⟩) rebinds.lists)
    | ⟨.record, index⟩ =>
      exact congrArg Content.record (congrArg (Arena.read · ⟨index⟩) rebinds.records)
    | ⟨.node, index⟩ => exact congrArg Content.node (congrArg (Arena.read · ⟨index⟩) rebinds.nodes)
  nans _ _ := by rw [rebinds.nans]
  content known edge := ⟨closed.content known.1 _ edge, Value.cell_ne_table edge t⟩
  item known element edge := ⟨closed.item known.1 element _ edge, Item.cell_ne_table edge t⟩
  body {q u n} known body :=
    ⟨(closed.body known.1 body).1, fun same => noClass q u n body (Ref.cell_inj same)⟩
  entry known member edge := ⟨closed.entry known.1 member _ edge, Item.cell_ne_table edge t⟩
  binding known member := ⟨closed.bound known.1 member, fun same => nomatch same⟩

end Rebinds

end Store

/-! ### Runs from two stores -/

/-- What is found by a look-up is what the store has for the whole name. -/
theorem findPath_of_lookup {ev : Evaluator} {scope : Ref .scope} {name : Text} {r : Ref .variable}
    {w later : World} (ok : (lookup ev scope name).exec w = (.ok (.held r), later)) :
    w.store.findPath scope name = some r := by
  have literal : ∀ x : Run Value, (do return .bare (← x) : Run Item).exec w ≠
      (.ok (.held r), later) := by
    intro x given
    obtain ⟨v, middle, -, last⟩ := Run.exec_bind_inv w given
    cases last
  unfold lookup at ok
  unfold Store.findPath
  cases parts : name.splitOn '.' with
  | nil =>
    rw [parts] at ok
    cases ok
  | cons first rest =>
    rw [parts] at ok
    clear parts
    simp only at ok ⊢
    induction rest generalizing scope first with
    | nil =>
      rw [lookupFrom, Run.exec_bind_ok w (Run.exec_getStore w)] at ok
      cases found : w.store.resolve scope first with
      | none =>
        rw [found] at ok
        exact absurd ok (literal _)
      | some pair =>
        rw [found] at ok
        cases ok
        rw [Store.find, found]
        rfl
    | cons member rest ih =>
      rw [lookupFrom, Run.exec_bind_ok w (Run.exec_getStore w)] at ok
      cases found : w.store.resolve scope first with
      | none =>
        rw [found] at ok
        exact absurd ok (literal _)
      | some pair =>
        simp only [found] at ok
        rw [Store.find, found, Option.bind_some]
        cases known : (w.store.var pair.2).members with
        | none =>
          rw [known] at ok
          cases ok
        | some members =>
          rw [known] at ok
          exact ih _ ok

/-- To read a line of input is to change the input, whatever the store is. -/
theorem exec_expand_input (w : World) : ∃ e input, ∀ st,
    (Literal.expandValue (.text Literal.inputWord)).exec { w with store := st } =
      (e, { w with store := st, input }) := by
  obtain ⟨store, ⟨lines, hangsUp⟩, printed, files, draws, host, clones⟩ := w
  rcases lines with _ | ⟨_ | line, rest⟩
  · cases hangsUp with
    | true => exact ⟨.error .hangUp, ⟨[], true⟩, fun _ => rfl⟩
    | false => exact ⟨.ok (.text Literal.inputWord), ⟨[], false⟩, fun _ => rfl⟩
  · exact ⟨.ok (.text Literal.inputWord), ⟨rest, hangsUp⟩, fun _ => rfl⟩
  · exact ⟨.ok (.text line.enclose), ⟨rest, hangsUp⟩, fun _ => rfl⟩

namespace Run

variable {α β : Type} {st later : Store} {good : α → Prop} {last : β → Prop} {x y : Run α}
  {f g : α → Run β} {w : World}

def Fails (x : Run α) (w : World) : Prop := ∃ e after, x.exec w = (.error e, after)

theorem Fails.bind (first : x.Fails w) : (x >>= f).Fails w := by
  obtain ⟨e, after, failed⟩ := first
  exact ⟨e, after, exec_bind_error w failed⟩

theorem Fails.after (next : ∀ a after, x.exec w = (.ok a, after) → (f a).Fails after) :
    (x >>= f).Fails w := by
  rcases ran : x.exec w with ⟨e | a, after⟩
  · exact ⟨e, after, exec_bind_error w ran⟩
  · obtain ⟨e, end_, failed⟩ := next a after ran
    exact ⟨e, end_, (exec_bind_ok w ran).trans failed⟩

/-- Two runs, one from each of two stores in worlds that are the same otherwise: they give the same
result, leave their stores as they are and their worlds the same otherwise, or both fail. -/
def Twin (st later : Store) (good : α → Prop) (x y : Run α) : Prop := ∀ w, w.store = st →
  (∃ a after, x.exec w = (.ok a, after) ∧ after.store = st ∧ y.exec { w with store := later } =
    (.ok a, { after with store := later }) ∧
    good a) ∨ x.Fails w ∧ y.Fails { w with store := later }

namespace Twin

theorem pure {a : α} (given : good a) : Twin st later good (Pure.pure a) (Pure.pure a) :=
  fun w same => .inl ⟨a, w, rfl, same, rfl, given⟩

theorem throw (e e' : Fault) : Twin st later good (throw e) (throw e') :=
  fun w _ => .inr ⟨⟨e, w, rfl⟩, ⟨e', _, rfl⟩⟩

theorem mono {weaker : α → Prop} (twin : Twin st later good x y) (imp : ∀ a, good a → weaker a) :
    Twin st later weaker x y := by
  intro w same
  rcases twin w same with ⟨a, after, here, kept, there, given⟩ | failed
  · exact .inl ⟨a, after, here, kept, there, imp a given⟩
  · exact .inr failed

theorem bind (first : Twin st later good x y)
    (next : ∀ a, good a → Twin st later last (f a) (g a)) :
    Twin st later last (x >>= f) (y >>= g) := by
  intro w same
  rcases first w same with ⟨a, after, here, kept, there, given⟩ | ⟨here, there⟩
  · have onward := next a given after kept
    rw [Fails, Fails, exec_bind_ok w here, exec_bind_ok _ there]
    exact onward
  · exact .inr ⟨here.bind, there.bind⟩

theorem getStore_bind {f g : Store → Run β} (next : Twin st later last (f st) (g later)) :
    Twin st later last (getStore >>= f) (getStore >>= g) := by
  intro w same
  have onward := next w same
  subst same
  exact onward

theorem ofExcept {e e' : Except Fault α} (same : e' = e) (given : ∀ a, e = .ok a → good a) :
    Twin st later good (ofExcept e) (ofExcept e') := by
  subst same
  cases e' with
  | ok a => exact pure (given a rfl)
  | error fault => exact throw fault fault

theorem nth (xs : List α) (i : Nat) :
    Twin st later (fun a => xs[i]? = some a) (Run.nth xs i) (Run.nth xs i) := by
  unfold Run.nth
  cases there : xs[i]? with
  | none => exact throw _ _
  | some a => exact pure rfl

theorem read (v : Variable) : Twin st later (fun u => v.reading = .ok u) v.read v.read := by
  intro w same
  cases given : v.reading with
  | ok u =>
    refine .inl ⟨u, w, ?_, same, ?_, rfl⟩
    · rw [Variable.exec_read, given]
    · rw [Variable.exec_read, given]
  | error e =>
    refine .inr ⟨⟨e, w, ?_⟩, ⟨e, { w with store := later }, ?_⟩⟩
    · rw [Variable.exec_read, given]
    · rw [Variable.exec_read, given]

/-- What a word stands for does not depend on the store. -/
theorem expandValue (s : Text) :
    Twin st later (fun v => ∃ t, v = .text t ∧ (t = s ∨ Spelled.isQuoted t = true))
    (Literal.expandValue (.text s)) (Literal.expandValue (.text s)) := by
  intro w same
  by_cases input : s = Literal.inputWord
  · subst input
    obtain ⟨e, line, expanded⟩ := exec_expand_input w
    have here : (Literal.expandValue (.text Literal.inputWord)).exec w =
      (e, { w with input := line }) := expanded w.store
    cases e with
    | error fault => exact .inr ⟨⟨fault, _, here⟩, ⟨fault, _, expanded later⟩⟩
    | ok v => exact .inl ⟨v, _, here, same, expanded later, Literal.expandValue_inv here⟩
  · obtain ⟨t, expanded, known⟩ := exec_expandValue_other input
    exact .inl ⟨.text t, w, expanded w, same, expanded _, t, rfl, known⟩

end Twin

end Run

/-! ### Evaluation from two stores -/

/-- The texts that are evaluated in the scope of an expression: the expression, the operands of a
comparison and the index of an element. -/
inductive Text.Operand (text : Text) : Text → Prop where
  | self : Operand text text
  | compared {s o : Text} {c : Comparison} {i : Nat} (inside : Operand text s) (isOpen : s.IsOpen)
    (found : Comparison.find? s = some c) (less : i < 2) (there : (c.operands s)[i]? = some o) :
    Operand text o
  | index {s i : Text} (inside : Operand text s) (ends : s.getLast? = some ']')
      (there : (s.splitOn '[')[1]? = some i) :
    Operand text i.dropLast

theorem Text.Operand.part {text s : Text} (inside : text.Operand s) : text.Part s := by
  induction inside with
  | self => exact .self
  | compared _ isOpen found less there ih => exact ih.operand_at isOpen found less there
  | index _ ends there ih => exact ih.index ends there

/-- An expression without calls that meets the same things in two stores: the names that it can look
up are visible in both or in neither and lead to the same variables, and the stores agree on all
that is held by these. -/
structure Store.Twins (good : Cell → Prop) (text : Text) (scope : Ref .scope)
    (st later : Store) : Prop where
  free : st.CallFree text
  visible : ∀ {s name}, text.Operand s → s.Names name → later.isVisible scope name =
    st.isVisible scope name
  found : ∀ {s name}, text.Operand s → s.Names name → later.findPath scope name =
    st.findPath scope name
  known : ∀ {s name r}, text.Operand s → s.Names name → st.findPath scope name =
    some r → good r.cell
  mirrors : Mirrors good st later

structure Evaluator.Twin (good : Cell → Prop) (text : Text) (scope : Ref .scope) (st later : Store)
    (ev : Evaluator) : Prop where
  valueOf : ∀ s, text.Operand s → Run.Twin st later (fun v => ∀ c ∈ v.cells, good c)
    (ev.valueOf scope s) (ev.valueOf scope s)
  bind : ∀ s, text.Operand s ∨ Spelled.isQuoted s = true →
    Run.Twin st later (fun x => ∀ c ∈ x.content.cells, good c)
      (ev.bind (some scope) nameless true (.text s))
      (ev.bind (some scope) nameless true (.text s))

section Parts

open Run (Twin Fails)

variable {good : Cell → Prop} {text s : Text} {scope : Ref .scope} {st later : Store}
  {ev : Evaluator}
  (twins : Store.Twins good text scope st later)
include twins

/-- What is done with a name is done with the same variable, or fails because the name leads to
none. -/
theorem lookup_twin {β : Type} {last : β → Prop} {name : Text} {f : Item → Run β}
    (inside : text.Operand s) (names : s.Names name)
    (held : ∀ r, good r.cell → Twin st later last (f (.held r)) (f (.held r)))
    (bare : ∀ v w, (f (.bare v)).Fails w) :
    Twin st later last (lookup ev scope name >>= f) (lookup ev scope name >>= f) := by
  have misses : ∀ m : World, m.store.findPath scope name = none →
      (lookup ev scope name >>= f).Fails m := by
    intro m missing
    refine Fails.after fun item after ran => ?_
    cases item with
    | bare v => exact bare v after
    | held r =>
      rw [findPath_of_lookup ran] at missing
      cases missing
  intro w same
  have there := twins.found inside names
  cases path : st.findPath scope name with
  | none =>
    rw [path] at there
    exact .inr ⟨misses w (by rw [same, path]), misses _ there⟩
  | some r =>
    rw [path] at there
    have first : (lookup ev scope name).exec w = (.ok (.held r), w) :=
      lookup_findPath ev (by rw [same, path])
    have second : (lookup ev scope name).exec { w with store := later } =
        (.ok (.held r), { w with store := later }) :=
      lookup_findPath ev there
    have onward := held r (twins.known inside names path) w same
    rw [Fails, Fails, Run.exec_bind_ok w first, Run.exec_bind_ok _ second]
    exact onward

private theorem readVariable_twin {r : Ref .variable} (here : good r.cell) :
    Twin st later (fun v => (st.var r).reading = .ok v) (readVariable r) (readVariable r) := by
  refine Twin.getStore_bind ?_
  rw [twins.mirrors.var here]
  exact Twin.read _

private theorem reading_twin {r : Ref .variable} (here : good r.cell) :
    Twin st later (fun v => ∀ c ∈ v.cells, good c) (readVariable r) (readVariable r) :=
  (readVariable_twin twins here).mono fun _ given _ edge =>
    twins.mirrors.content here (Variable.cells_reading given edge)

private theorem element_twin {r : Ref .variable} (here : good r.cell) (index : Value) :
    Twin st later (fun v => ∀ c ∈ v.cells, good c) (element ev r index) (element ev r index) := by
  unfold element
  refine (reading_twin twins here).bind fun v inner => ?_
  refine (Twin.ofExcept rfl fun _ _ => trivial).bind fun i _ => Twin.getStore_bind ?_
  refine (Twin.ofExcept (twins.mirrors.length inner) fun _ _ => trivial).bind fun n _ => ?_
  refine (Twin.ofExcept rfl fun _ _ => trivial).bind fun i _ => ?_
  refine (Twin.ofExcept (twins.mirrors.elementAt i inner) fun item known =>
    twins.mirrors.elementAt_good inner known).bind
    fun item held => ?_
  cases item with
  | bare u => exact Twin.pure held
  | held q => exact reading_twin twins (held _ (List.mem_singleton.mpr rfl))

private theorem bindName_twin (inside : text.Operand s) (isOpen : s.IsOpen)
    (plain : isCondition s = false) :
    Twin st later (fun x => ∀ c ∈ x.content.cells, good c)
      (bindName ev (some scope) true (some (Spelled.trimSpaces s)))
      (bindName ev (some scope) true (some (Spelled.trimSpaces s))) := by
  unfold bindName
  refine Twin.getStore_bind ?_
  dsimp only
  rw [twins.visible inside (.named isOpen plain)]
  split
  · refine lookup_twin twins inside (.named isOpen plain) (fun r here => ?_) fun v w =>
      ⟨.missingPart, w, rfl⟩
    have given : Twin st later (· = r) (heldItem (.held r)) (heldItem (.held r)) := Twin.pure rfl
    refine given.bind ?_
    rintro _ rfl
    refine Twin.getStore_bind ?_
    rw [twins.mirrors.var here]
    exact Twin.pure fun c edge => twins.mirrors.content here edge
  · exact Twin.pure fun _ member => absurd member List.not_mem_nil

variable (evaluates : ev.Twin good text scope st later)
include evaluates

omit twins in
private theorem evaluate_twin (inside : text.Operand s) :
    Twin st later (fun v => ∀ c ∈ v.cells, good c) (evaluate ev (some scope) (.bare (.text s)))
      (evaluate ev (some scope) (.bare (.text s))) := by
  rw [evaluate_eq]
  have given : Twin st later (· = Value.text s) (readItem (.bare (.text s)))
    (readItem (.bare (.text s))) := Twin.pure rfl
  refine given.bind ?_
  rintro _ rfl
  refine (Twin.expandValue s).bind ?_
  rintro _ ⟨t, rfl, known⟩
  have covered : text.Operand t ∨ Spelled.isQuoted t = true :=
    known.imp_left fun (same : t = s) => same ▸ inside
  exact (evaluates.bind t covered).bind fun x inner =>
    (Twin.read x).mono fun _ given c edge => inner c (Variable.cells_reading given edge)

private theorem condition_twin (inside : text.Operand s) (isOpen : s.IsOpen) :
    Twin st later (fun v => ∀ c ∈ v.cells, good c) (condition ev scope s)
      (condition ev scope s) := by
  unfold condition
  split
  · next c found =>
    have operand := fun i o => inside.compared (i := i) (o := o) isOpen found
    refine (Twin.nth _ _).bind fun o first =>
      (evaluates.valueOf o (operand 0 o (by decide) first)).bind fun a left => ?_
    refine (Twin.nth _ _).bind fun o second =>
      (evaluates.valueOf o (operand 1 o (by decide) second)).bind fun b right => ?_
    refine Twin.getStore_bind
      ((Twin.ofExcept (twins.mirrors.holds _ left right c) fun _ _ => trivial).bind fun _ _ => ?_)
    exact Twin.pure fun _ member => absurd member List.not_mem_nil
  · next absent =>
    refine Twin.getStore_bind ?_
    rw [twins.visible inside (.tested isOpen absent)]
    split
    · exact lookup_twin twins inside (.tested isOpen absent) (fun r here => reading_twin twins here)
        fun v w => ⟨.missingPart, w, rfl⟩
    · exact Twin.pure fun _ member => absurd member List.not_mem_nil

private theorem bindText_twin (known : text.Operand s ∨ Spelled.isQuoted s = true) :
    Twin st later (fun x => ∀ c ∈ x.content.cells, good c)
      (bindText ev (some scope) nameless true s)
      (bindText ev (some scope) nameless true s) := by
  have scalar : ∀ x : Variable, x.content.cells = [] → ∀ c ∈ x.content.cells, good c := by
    intro x none c member
    rw [none] at member
    cases member
  unfold bindText
  split
  · exact Twin.pure (scalar _ rfl)
  · next unquoted =>
    have inside : text.Operand s := known.resolve_right unquoted
    split
    · exact Twin.pure (scalar _ rfl)
    · next noInt =>
      split
      · exact Twin.pure (scalar _ rfl)
      · next noFloat =>
        have isOpen : s.IsOpen := Text.IsOpen.of_branches unquoted noInt noFloat
        split
        · exact (condition_twin twins evaluates inside isOpen).bind fun v inner => Twin.pure inner
        · next plain => exact bindName_twin twins inside isOpen (Bool.eq_false_iff.mpr plain)

private theorem valueStep_twin (inside : text.Operand s) :
    Twin st later (fun v => ∀ c ∈ v.cells, good c) (valueStep ev scope s)
      (valueStep ev scope s) := by
  have uncalled : ¬ (s.getLast? = some ')' ∧ st.isVisible scope (s.before '(') = true) := by
    rintro ⟨ends, visible⟩
    rw [twins.free s scope inside.part ends] at visible
    cases visible
  have uncalled' : ¬ (s.getLast? = some ')' ∧ later.isVisible scope (s.before '(') = true) := by
    rintro ⟨ends, visible⟩
    rw [twins.visible inside (.called ends)] at visible
    exact uncalled ⟨ends, visible⟩
  unfold valueStep
  refine Twin.getStore_bind ?_
  rw [if_neg uncalled, if_neg uncalled']
  by_cases ends : s.getLast? = some ']'
  · rw [twins.visible inside (.indexed ends)]
    split
    · refine lookup_twin twins inside (.indexed ends) (fun r here => ?_) fun v w => ?_
      · unfold bracketed
        simp only [bind_assoc, pure_bind]
        refine (Twin.nth _ _).bind fun i there =>
          (evaluates.valueOf _ (inside.index ends there)).bind fun v _ => ?_
        exact element_twin twins here v
      · exact Fails.after fun _ _ _ => Fails.after fun _ m _ => ⟨.missingPart, m, rfl⟩
    · exact evaluate_twin evaluates inside
  · rw [if_neg fun both => ends both.1, if_neg fun both => ends both.1]
    exact evaluate_twin evaluates inside

end Parts

theorem Evaluator.ofRoom_twin (rounds n : Nat) {good : Cell → Prop} {text : Text}
    {scope : Ref .scope} {st later : Store} (twins : Store.Twins good text scope st later) :
    (ofRoom rounds n).Twin good text scope st later := by
  induction n with
  | zero => exact ⟨fun _ _ => Run.Twin.throw _ _, fun _ _ => Run.Twin.throw _ _⟩
  | succ n ih =>
    exact ⟨fun s inside => valueStep_twin twins ih inside,
      fun s known => bindText_twin twins ih known⟩

/-! ### Expressions and names bound anew -/

namespace Store

variable {t : Ref .table} {names : List Text} {scope : Ref .scope} {text : Text} {st later : Store}

def Touches (st : Store) (t : Ref .table) (names : List Text) (scope : Ref .scope) (text : Text) :
    Prop :=
  ∃ s name first rest, text.Operand s ∧ s.Names name ∧ name.splitOn '.' = first :: rest ∧
  st.Meets t names scope first rest

theorem Rebinds.twins (rebinds : Rebinds t names st later) (closed : st.Closed)
    (held : st.Has scope.cell) (noClass : ∀ q u n, (st.record q).body = some (u, n) → u ≠ t)
    (free : st.CallFree text) (untouched : ¬ st.Touches t names scope text) :
    Twins (fun c => st.Has c ∧ c ≠ t.cell) text scope st later where
  free := free
  visible {s name} inside names := by
    obtain ⟨rest, parts⟩ := Text.splitOn_eq_before '.' name
    rw [isVisible, isVisible, rebinds.resolve fun listed consults =>
      untouched ⟨s, name, _, rest, inside, names, parts, .here listed consults⟩]
  found {s name} inside names := by
    obtain ⟨rest, parts⟩ := Text.splitOn_eq_before '.' name
    rw [findPath, findPath, parts]
    exact rebinds.find closed held fun meets =>
      untouched ⟨s, name, _, rest, inside, names, parts, meets⟩
  known {s name r} _ _ found := ⟨closed.findPath held found, fun same => nomatch same⟩
  mirrors := rebinds.mirrors closed noClass

end Store

end CommandScript

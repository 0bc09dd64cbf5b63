import CommandScript.Proofs.Flattening
import CommandScript.Proofs.Idempotence
import CommandScript.Proofs.Isolation

/-! What an expression can change. An expression that calls nothing and reads no input looks up
names, takes elements and compares; all of this leaves the world as it is. Only a name that ends
with a closing parenthesis can still make an object, and that changes no cell that was there, except
that the shared variable is lost when the copy fails. -/
namespace CommandScript

/-! ### Parts of expressions -/

namespace Text

theorem infix_of_mem_splitOn {c : Char} {part text : Text} (member : part ∈ text.splitOn c) :
    part <:+: text ∧ c ∉ part := by
  induction size : text.length using Nat.strong_induction_on generalizing text with
  | _ n ih =>
    by_cases cut : c ∈ text
    · obtain ⟨front, rest, rfl, absent⟩ := List.eq_append_cons_of_mem cut
      rw [splitOn_append_cons absent] at member
      rcases List.mem_cons.mp member with rfl | later
      · exact ⟨(List.prefix_append _ _).isInfix, absent⟩
      · have shorter : rest.length < n := by
          simp only [List.length_append, List.length_cons] at size
          omega
        obtain ⟨inside, clean⟩ := ih _ shorter later rfl
        exact ⟨inside.trans ((List.suffix_cons c rest).trans (List.suffix_append front _)).isInfix,
          clean⟩
    · rw [List.splitOn_eq_singleton cut] at member
      obtain rfl := List.mem_singleton.mp member
      exact ⟨List.infix_refl _, cut⟩

private theorem prefix_before (c : Char) (text : Text) : text.before c <+: text :=
  List.takeWhile_prefix _

/-- What stands in a text after parts of it were replaced by spaces, and has no space, stood there
before. -/
theorem infix_of_infix_replace {sign part text : Text} (nonempty : sign ≠ []) (whole : ' ' ∉ part)
    (inside : part <:+: replace sign [' '] text) : part <:+: text := by
  have both : (part <+: replace sign [' '] text → part <+: text) ∧
      (part <:+: replace sign [' '] text → part <:+: text) := by
    refine (replace_induction nonempty
      (motive := fun text result => (∀ part : Text, ' ' ∉ part → part <+: result → part <+: text) ∧
      ∀ part : Text, ' ' ∉ part → part <:+: result → part <:+: text) ?_ ?_ ?_ text).imp
        (· part whole) (· part whole)
    · exact ⟨fun _ _ => id, fun _ _ => id⟩
    · rintro rest ⟨-, inner⟩
      have front : ∀ part : Text, ' ' ∉ part → part <+: ' ' :: replace sign [' '] rest →
          part = [] := by
        intro part whole found
        rcases List.prefix_cons_iff.mp found with rfl | ⟨_, rfl, _⟩
        · rfl
        · exact absurd List.mem_cons_self whole
      refine ⟨fun part whole found => ?_, fun part whole found => ?_⟩
      · rw [front part whole found]
        exact List.nil_prefix
      · rcases List.infix_cons_iff.mp found with first | later
        · rw [front part whole first]
          exact List.nil_infix
        · exact (inner part whole later).trans (List.suffix_append _ _).isInfix
    · rintro d rest - ⟨outer, inner⟩
      have front : ∀ part : Text, ' ' ∉ part → part <+: d :: replace sign [' '] rest →
          part <+: d :: rest := by
        intro part whole found
        rcases List.prefix_cons_iff.mp found with rfl | ⟨tail, rfl, onward⟩
        · exact List.nil_prefix
        · exact (List.prefix_cons_inj d).mpr
            (outer tail (List.not_mem_of_not_mem_cons whole) onward)
      refine ⟨front, fun part whole found => ?_⟩
      rcases List.infix_cons_iff.mp found with first | later
      · exact (front part whole first).isInfix
      · exact (inner part whole later).trans (List.suffix_cons d rest).isInfix
  exact both.2 inside

private theorem infix_trimSpaces (text : Text) : Spelled.trimSpaces text <:+: text := by
  obtain ⟨i, j, padded⟩ := Spelled.exists_padding text
  exact ⟨_, _, (List.append_assoc _ _ _).trans padded.symm⟩

structure IsOpen (text : Text) : Prop where
  unquoted : Spelled.isQuoted text = false
  noInt : Number.readInt? text = none
  noFloat : Number.readFloat? text = none

theorem IsOpen.of_branches {text : Text} (unquoted : ¬ Spelled.isQuoted text = true)
    (noInt : ∀ n, Number.readInt? text ≠ some n) (noFloat : ∀ x, Number.readFloat? text ≠ some x) :
    text.IsOpen :=
  ⟨Bool.eq_false_iff.mpr unquoted, Option.eq_none_iff_forall_ne_some.mpr noInt,
    Option.eq_none_iff_forall_ne_some.mpr noFloat⟩

/-- The names that an expression can look up as it stands: of what it calls, of what it takes an
element of, or of a variable that it is the name of. -/
inductive Names (text : Text) : Text → Prop where
  | called (ends : text.getLast? = some ')') : Names text (text.before '(')
  | indexed (ends : text.getLast? = some ']') : Names text (text.before '[')
  | tested (isOpen : text.IsOpen) (none : Comparison.find? text = none) : Names text text
  | named (isOpen : text.IsOpen) (plain : isCondition text = false) :
      Names text (Spelled.trimSpaces text)

/-- The texts that the evaluation of an expression can come to evaluate. -/
inductive Part (text : Text) : Text → Prop where
  | self : Part text text
  | operand {s o : Text} {c : Comparison} (inside : Part text s) (isOpen : s.IsOpen)
      (found : Comparison.find? s = some c)
    (member : o ∈ (c.operands s).take 2) : Part text o
  | index {s i : Text} (inside : Part text s) (ends : s.getLast? = some ']')
      (there : (s.splitOn '[')[1]? = some i) :
    Part text i.dropLast
  | piece {s name p : Text} (inside : Part text s) (names : s.Names name)
      (member : p ∈ name.splitOn '.') : Part text p

theorem Names.isInfix {text name : Text} (names : text.Names name) : name <:+: text := by
  cases names with
  | called => exact (prefix_before _ _).isInfix
  | indexed => exact (prefix_before _ _).isInfix
  | tested => exact List.infix_refl _
  | named => exact infix_trimSpaces _

theorem Part.operand_at {text s o : Text} {c : Comparison} {i : Nat} (inside : text.Part s)
    (isOpen : s.IsOpen) (found : Comparison.find? s = some c) (less : i < 2)
    (there : (c.operands s)[i]? = some o) : text.Part o := by
  refine inside.operand isOpen found (List.mem_of_getElem? (i := i) ?_)
  rw [List.getElem?_take_of_lt less, there]

theorem Part.isInfix {text part : Text} (inside : text.Part part) : part <:+: text := by
  induction inside with
  | self => exact List.infix_refl _
  | @operand s o c _ _ _ member ih =>
    obtain ⟨found, whole⟩ := infix_of_mem_splitOn (List.mem_of_mem_take member)
    have nonempty : c.sign ≠ [] := by cases c <;> decide
    exact (infix_of_infix_replace nonempty whole found).trans ih
  | index _ _ there ih =>
    have found := (infix_of_mem_splitOn (List.mem_of_getElem? there)).1
    exact ((List.dropLast_prefix _).isInfix.trans found).trans ih
  | piece _ names member ih => exact ((infix_of_mem_splitOn member).1.trans names.isInfix).trans ih

end Text

/-! ### Objects made along the way -/

def Store.Calls (st : Store) (text : Text) (q : Ref .record) : Prop :=
  ∃ s piece t r, text.Part s ∧ s.getLast? = some ')' ∧ (s.splitOn '.').getLast? = some piece ∧
  (piece, r) ∈ st.table t ∧
    (st.var r).content = .record q

inductive Makes (rounds : Nat) (text : Text) (w : World) : World → Prop where
  | refl : Makes rounds text w w
  | step {m later : World} {n : Nat} {q : Ref .record} {v : Value} (before : Makes rounds text w m)
      (calls : m.store.Calls text q)
    (made : (instantiate (.ofRoom rounds n) q).exec m = (.ok v, later)) : Makes rounds text w later

theorem Makes.trans {rounds : Nat} {text : Text} {w m later : World}
    (first : Makes rounds text w m) (second : Makes rounds text m later) :
    Makes rounds text w later := by
  induction second with
  | refl => exact first
  | step _ calls made ih => exact ih.step calls made

namespace Run

variable {α β : Type} {rounds : Nat} {text : Text} {w : World} {x : Run α} {f : α → Run β}

/-- A run does no more than make objects that an expression calls, and the only other thing that can
happen is that it fails in making one. -/
structure Builds (rounds : Nat) (text : Text) (w : World) (x : Run α) : Prop where
  ok : ∀ a later, x.exec w = (.ok a, later) → Makes rounds text w later
  error : ∀ e later, x.exec w = (.error e, later) → Makes rounds text w later ∨
    ∃ m n q, Makes rounds text w m ∧
    m.store.Calls text q ∧ (instantiate (.ofRoom rounds n) q).exec m = (.error e, later)

namespace Builds

theorem reads {e : Except Fault α} (looks : x.exec w = (e, w)) : x.Builds rounds text w := by
  refine ⟨fun a later ok => ?_, fun fault later failed => .inl ?_⟩
  · rw [looks] at ok
    cases ok
    exact .refl
  · rw [looks] at failed
    cases failed
    exact .refl

theorem pure (a : α) : (Pure.pure a : Run α).Builds rounds text w := reads (e := .ok a) rfl

theorem throw (e : Fault) : (throw e : Run α).Builds rounds text w := reads (e := .error e) rfl

theorem bind (first : x.Builds rounds text w)
    (next : ∀ a m, x.exec w = (.ok a, m) → (f a).Builds rounds text m) :
    (x >>= f).Builds rounds text w := by
  refine ⟨fun b later ok => ?_, fun e later failed => ?_⟩
  · obtain ⟨a, m, ran, rest⟩ := exec_bind_inv w ok
    exact (first.ok a m ran).trans ((next a m ran).ok b later rest)
  · rcases ran : x.exec w with ⟨fault | a, m⟩
    · rw [exec_bind_error w ran] at failed
      cases failed
      exact first.error _ _ ran
    · rw [exec_bind_ok w ran] at failed
      have before := first.ok a m ran
      rcases (next a m ran).error e later failed with done | ⟨m', n, q, onward, calls, fault⟩
      · exact .inl (before.trans done)
      · exact .inr ⟨m', n, q, before.trans onward, calls, fault⟩

theorem reads_bind {e : Except Fault α} (looks : x.exec w = (e, w))
    (next : ∀ a, e = .ok a → (f a).Builds rounds text w) : (x >>= f).Builds rounds text w := by
  refine (reads looks).bind fun a m ran => ?_
  rw [looks] at ran
  cases ran
  exact next a rfl

theorem getStore_bind {f : Store → Run β} (next : (f w.store).Builds rounds text w) :
    (getStore >>= f).Builds rounds text w :=
  reads_bind (exec_getStore w) fun _ known => Except.ok.inj known ▸ next

theorem ofExcept_bind {e : Except Fault α} (next : ∀ a, (f a).Builds rounds text w) :
    (ofExcept e >>= f).Builds rounds text w :=
  reads_bind (e := e) (by cases e <;> rfl) fun a _ => next a

theorem nth_bind {xs : List α} {i : Nat}
    (next : ∀ a, xs[i]? = some a → (f a).Builds rounds text w) :
    (nth xs i >>= f).Builds rounds text w := by
  unfold nth
  cases there : xs[i]? with
  | none => exact reads_bind (e := .error .badIndex) rfl fun _ known => nomatch known
  | some a => exact reads_bind (e := .ok a) rfl fun _ known => Except.ok.inj known ▸ next a there

theorem heldItem_bind {item : Item} {f : Ref .variable → Run β}
    (next : ∀ r, item = .held r → (f r).Builds rounds text w) :
    (heldItem item >>= f).Builds rounds text w := by
  cases item with
  | bare v => exact reads_bind (e := .error .missingPart) rfl fun _ known => nomatch known
  | held r => exact reads_bind (e := .ok r) rfl fun _ known => Except.ok.inj known ▸ next r rfl

end Builds

end Run

/-! ### What the making of an object spares -/

namespace Table

theorem find?_erase_here (t : Table) (name : Text) : (t.erase name).find? name = none := by
  refine List.lookup_eq_none_iff.mpr fun entry member => ?_
  have other : entry.1 ≠ name := by simpa using (List.mem_filter.mp member).2
  exact bne_iff_ne.mpr other.symm

private theorem find?_erase_other (t : Table) {name other : Text} (apart : other ≠ name) :
    (t.erase name).find? other = t.find? other := by
  induction t with
  | nil => rfl
  | cons entry rest ih =>
    obtain ⟨n, r⟩ := entry
    simp only [erase, find?, List.filter_cons, List.lookup_cons] at ih ⊢
    by_cases same : n = name
    · have different : (other == n) = false := by simpa [same] using apart
      simp only [same, ne_eq, not_true_eq_false, decide_false, Bool.false_eq_true, if_false]
      rw [← same, different, same]
      exact ih
    · simp only [same, ne_eq, not_false_eq_true, decide_true, if_true, List.lookup_cons]
      rw [← ih]

end Table

namespace Store

variable {st middle later : Store}

/-- A later store in which all cells are as before, except that of the tables it is only said what
some names are bound to. -/
structure Spares (kept : Text → Prop) (st later : Store) : Prop where
  scopes : st.scopes.Extends later.scopes
  vars : st.vars.Extends later.vars
  lists : st.lists.Extends later.lists
  records : st.records.Extends later.records
  nodes : st.nodes.Extends later.nodes
  tables : ∀ t : Ref .table, st.Has t.cell → later.Has t.cell ∧
    ∀ name, kept name → (later.table t).find? name = (st.table t).find? name

namespace Spares

variable {kept : Text → Prop}

theorem of_extends (extended : st.Extends later) : Spares kept st later where
  scopes := extended.scopes
  vars := extended.vars
  lists := extended.lists
  records := extended.records
  nodes := extended.nodes
  tables t held := ⟨(extended.tables t held).1,
    fun name _ => congrArg (Table.find? · name) (extended.tables t held).2⟩

theorem trans (first : Spares kept st middle) (second : Spares kept middle later) :
    Spares kept st later where
  scopes := first.scopes.trans second.scopes
  vars := first.vars.trans second.vars
  lists := first.lists.trans second.lists
  records := first.records.trans second.records
  nodes := first.nodes.trans second.nodes
  tables t held := by
    obtain ⟨there, before⟩ := first.tables t held
    obtain ⟨still, after⟩ := second.tables t there
    exact ⟨still, fun name known => (after name known).trans (before name known)⟩

theorem mono {fewer : Text → Prop} (spares : Spares kept st later)
    (weaker : ∀ name, fewer name → kept name) : Spares fewer st later :=
  { spares with tables := fun t held => ⟨(spares.tables t held).1,
    fun name known => (spares.tables t held).2 name (weaker name known)⟩ }

end Spares

private theorem has_updateTable (st : Store) (t : Ref .table) (f : Table → Table) (c : Cell) :
    (st.updateTable t f).Has c ↔ st.Has c := by
  obtain ⟨_ | _, _⟩ := c <;> simp [Has, updateTable, count]

theorem Reaches.outward {start : Cell} (n : Nat) {s a : Ref .scope}
    (reached : st.Reaches start s.cell) (member : a ∈ st.outward n s) :
    st.Reaches start a.cell := by
  induction n generalizing s with
  | zero => exact List.mem_singleton.mp member ▸ reached
  | succ n ih =>
    rw [Store.outward] at member
    split at member
    · exact List.mem_singleton.mp member ▸ reached
    · next parent above =>
      rcases List.mem_cons.mp member with rfl | later
      · exact reached
      · refine ih (.step reached ?_) later
        change parent.cell ∈ (st.scope s).cells
        simp [Scope.cells, above]

def unshared (st : Store) (globals : Ref .table) : Store :=
  st.updateTable globals (·.erase sharedName)

def rejoined (globals : Ref .table) (r : Ref .variable) (copy : Ref .record) (st : Store) : Store :=
  let st := st.updateTable globals (Table.insert sharedName r)
  match (st.record copy).body with
  | some (_, node) =>
    st.updateScope (st.root (st.node node).scope) fun s => { s with table := globals }
  | none => st

private theorem unshared_spares (st : Store) (globals : Ref .table) :
    Spares (· ≠ sharedName) st (st.unshared globals) where
  scopes := .refl _
  vars := .refl _
  lists := .refl _
  records := .refl _
  nodes := .refl _
  tables t held := by
    refine ⟨(has_updateTable st globals _ _).mpr held, fun name other => ?_⟩
    rcases Arena.read_update_cases st.tables globals t (·.erase sharedName) with same |
      ⟨_, _, changed⟩
    · exact congrArg (Table.find? · name) same
    · exact (congrArg (Table.find? · name) changed).trans (Table.find?_erase_other _ other)

section Rejoined

variable {globals : Ref .table} {q : Ref .record} {r : Ref .variable} (closed : st.Closed)
  (held : st.Has q.cell)
  (table : st.Has globals.cell) (found : (st.table globals).find? sharedName = some r)
include closed held

/-- The outermost scope of a copy is new. -/
theorem not_has_root_clone (vars : Ref .table) (node : Ref .node)
    (body : ((st.clone q).2.record (st.clone q).1).body = some (vars, node)) :
    ¬ st.Has ((st.clone q).2.root ((st.clone q).2.node node).scope).cell := by
  have members : ∀ (st : Store) (copy : Ref .record), (st.record copy).body = some (vars, node) →
      (Variable.ofValue st [] none (.record copy)).members = some (st.node node).scope := by
    intro st copy body
    change (st.record copy).body.map _ = _
    rw [body]
    rfl
  have reached := (members_ofRecord (members _ _ body)).outward _ (root_mem_ancestors _)
  exact ((reaches_clone_iff closed held _).mp reached).2

include table found

private theorem rejoined_spares :
    Spares (fun _ => True) st (rejoined globals r ((st.unshared globals).clone q).1
      ((st.unshared globals).clone q).2) := by
  have closedBefore : (st.unshared globals).Closed := closed.eraseName globals sharedName
  have heldBefore : (st.unshared globals).Has q.cell := (has_updateTable st globals _ _).mpr held
  have extended := extends_clone closedBefore heldBefore
  have fresh := not_has_root_clone closedBefore heldBefore
  generalize ((st.unshared globals).clone q).1 = copy at extended fresh ⊢
  generalize ((st.unshared globals).clone q).2 = copied at extended fresh ⊢
  -- putting the shared variable back undoes its removal
  have tables : ∀ t : Ref .table, st.Has t.cell → copied.Has t.cell ∧
      ∀ name, ((copied.updateTable globals (Table.insert sharedName r)).table t).find? name =
        (st.table t).find? name := by
    intro t there
    have inside := (has_updateTable st globals (·.erase sharedName) t.cell).mpr there
    have same : copied.table t = (st.unshared globals).table t := (extended.tables t inside).2
    refine ⟨(extended.tables t inside).1, fun name => ?_⟩
    by_cases here : t = globals
    · subst here
      have erased : copied.table t = (st.table t).erase sharedName :=
        same.trans (Arena.read_update_here _ _ _ there)
      have back : (copied.updateTable t (Table.insert sharedName r)).table t =
          (copied.table t).insert sharedName r :=
        Arena.read_update_here _ _ _ (extended.tables t inside).1
      rw [back, erased]
      by_cases shared : name = sharedName
      · rw [shared, Table.find?_insert_here, found]
      · rw [Table.find?_insert_other shared, Table.find?_erase_other _ shared]
    · have back : (copied.updateTable globals (Table.insert sharedName r)).table t =
          copied.table t :=
        Arena.read_update_elsewhere _ _ _ _ here
      have before : (st.unshared globals).table t = st.table t :=
        Arena.read_update_elsewhere _ _ _ _ here
      rw [back, same, before]
  have inserted : Spares (fun _ => True) st
      (copied.updateTable globals (Table.insert sharedName r)) :=
    { scopes := extended.scopes, vars := extended.vars, lists := extended.lists,
      records := extended.records, nodes := extended.nodes
      tables := fun t there => ⟨(has_updateTable _ _ _ _).mpr (tables t there).1,
        fun name _ => (tables t there).2 name⟩ }
  unfold rejoined
  dsimp only
  split
  · next vars node body =>
    refine { inserted with scopes := fun s there => ?_ }
    have root : (copied.updateTable globals (Table.insert sharedName r)).root
        ((copied.updateTable globals (Table.insert sharedName r)).node node).scope =
          copied.root (copied.node node).scope := by
      have scopes : (copied.updateTable globals (Table.insert sharedName r)).scopes =
        copied.scopes := rfl
      rw [Store.root, Store.root, ancestors_congr scopes]
      rfl
    have other : s ≠ (copied.updateTable globals (Table.insert sharedName r)).root
        ((copied.updateTable globals (Table.insert sharedName r)).node node).scope := by
      rintro rfl
      rw [root] at there
      exact fresh vars node body ((has_updateTable st globals _ _).mpr there)
    refine ⟨(has_updateScope _ _ _ s.cell).mpr (inserted.scopes s there).1, ?_⟩
    exact (Arena.read_update_elsewhere _ _ _ _ other).trans (inserted.scopes s there).2
  · exact inserted

end Rejoined

end Store

/-! ### Making an object -/

section Making

variable {w : World} {q : Ref .record}

/-- Making an object of a class whose outermost scope has the shared variable: the variable is taken
out for the time in which the copy is made, and it stays out if the copy cannot be made. -/
theorem exec_instantiate_shared (ev : Evaluator) {vars globals : Ref .table} {node : Ref .node}
    {r : Ref .variable} (body : (w.store.record q).body = some (vars, node))
    (outermost : (w.store.scope (w.store.root (w.store.node node).scope)).table = globals)
    (found : (w.store.table globals).find? sharedName = some r) :
    (instantiate ev q).exec w =
      if ev.slack < ((w.store.unshared globals).walkFrom q.cell).deepest then
        (.error .tooDeep, { w with store := w.store.unshared globals })
      else
        (.ok (.record ((w.store.unshared globals).clone q).1),
          { w with
            store := .rejoined globals r ((w.store.unshared globals).clone q).1
              ((w.store.unshared globals).clone q).2 }) := by
  unfold instantiate
  rw [Run.exec_bind_ok w (Run.exec_getStore w), body]
  dsimp only
  rw [outermost, found]
  dsimp only
  rw [Run.exec_bind_ok w (Run.exec_changeStore w _)]
  have copies := exec_copyClass ev q { w with store := w.store.unshared globals }
  by_cases deep : ev.slack < ((w.store.unshared globals).walkFrom q.cell).deepest
  · rw [if_pos deep] at copies ⊢
    exact Run.exec_bind_error _ copies
  · rw [if_neg deep] at copies ⊢
    generalize (w.store.unshared globals).clone q = copied at copies ⊢
    refine (Run.exec_bind_ok _ copies).trans ?_
    rw [Run.exec_bind_ok _ (Run.exec_changeStore _ _)]
    rfl

private theorem instantiate_spares {ev : Evaluator} (closed : w.store.Closed)
    (held : w.store.Has q.cell) {e : Except Fault Value} {later : World}
    (ran : (instantiate ev q).exec w = (e, later)) :
    ∃ st, later = { w with store := st } ∧
    Store.Spares (fun name => name ≠ sharedName ∨ e ≠ .error .tooDeep) w.store st := by
  cases body : (w.store.record q).body with
  | none =>
    unfold instantiate at ran
    rw [Run.exec_bind_ok w (Run.exec_getStore w), body] at ran
    cases ran
    exact ⟨w.store, rfl, .of_extends (.refl _)⟩
  | some pair =>
    obtain ⟨vars, node⟩ := pair
    have inside := closed.ancestors (closed.nodeScope (closed.body held body).2)
      (Store.root_mem_ancestors _)
    have table := closed.table inside
    cases found : (w.store.tableOf (w.store.root (w.store.node node).scope)).find? sharedName with
    | none =>
      unfold instantiate at ran
      rw [Run.exec_bind_ok w (Run.exec_getStore w), body] at ran
      change ((w.store.table (w.store.scope (w.store.root (w.store.node node).scope)).table).find?
        sharedName) = none at found
      simp only [found] at ran
      have copies := exec_copyClass ev q w
      by_cases deep : ev.slack < (w.store.walkFrom q.cell).deepest
      · rw [if_pos deep] at copies
        rw [Run.exec_bind_error w copies] at ran
        cases ran
        exact ⟨w.store, rfl, .of_extends (.refl _)⟩
      · rw [if_neg deep] at copies
        rw [Run.exec_bind_ok w copies] at ran
        cases ran
        exact ⟨_, rfl, .of_extends (Store.extends_clone closed held)⟩
    | some r =>
      rw [exec_instantiate_shared ev body rfl found] at ran
      split at ran
      · cases ran
        refine ⟨_, rfl, (w.store.unshared_spares _).mono fun name known => ?_⟩
        exact known.resolve_right fun ne => ne rfl
      · cases ran
        exact ⟨_, rfl, (Store.rejoined_spares closed held table found).mono fun _ _ => trivial⟩

end Making

/-! ### Evaluation -/

structure Evaluator.Builds (rounds : Nat) (text : Text) (ev : Evaluator) : Prop where
  valueOf : ∀ scope s w, text.Part s → (ev.valueOf scope s).Builds rounds text w
  bind : ∀ home s w, text.Part s ∨ Spelled.isQuoted s = true →
    (ev.bind home nameless true (.text s)).Builds rounds text w
  level : ∃ n, ev = .ofRoom rounds n

theorem Variable.content_of_reading {x : Variable} {q : Ref .record}
    (given : x.reading = .ok (.record q)) : x.content = .record q := by
  unfold reading at given
  split at given
  · split at given <;> cases given
  · exact Except.ok.inj given

/-- What a name means is bound to the last of its parts. -/
theorem lookupFrom_bound {ev : Evaluator} {scope : Ref .scope} {name : Text} {rest : List Text}
    {w later : World} {r : Ref .variable}
    (ok : (lookupFrom ev scope name rest).exec w = (.ok (.held r), later)) :
    later = w ∧ ∃ t piece, (name :: rest).getLast? = some piece ∧ (piece, r) ∈ w.store.table t := by
  have literal : ∀ x : Run Value, (do return .bare (← x) : Run Item).exec w ≠
      (.ok (.held r), later) := by
    intro x given
    obtain ⟨v, middle, -, last⟩ := Run.exec_bind_inv w given
    cases last
  induction rest generalizing scope name with
  | nil =>
    rw [lookupFrom, Run.exec_bind_ok w (Run.exec_getStore w)] at ok
    cases found : w.store.resolve scope name with
    | none =>
      rw [found] at ok
      exact absurd ok (literal _)
    | some pair =>
      rw [found] at ok
      cases ok
      exact ⟨rfl, _, name, rfl, Table.mem_of_find? (Store.resolve_inv found).2⟩
  | cons member rest ih =>
    rw [lookupFrom, Run.exec_bind_ok w (Run.exec_getStore w)] at ok
    cases found : w.store.resolve scope name with
    | none =>
      rw [found] at ok
      exact absurd ok (literal _)
    | some pair =>
      simp only [found] at ok
      cases known : (w.store.var pair.2).members with
      | none =>
        rw [known] at ok
        cases ok
      | some members =>
        rw [known] at ok
        rw [List.getLast?_cons_cons]
        exact ih ok

private theorem lookup_bound {ev : Evaluator} {scope : Ref .scope} {name : Text} {w later : World}
    {r : Ref .variable} (ok : (lookup ev scope name).exec w = (.ok (.held r), later)) :
    later = w ∧ ∃ t piece, (name.splitOn '.').getLast? = some piece ∧
    (piece, r) ∈ w.store.table t := by
  unfold lookup at ok
  split at ok
  · next parts =>
    rw [parts]
    exact lookupFrom_bound ok
  · cases ok

section Parts

open Run (Builds)

variable {rounds : Nat} {text s : Text} {ev : Evaluator} {home : Option (Ref .scope)}
  {scope : Ref .scope} {w : World}

/-- A text other than the word for input is expanded without a look at the world, and what is new is
in quotes. -/
theorem exec_expandValue_other (other : s ≠ Literal.inputWord) :
    ∃ t, (∀ w, (Literal.expandValue (.text s)).exec w = (.ok (.text t), w)) ∧
    (t = s ∨ Spelled.isQuoted t = true) := by
  simp only [Literal.expandValue, Literal.expand, if_neg other]
  cases Literal.fixed.lookup s with
  | none => exact ⟨s, fun _ => rfl, .inl rfl⟩
  | some t => exact ⟨t.enclose, fun _ => rfl, .inr (Spelled.isQuoted_enclose t)⟩

variable (builds : ev.Builds rounds text) (unread : ¬ text.Part Literal.inputWord)
include builds

include unread in
private theorem evaluate_builds (inside : text.Part s) :
    (evaluate ev home (.bare (.text s))).Builds rounds text w := by
  have other : s ≠ Literal.inputWord := fun same => unread (same ▸ inside)
  obtain ⟨t, expanded, same⟩ := exec_expandValue_other other
  have known : text.Part t ∨ Spelled.isQuoted t = true :=
    same.imp_left fun (equal : t = s) => equal ▸ inside
  rw [evaluate_eq]
  refine Builds.reads_bind (Run.exec_readItem_bare w _) fun v given => ?_
  cases given
  refine Builds.reads_bind (expanded w) fun v given => ?_
  cases given
  exact (builds.bind home t w known).bind fun x m _ => Builds.reads (x.exec_read m)

include unread in
private theorem lookupFrom_builds {name : Text} {rest : List Text}
    (pieces : ∀ p ∈ name :: rest, text.Part p) :
    (lookupFrom ev scope name rest).Builds rounds text w := by
  have literal :
      ∀ home, (do return .bare (← evaluate ev home (.bare (.text name))) : Run Item).Builds
        rounds text w :=
    fun home => (evaluate_builds builds unread (pieces name List.mem_cons_self)).bind fun _ _ _ =>
      Builds.pure _
  induction rest generalizing scope name with
  | nil =>
    refine Builds.getStore_bind ?_
    split
    · exact Builds.pure _
    · exact literal _
  | cons member rest ih =>
    refine Builds.getStore_bind ?_
    split
    · split
      · have inner : ∀ p ∈ member :: rest, text.Part p :=
          fun p listed => pieces p (List.mem_cons_of_mem _ listed)
        refine ih inner fun home => ?_
        exact (evaluate_builds builds unread (inner member List.mem_cons_self)).bind fun _ _ _ =>
          Builds.pure _
      · exact Builds.throw _
    · exact literal _

include unread in
private theorem lookup_builds {name : Text} (inside : text.Part s) (names : s.Names name) :
    (lookup ev scope name).Builds rounds text w := by
  unfold lookup
  split
  · next parts =>
    exact lookupFrom_builds builds unread fun p listed => inside.piece names (parts ▸ listed)
  · exact Builds.throw _

include unread in
private theorem condition_builds (inside : text.Part s) (isOpen : s.IsOpen) :
    (condition ev scope s).Builds rounds text w := by
  unfold condition
  split
  · next c found =>
    have operand := fun i o => inside.operand_at (i := i) (o := o) isOpen found
    refine Builds.nth_bind fun o first =>
      (builds.valueOf scope o w (operand 0 o (by decide) first)).bind fun a m _ => ?_
    refine Builds.nth_bind fun o second =>
      (builds.valueOf scope o m (operand 1 o (by decide) second)).bind fun b later _ => ?_
    exact Builds.getStore_bind (Builds.ofExcept_bind fun _ => Builds.pure _)
  · next absent =>
    refine Builds.getStore_bind ?_
    split
    · refine (lookup_builds builds unread inside (.tested isOpen absent)).bind fun item m _ => ?_
      exact Builds.heldItem_bind fun r _ => Builds.reads (Run.exec_readVariable r m)
    · exact Builds.pure _

include unread in
private theorem bindName_builds (inside : text.Part s) (isOpen : s.IsOpen)
    (plain : isCondition s = false) :
    (bindName ev home true (some (Spelled.trimSpaces s))).Builds rounds text w := by
  unfold bindName
  split
  · refine Builds.getStore_bind ?_
    dsimp only
    split
    · refine (lookup_builds builds unread inside (.named isOpen plain)).bind fun item m _ => ?_
      exact Builds.heldItem_bind fun r _ => Builds.getStore_bind (Builds.pure _)
    · exact Builds.pure _
  · exact Builds.throw _

include unread in
private theorem bindText_builds (known : text.Part s ∨ Spelled.isQuoted s = true) :
    (bindText ev home nameless true s).Builds rounds text w := by
  unfold bindText
  split
  · exact Builds.pure _
  · next unquoted =>
    have inside : text.Part s := known.resolve_right unquoted
    split
    · exact Builds.pure _
    · next noInt =>
      split
      · exact Builds.pure _
      · next noFloat =>
        have isOpen : s.IsOpen := Text.IsOpen.of_branches unquoted noInt noFloat
        split
        · split
          · exact (condition_builds builds unread inside isOpen).bind fun _ _ _ => Builds.pure _
          · exact Builds.throw _
        · next plain =>
            exact bindName_builds builds unread inside isOpen (Bool.eq_false_iff.mpr plain)

omit builds in
private theorem element_builds (r : Ref .variable) (index : Value) :
    (element ev r index).Builds rounds text w := by
  unfold element
  refine Builds.reads_bind (Run.exec_readVariable r w) fun v _ => Builds.ofExcept_bind fun i =>
    Builds.getStore_bind ?_
  refine Builds.ofExcept_bind fun n => Builds.ofExcept_bind fun i =>
    Builds.ofExcept_bind fun item => ?_
  cases item with
  | bare u => exact Builds.pure u
  | held q => exact Builds.reads (Run.exec_readVariable q w)

omit builds in
/-- Without an opening parenthesis, there are no arguments to call a function with. -/
theorem exec_callFunction_bare (noCall : '(' ∉ s) (r : Ref .node) (w : World) :
    (callFunction ev scope s r).exec w = (.error .badIndex, w) := by
  unfold callFunction parameters bracketed
  rw [Run.exec_bind_ok w (Run.exec_getStore w), List.splitOn_eq_singleton noCall]
  simp only [bind_assoc, pure_bind]
  cases there : ((w.store.node r).command.compact.splitOn '(')[1]? with
  | none =>
    unfold Run.nth
    rw [there]
    rfl
  | some inside =>
    unfold Run.nth
    rw [there]
    rfl

private theorem instantiate_builds {q : Ref .record} (calls : w.store.Calls text q) :
    (instantiate ev q).Builds rounds text w := by
  obtain ⟨n, rfl⟩ := builds.level
  exact ⟨fun v later made => Makes.refl.step calls made,
    fun e later failed => .inr ⟨w, n, q, .refl, calls, failed⟩⟩

include unread in
private theorem valueStep_builds (noCall : '(' ∉ s) (inside : text.Part s) :
    (valueStep ev scope s).Builds rounds text w := by
  unfold valueStep
  refine Builds.getStore_bind ?_
  split
  · next call =>
    refine (lookup_builds builds unread inside (.called call.1)).bind fun item m looked => ?_
    refine Builds.heldItem_bind fun r same =>
      Builds.reads_bind (Run.exec_readVariable r m) fun v given => ?_
    subst same
    obtain ⟨rfl, t, piece, last, bound⟩ := lookup_bound looked
    rw [Text.before_of_not_mem noCall] at last
    split
    · exact Builds.reads (exec_callFunction_bare noCall _ _)
    · exact instantiate_builds builds ⟨s, piece, t, r, inside, call.1, last, bound,
        Variable.content_of_reading given⟩
    · exact Builds.pure _
  · split
    · next element =>
      refine (lookup_builds builds unread inside (.indexed element.1)).bind fun item m _ => ?_
      unfold bracketed
      simp only [bind_assoc, pure_bind]
      refine Builds.nth_bind fun i there =>
        (builds.valueOf scope _ m (inside.index element.1 there)).bind fun v later _ => ?_
      exact Builds.heldItem_bind fun r _ => element_builds r v
    · exact evaluate_builds builds unread inside

end Parts

/-- Evaluation without calls and input does no more than make objects. -/
theorem Evaluator.ofRoom_builds (rounds n : Nat) {text : Text} (noCall : '(' ∉ text)
    (unread : ¬ text.Part Literal.inputWord) : (ofRoom rounds n).Builds rounds text := by
  induction n with
  | zero => exact ⟨fun _ _ _ _ => Run.Builds.throw _, fun _ _ _ _ => Run.Builds.throw _, 0, rfl⟩
  | succ n ih =>
    refine ⟨fun scope s w inside => ?_, fun home s w known => ?_, n + 1, rfl⟩
    · exact valueStep_builds ih unread (fun member => noCall (inside.isInfix.subset member)) inside
    · exact bindText_builds ih unread known

/-! ### What an expression changes -/

section Whole

variable {rounds n : Nat} {text : Text} {scope : Ref .scope} {w later : World}

theorem Store.Calls.has {st : Store} {q : Ref .record} (calls : st.Calls text q)
    (closed : st.Closed) : st.Has q.cell := by
  obtain ⟨s, piece, t, r, -, -, -, bound, content⟩ := calls
  have known := closed.content (closed.bound (Store.has_of_mem_table bound) bound)
  rw [content] at known
  exact known _ (List.mem_singleton.mpr rfl)

theorem Makes.eq (makes : Makes rounds text w later) (uncalled : ∀ q, ¬ w.store.Calls text q) :
    later = w := by
  induction makes with
  | refl => rfl
  | step _ calls _ ih =>
    subst ih
    exact absurd calls (uncalled _)

private theorem Makes.spares (makes : Makes rounds text w later) (closed : w.store.Closed) :
    later.store.Closed ∧ ∃ st, later = { w with store := st } ∧
    Store.Spares (fun _ => True) w.store st := by
  induction makes with
  | refl => exact ⟨closed, w.store, rfl, .of_extends (.refl _)⟩
  | step _ calls made ih =>
    obtain ⟨closed, st, rfl, before⟩ := ih
    obtain ⟨last, rfl, after⟩ := instantiate_spares closed (calls.has closed) made
    refine ⟨((instantiate_sound closed (calls.has closed)).tame _ _ _ rfl made).2.1, last, rfl,
      before.trans (after.mono fun _ _ => ?_)⟩
    exact .inr nofun

variable (noCall : '(' ∉ text) (unread : ¬ text.Part Literal.inputWord)
include noCall unread

/-- An expression that calls no class, no function and no input leaves the world as it is. -/
theorem exec_valueOf_uncalled (uncalled : ∀ q, ¬ w.store.Calls text q) :
    ∃ e, ((Evaluator.ofRoom rounds n).valueOf scope text).exec w = (e, w) := by
  have builds := (Evaluator.ofRoom_builds rounds n noCall unread).valueOf scope text w .self
  rcases ran : ((Evaluator.ofRoom rounds n).valueOf scope text).exec w with ⟨e | v, later⟩
  · rcases builds.error e later ran with makes | ⟨m, _, q, makes, calls, _⟩
    · exact ⟨_, congrArg _ (makes.eq uncalled)⟩
    · rw [makes.eq uncalled] at calls
      exact absurd calls (uncalled q)
  · exact ⟨_, congrArg _ ((builds.ok v later ran).eq uncalled)⟩

theorem valueOf_spares (closed : w.store.Closed) {e : Except Fault Value}
    (ran : ((Evaluator.ofRoom rounds n).valueOf scope text).exec w = (e, later)) :
    ∃ st, later = { w with store := st } ∧
    Store.Spares (fun name => name ≠ sharedName ∨ e ≠ .error .tooDeep) w.store st := by
  have builds := (Evaluator.ofRoom_builds rounds n noCall unread).valueOf scope text w .self
  cases e with
  | ok v =>
    obtain ⟨-, st, same, spares⟩ := (builds.ok v later ran).spares closed
    exact ⟨st, same, spares.mono fun _ _ => trivial⟩
  | error e =>
    rcases builds.error e later ran with makes | ⟨m, level, q, makes, calls, failed⟩
    · obtain ⟨-, st, same, spares⟩ := makes.spares closed
      exact ⟨st, same, spares.mono fun _ _ => trivial⟩
    · obtain ⟨closed, st, rfl, before⟩ := makes.spares closed
      obtain ⟨last, rfl, after⟩ := instantiate_spares closed (calls.has closed) failed
      refine ⟨last, rfl, (before.mono fun _ _ => trivial).trans
        (after.mono fun name known => known.imp_right ?_)⟩
      exact fun other same => other (congrArg _ (Except.error.inj same))

end Whole

end CommandScript

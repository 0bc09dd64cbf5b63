import CommandScript.Eval.Assign
import CommandScript.Eval.Binding
import CommandScript.Proofs.Exec
import CommandScript.Proofs.Scoping

/-! Assignment to a variable that is there, for all values that evaluation can give: it always
succeeds, puts the value into the variable as it stands and into the variable that its name means as
it is read, and leaves all else alone. -/
namespace CommandScript

namespace Value

/-- A value that evaluation can give, nothing apart: a text comes with its quotes, and the elements
of a list are variables. -/
inductive Settled (st : Store) : Value → Prop where
  | bool (b : Bool) : Settled st (bool b)
  | int (n : Int) : Settled st (int n)
  | float (x : Float) : Settled st (float x)
  | text (s : Text) (quoted : Spelled.isQuoted s = true) (two : 2 ≤ s.length) : Settled st (text s)
  | node (r : Ref .node) : Settled st (node r)
  | record (q : Ref .record) : Settled st (record q)
  | list (l : Ref .list) (held : ∀ item ∈ (st.list l).toList, ∃ r, item = .held r) :
      Settled st (list l)

/-- A value as it is read from a variable made for it: a truth value is a number, and the quotes of
a text are single ones. -/
def asRead : Value → Value
  | bool b => int (if b then 1 else 0)
  | text s => text (Text.encloseSingle (Spelled.inner s))
  | v => v

private theorem asRead_asRead (v : Value) : v.asRead.asRead = v.asRead := by
  cases v with
  | text s => simp only [Value.asRead, Spelled.inner_encloseSingle]
  | _ => rfl

namespace Settled

variable {st later : Store} {v : Value}

theorem asRead (settled : v.Settled st) : v.asRead.Settled st := by
  cases settled with
  | bool b => exact .int _
  | text s => exact .text _ (Spelled.isQuoted_encloseSingle _) (by simp [Text.encloseSingle])
  | int n => exact .int n
  | float x => exact .float x
  | node r => exact .node r
  | record q => exact .record q
  | list l held => exact .list l held

theorem congr (settled : v.Settled st) (lists : later.lists = st.lists) : v.Settled later := by
  cases settled with
  | bool b => exact .bool b
  | int n => exact .int n
  | float x => exact .float x
  | text s quoted two => exact .text s quoted two
  | node r => exact .node r
  | record q => exact .record q
  | list l held =>
    refine .list l ?_
    rwa [Store.list, lists]

end Settled

end Value

/-- The variable that a value makes: a text loses its quotes, and an object has the scope of its
statement for members. -/
def Variable.ofValue (st : Store) (name : Text) (home : Option (Ref .scope)) (v : Value) :
    Variable :=
  match v with
  | .nothing => { name := some name, home, content := .nothing, tag := .unknown }
  | .bool b => { name := some name, home, content := .int (if b then 1 else 0), tag := .int }
  | .int n => { name := some name, home, content := .int n, tag := .int }
  | .float x => { name := some name, home, content := .float x, tag := .float }
  | .text s => { name := some name, home, content := .text (Spelled.inner s), tag := .text }
  | .node r => { name := some name, home, content := .node r, tag := .function }
  | .record q =>
    { name := some name, home, content := .record q, tag := .object
      members := (st.record q).body.map fun body => (st.node body.2).scope }
  | .list l => { name := some name, home, content := .list l, tag := .list }

namespace Variable

theorem ofValue_asRead (st : Store) (name : Text) (home : Option (Ref .scope)) (v : Value) :
    ofValue st name home v.asRead = ofValue st name home v := by
  cases v with
  | text s => simp only [ofValue, Value.asRead, Spelled.inner_encloseSingle]
  | _ => rfl

theorem reading_ofValue (name : Text) (home : Option (Ref .scope)) {st : Store} {v : Value}
    (settled : v.Settled st) : (ofValue st name home v).reading = .ok v.asRead := by
  cases settled <;> rfl

end Variable

/-- No quoted text of two characters or more is a word that stands for a text. -/
theorem Literal.expand_quoted {s : Text} (quoted : Spelled.isQuoted s = true) (two : 2 ≤ s.length)
    (w : World) : (Literal.expand s).exec w = (.ok s, w) := by
  have notInput : s ≠ inputWord := by
    rintro rfl
    revert quoted
    decide
  have absent : fixed.lookup s = none := by
    rw [List.lookup_eq_none_iff]
    intro entry member
    rw [bne_iff_ne]
    intro same
    subst same
    revert quoted two
    revert entry
    decide
  rw [expand, if_neg notInput, absent]
  rfl

/-- A text of at least two characters is no quote character. -/
theorem spells_text_of_two {t : Text} (two : 2 ≤ t.length) (c : Char) :
    Spells.spells c (Item.bare (.text t)) = false := by
  match t, two with
  | _ :: _ :: _, _ => rfl

/-- A text that is not in quotes is no quote character. -/
theorem spells_unquoted {t : Text} (noQuotes : Spelled.isQuoted t = false) {c : Char}
    (quote : c ∈ ['"', '\'']) : Spells.spells c (Item.bare (.text t)) = false := by
  match t, noQuotes with
  | [], _ => rfl
  | _ :: _ :: _, _ => rfl
  | [d], noQuotes =>
    refine beq_eq_false_iff_ne.mpr ?_
    rintro rfl
    rcases List.mem_pair.mp quote with rfl | rfl <;> revert noQuotes <;> decide

/-- A list is shown as a text only if its last element is a quote character. -/
theorem quotedListText_eq_none {items : List Item}
    (silent : ∀ c ∈ ['"', '\''], ∀ item ∈ items.getLast?, Spells.spells c item = false)
    (st : Store) (fuel : Nat) : quotedListText? st fuel items = none := by
  have unquoted : Spelled.isQuoted items = false := by
    unfold Spelled.isQuoted
    split
    · next first last _ final =>
      rw [silent '"' (by simp) last final, silent '\'' (by simp) last final, Bool.and_false,
        Bool.and_false]
      rfl
    · rfl
  rw [quotedListText?, unquoted]
  rfl

section Settling

variable {w : World} {l : Ref .list} (held : ∀ item ∈ (w.store.list l).toList, ∃ r, item = .held r)
include held

private theorem quotedListText_held (fuel : Nat) :
    quotedListText? w.store fuel (w.store.list l).toList = none := by
  refine quotedListText_eq_none (fun c _ item last => ?_) w.store fuel
  obtain ⟨r, rfl⟩ := held item (List.mem_of_getLast? last)
  rfl

/-- A list whose elements are variables is left alone. -/
private theorem settle_held (ev : Evaluator) (home : Option (Ref .scope)) :
    (settle ev home l).exec w = (.ok (), w) := by
  have each : ∀ i, (settleAt ev home l i).exec w = (.ok (), w) := by
    intro i
    rw [settleAt, Run.exec_bind_ok w (Run.exec_getStore w)]
    split
    · next v found =>
      obtain ⟨r, same⟩ := held _ (Array.mem_toList_iff.mpr (Array.mem_of_getElem? found))
      cases same
    · rfl
  have all : ∀ places : List Nat, (places.forM (settleAt ev home l)).exec w = (.ok (), w) := by
    intro places
    induction places with
    | nil => rfl
    | cons i rest ih => exact (Run.exec_bind_ok w (each i)).trans ih
  rw [settle, Run.exec_bind_ok w (Run.exec_getStore w)]
  exact all _

end Settling

section Evaluation

variable {ev inner : Evaluator} (level : ev.bind = bindStep inner) {v : Value} {w : World}
include level

theorem bind_settled (home : Option (Ref .scope)) (name : Text) (lenient : Bool)
    (settled : v.Settled w.store) :
    (ev.bind home name lenient v).exec w = (.ok (Variable.ofValue w.store name home v), w) := by
  rw [level]
  cases settled with
  | text s quoted two =>
    change (bindText _ home name lenient s).exec w = _
    unfold bindText
    rw [if_pos quoted]
    rfl
  | list l held =>
    change (Run.getStore >>= _).exec w = _
    rw [Run.exec_bind_ok w (Run.exec_getStore w), quotedListText_held held]
    exact Run.exec_bind_ok w (settle_held held inner home)
  | _ => rfl

theorem evaluate_settled (home : Option (Ref .scope)) (settled : v.Settled w.store) :
    (evaluate ev home (.bare v)).exec w = (.ok v.asRead, w) := by
  have expanded : (Literal.expandValue v).exec w = (.ok v, w) := by
    cases settled with
    | text s quoted two => exact Run.exec_bind_ok w (Literal.expand_quoted quoted two w)
    | _ => rfl
  rw [evaluate_eq, Run.exec_bind_ok w (Run.exec_readItem_bare w v), Run.exec_bind_ok w expanded,
    Run.exec_bind_ok w (bind_settled level home nameless true settled), Variable.exec_read,
    Variable.reading_ofValue _ _ settled]

end Evaluation

/-! ### Writing to a variable and to its namesake -/

namespace Store

def namesake (st : Store) (r : Ref .variable) : Option (Ref .variable) :=
  (st.var r).home.bind fun home => ((st.var r).name.bind (st.resolve home)).map (·.2)

/-- The store after a value is assigned to a variable: the value goes to the variable as it stands,
and to its namesake as it is read. -/
def overwrite (st : Store) (r : Ref .variable) (v : Value) : Store :=
  let st' := st.updateVariable r fun x => { x with content := v }
  match st.namesake r with
  | some q => st'.updateVariable q fun x => { x with content := v.asRead }
  | none => st'

theorem var_overwrite {st : Store} {r : Ref .variable} (v : Value) (held : st.Has r.cell) :
    (st.overwrite r v).var r =
      { st.var r with content := if st.namesake r = some r then v.asRead else v } := by
  have written := var_updateVariable_here (fun x => { x with content := v }) held
  unfold overwrite
  cases known : st.namesake r with
  | none => exact written
  | some q =>
    by_cases same : q = r
    · subst same
      have still := held.mono (st.grows_updateVariable q fun x => { x with content := v })
      rw [if_pos rfl, var_updateVariable_here _ still, written]
    · have different : some q ≠ some r := fun equal => same (Option.some.inj equal)
      rw [if_neg different, var_updateVariable_elsewhere _ _ (Ne.symm same), written]

theorem resolve_overwrite (st : Store) (r : Ref .variable) (v : Value) (scope : Ref .scope) :
    (st.overwrite r v).resolve scope = st.resolve scope := by
  unfold overwrite
  split
  · rw [resolve_updateVariable, resolve_updateVariable]
  · rw [resolve_updateVariable]

end Store

section Assignment

variable {ev inner : Evaluator} (level : ev.bind = bindStep inner) {v : Value} {w : World}
include level

theorem update_settled {home : Ref .scope} {label : Option Text} {source : Run Item}
    (settled : v.Settled w.store) (given : source.exec w = (.ok (.bare v), w)) :
    (update ev home label source).exec w =
      (.ok (), { w with store := match label.bind (w.store.resolve home) with
        | some (_, q) => w.store.updateVariable q fun x => { x with content := v.asRead }
        | none => w.store }) := by
  unfold update
  cases label with
  | none => rfl
  | some name =>
    simp only [Option.bind_some]
    rw [Run.exec_bind_ok w (Run.exec_getStore w)]
    cases found : w.store.resolve home name with
    | none => rfl
    | some meaning =>
      obtain ⟨owner, q⟩ := meaning
      have bound := (Store.resolve_inv found).2
      simp only
      rw [Run.exec_bind_ok w given,
        Run.exec_bind_ok w (evaluate_settled level (some owner) settled),
        Run.exec_changeStore, bound]

theorem assignVariable_settled {r : Ref .variable} (settled : v.Settled w.store)
    (held : w.store.Has r.cell) :
    (assignVariable ev r (.bare v)).exec w =
      (.ok (), { w with store := w.store.overwrite r v }) := by
  unfold assignVariable
  rw [Run.exec_bind_ok w (Run.exec_readItem_bare w v),
    Run.exec_bind_ok w (Run.exec_changeStore w _)]
  let middle : World :=
    { w with store := w.store.updateVariable r fun x => { x with content := v } }
  have written : middle.store.var r = { w.store.var r with content := v } :=
    Store.var_updateVariable_here _ held
  -- A variable keeps its home and its name while it is written to, so that its namesake is the same
  -- as before.
  have settled : v.Settled middle.store := settled.congr rfl
  change (Run.getStore >>= _).exec middle = _
  rw [Run.exec_bind_ok middle (Run.exec_getStore middle), written]
  cases home : (w.store.var r).home with
  | none => simp only [Store.overwrite, Store.namesake, home]; rfl
  | some scope =>
    simp only [home]
    have given :
      (do return Item.bare (← (Variable.ofValue middle.store nameless (some scope) v).read) : Run
        Item).exec middle =
        (.ok (.bare v.asRead), middle) := by
      refine Run.exec_bind_ok middle ?_
      rw [Variable.exec_read, Variable.reading_ofValue _ _ settled]
    rw [Run.exec_bind_ok middle (bind_settled level (some scope) nameless false settled),
      update_settled level settled.asRead given, Value.asRead_asRead, Store.resolve_updateVariable]
    unfold Store.overwrite Store.namesake
    rw [home, Option.bind_some]
    cases (w.store.var r).name.bind (w.store.resolve scope) <;> rfl

end Assignment

end CommandScript

import CommandScript.Program
import CommandScript.Statement.Run
import CommandScript.Proofs.Assignment
import Mathlib.Data.List.TakeWhile

/-! Reading a name after a value was assigned to it. A new name gives the value back, and so does a
name that meant a variable made for anything but text. A variable made for text keeps its tag: what
is assigned to it is stored with its quotes, and what is no text cannot be read at all. -/
namespace CommandScript

/-- A name without members or brackets at its end that is no literal and no word that stands for a
text. -/
structure PlainName (name : Text) : Prop where
  single : '.' ∉ name
  nonempty : name ≠ []
  noElement : name.getLast? ≠ some ']'
  noQuotes : Spelled.isQuoted name = false
  noInt : Number.readInt? name = none
  noFloat : Number.readFloat? name = none
  noInput : name ≠ Literal.inputWord
  noWord : Literal.fixed.lookup name = none

namespace Value

inductive IsScalar : Value → Prop where
  | int (n : Int) : IsScalar (int n)
  | float (x : Float) : IsScalar (float x)
  | text (s : Text) (quoted : Spelled.isQuoted s = true) (two : 2 ≤ s.length) : IsScalar (text s)

theorem IsScalar.settled {v : Value} (scalar : v.IsScalar) (st : Store) : v.Settled st := by
  cases scalar with
  | int n => exact .int n
  | float x => exact .float x
  | text s quoted two => exact .text s quoted two

theorem IsScalar.cells {v : Value} (scalar : v.IsScalar) : v.cells = [] := by
  cases scalar <;> rfl

theorem IsScalar.cells_asRead {v : Value} (scalar : v.IsScalar) : v.asRead.cells = [] := by
  cases scalar <;> rfl

end Value

section Names

variable {st : Store} {scope owner : Ref .scope} {name : Text} {r : Ref .variable}

theorem isVisible_single (single : '.' ∉ name) :
    st.isVisible scope name = (st.resolve scope name).isSome := by
  have whole : name.before '.' = name :=
    List.takeWhile_eq_self_iff.mpr fun _ member => bne_iff_ne.mpr fun same => single (same ▸ member)
  rw [Store.isVisible, whole]

theorem lookup_single (ev : Evaluator) (w : World) (single : '.' ∉ name)
    (found : w.store.resolve scope name = some (owner, r)) :
    (lookup ev scope name).exec w = (.ok (.held r), w) := by
  unfold lookup
  rw [List.splitOn_eq_singleton single]
  change (lookupFrom ev scope name []).exec w = _
  rw [lookupFrom, Run.exec_bind_ok w (Run.exec_getStore w), found]
  rfl

variable (rounds n : Nat) {v : Value} (w : World)

def declaring (ev : Evaluator) (scope : Ref .scope) (name : Text) (v : Value) : Run Unit := do
  let u ← evaluate ev (some scope) (.bare v)
  let x ← ev.bind (some scope) name false u
  Run.changeStore (·.bindName scope name x)

theorem declare_single (ev : Evaluator) (single : '.' ∉ name) :
    declare ev scope name (.bare v) = declaring ev scope name v := by
  unfold declare
  rw [List.splitOn_eq_singleton single]
  rfl

private theorem declaring_settled (settled : v.Settled w.store) :
    (declaring (Evaluator.ofRoom rounds (n + 1)) scope name v).exec w =
      (.ok (),
        { w with store := w.store.bindName scope name (Variable.ofValue w.store name
          (some scope) v) }) := by
  rw [declaring, Run.exec_bind_ok w (evaluate_settled rfl (some scope) settled),
    Run.exec_bind_ok w (bind_settled rfl (some scope) name false settled.asRead),
    Variable.ofValue_asRead]
  rfl

theorem declare_settled (single : '.' ∉ name) (settled : v.Settled w.store) :
    (declare (Evaluator.ofRoom rounds (n + 1)) scope name (.bare v)).exec w =
      (.ok (),
        { w with store := w.store.bindName scope name (Variable.ofValue w.store name
          (some scope) v) }) := by
  rw [declare_single _ single]
  exact declaring_settled rounds n w settled

def Store.targetOf (st : Store) (scope : Ref .scope) (isGlobal : Bool) : Ref .scope :=
  if isGlobal then st.globalOf scope else scope

theorem Store.targetOf_mem_ancestors (st : Store) (scope : Ref .scope) (isGlobal : Bool) :
    st.targetOf scope isGlobal ∈ st.ancestors scope := by
  cases isGlobal with
  | false => exact self_mem_ancestors scope
  | true => exact globalOf_mem_ancestors scope

theorem exec_assign_new (ev : Evaluator) (isGlobal : Bool) (single : '.' ∉ name)
    (nonempty : name ≠ []) (noElement : name.getLast? ≠ some ']')
    (unknown : w.store.resolve scope name = none) :
    (assign ev scope isGlobal name (.bare v)).exec w =
      (declaring ev (w.store.targetOf scope isGlobal) name v).exec w := by
  have hidden : w.store.isVisible scope name = false := by
    rw [isVisible_single single, unknown]; rfl
  unfold assign
  rw [Run.exec_bind_ok w (Run.exec_readItem_bare w v), Run.exec_bind_ok w (Run.exec_getStore w),
    hidden, if_neg Bool.false_ne_true]
  split
  · next empty => exact absurd (List.getLast?_eq_none_iff.mp empty) nonempty
  · next element => exact absurd element noElement
  · cases isGlobal with
    | false => rw [if_neg Bool.false_ne_true, declare_single ev single]; rfl
    | true =>
      rw [if_pos rfl, declareGlobal, Run.exec_bind_ok w (Run.exec_getStore w),
        declare_single ev single]
      rfl

theorem assign_new (isGlobal : Bool) (single : '.' ∉ name) (nonempty : name ≠ [])
    (noElement : name.getLast? ≠ some ']') (settled : v.Settled w.store)
    (unknown : w.store.resolve scope name = none) :
    let target := w.store.targetOf scope isGlobal
    (assign (Evaluator.ofRoom rounds (n + 1)) scope isGlobal name (.bare v)).exec w =
      (.ok (),
        { w with store := w.store.bindName target name (Variable.ofValue w.store name
          (some target) v) }) := by
  rw [exec_assign_new w _ isGlobal single nonempty noElement unknown]
  exact declaring_settled rounds n w settled

theorem assign_known (isGlobal : Bool) (single : '.' ∉ name) (scalar : v.IsScalar)
    (known : w.store.resolve scope name = some (owner, r)) (held : w.store.Has r.cell) :
    (assign (Evaluator.ofRoom rounds (n + 1)) scope isGlobal name (.bare v)).exec w =
      (.ok (), { w with store := w.store.overwrite r v }) := by
  have visible : w.store.isVisible scope name = true := by rw [isVisible_single single, known]; rfl
  unfold assign
  rw [Run.exec_bind_ok w (Run.exec_readItem_bare w v), Run.exec_bind_ok w (Run.exec_getStore w),
    visible, if_pos rfl, Run.exec_bind_ok w (lookup_single _ w single known)]
  exact assignVariable_settled rfl (scalar.settled _) held

/-- The variable for a name that means one is a copy of it. -/
theorem bindName_known (ev : Evaluator) (lenient : Bool) (single : '.' ∉ name)
    (known : w.store.resolve scope name = some (owner, r)) :
    (bindName ev (some scope) lenient (some name)).exec w =
      (.ok { name := (w.store.var r).name, home := some scope, content := (w.store.var
        r).content, tag := (w.store.var r).tag }, w) := by
  have visible : w.store.isVisible scope name = true := by rw [isVisible_single single, known]; rfl
  unfold bindName
  simp only
  rw [Run.exec_bind_ok w (Run.exec_getStore w), if_pos visible,
    Run.exec_bind_ok w (lookup_single ev w single known)]
  rfl

theorem bindName_single (ev : Evaluator) (single : '.' ∉ name) :
    (bindName ev (some scope) true (some name)).exec w =
      (.ok (match w.store.resolve scope name with
        | some (_, r) =>
          { name := (w.store.var r).name, home := some scope, content := (w.store.var
            r).content, tag := (w.store.var r).tag }
        | none =>
          { name := some name, home := some scope, content := .nothing, tag := .unknown }), w) := by
  cases found : w.store.resolve scope name with
  | none =>
    unfold bindName
    simp only
    rw [Run.exec_bind_ok w (Run.exec_getStore w), isVisible_single single, found]
    rfl
  | some meaning => exact bindName_known w ev true single found

def Store.ReadsName (st : Store) (scope : Ref .scope) (name : Text) : Prop :=
  isCondition name = false ∧ ¬(name.getLast? = some ')' ∧ st.isVisible scope (name.before '('))

def Store.readName (st : Store) (scope : Ref .scope) (name : Text) : Except Fault Value :=
  match st.resolve scope name with
  | some (_, r) => (st.var r).reading
  | none => .ok .nothing

theorem mem_of_mem_trimSpaces {c : Char} {s : Text} (member : c ∈ Spelled.trimSpaces s) :
    c ∈ s := by
  have kept := List.dropWhile_subset _ (List.mem_reverse.mp member)
  exact List.dropWhile_subset _ (List.mem_reverse.mp kept)

theorem evaluate_name (plain : PlainName name) (noCondition : isCondition name = false) :
    (evaluate (Evaluator.ofRoom rounds (n + 1)) (some scope) (.bare (.text name))).exec w =
      (w.store.readName scope (Spelled.trimSpaces name), w) := by
  have expanded : (Literal.expandValue (.text name)).exec w = (.ok (.text name), w) := by
    simp only [Literal.expandValue, Literal.expand, if_neg plain.noInput, plain.noWord]
    rfl
  rw [evaluate_eq, Run.exec_bind_ok w (Run.exec_readItem_bare w _), Run.exec_bind_ok w expanded]
  change (bindText (Evaluator.ofRoom rounds n) (some scope) nameless true name >>=
    Variable.read).exec w = _
  have named : bindText (Evaluator.ofRoom rounds n) (some scope) nameless true name =
      bindName (Evaluator.ofRoom rounds n) (some scope) true (some (Spelled.trimSpaces name)) := by
    unfold bindText
    simp only [plain.noQuotes, plain.noInt, plain.noFloat, noCondition,
      Bool.false_eq_true, if_false]
  have single : '.' ∉ Spelled.trimSpaces name :=
    fun member => plain.single (mem_of_mem_trimSpaces member)
  rw [named, Run.exec_bind_ok w (bindName_single w _ single), Variable.exec_read, Store.readName]
  cases w.store.resolve scope (Spelled.trimSpaces name) <;> rfl

theorem read_plain (plain : PlainName name) (reads : w.store.ReadsName scope name) :
    ((Evaluator.ofRoom rounds (n + 2)).valueOf scope name).exec w =
      (w.store.readName scope (Spelled.trimSpaces name), w) := by
  change (valueStep (Evaluator.ofRoom rounds (n + 1)) scope name).exec w = _
  unfold valueStep
  rw [Run.exec_bind_ok w (Run.exec_getStore w), if_neg reads.2,
    if_neg (fun both => plain.noElement both.1)]
  exact evaluate_name rounds n w plain reads.1

end Names

/-- What a plain name reads as after a scalar was assigned to it. A variable that the name meant
before keeps its tag, so that one made for text puts its quotes around what it now holds. -/
def Store.readBack (st : Store) (scope : Ref .scope) (name : Text) (v : Value) :
    Except Fault Value :=
  match st.resolve scope name with
  | none => .ok v.asRead
  | some (_, r) =>
    { st.var r with content := if st.namesake r = some r then v.asRead else v }.reading

/-- A variable made for text gives no scalar back. -/
theorem Variable.reading_text_ne {x : Variable} {v : Value} (tag : x.tag = .text)
    (scalar : v.IsScalar) (content : x.content = v ∨ x.content = v.asRead) :
    x.reading ≠ .ok v.asRead := by
  rw [Variable.reading, if_pos tag]
  cases scalar with
  | int | float =>
    rcases content with content | content <;> rw [content] <;> exact fun same => nomatch same
  | text s quoted two =>
    -- the quotes put around it make the text longer than the one that was assigned
    intro same
    rcases content with content | content <;> rw [content] at same
    all_goals
      have lengths := congrArg List.length (Value.text.inj (Except.ok.inj same))
      simp only [Text.encloseSingle, Spelled.inner, List.length_append, List.length_cons,
        List.length_dropLast, List.length_drop, List.length_nil] at lengths
      omega

theorem Store.readBack_eq_iff {st : Store} {scope : Ref .scope} {name : Text} {v : Value}
    (scalar : v.IsScalar) :
    st.readBack scope name v = .ok v.asRead ↔
      ∀ owner r, st.resolve scope name = some (owner, r) →
        (st.var r).tag ≠ .text ∧ (v.asRead = v ∨ st.namesake r = some r) := by
  unfold readBack
  cases found : st.resolve scope name with
  | none => simp
  | some meaning =>
    obtain ⟨owner, r⟩ := meaning
    simp only
    constructor
    · intro given _ _ same
      cases same
      have untagged : (st.var r).tag ≠ .text := by
        intro tag
        refine absurd given (Variable.reading_text_ne tag scalar ?_)
        by_cases registered : st.namesake r = some r
        · exact .inr (if_pos registered)
        · exact .inl (if_neg registered)
      refine ⟨untagged, ?_⟩
      by_cases registered : st.namesake r = some r
      · exact .inr registered
      · rw [Variable.reading, if_neg untagged] at given
        have stored := Except.ok.inj given
        exact .inl (by rw [← stored]; exact if_neg registered)
    · intro condition
      obtain ⟨untagged, kept⟩ := condition owner r rfl
      rw [Variable.reading, if_neg untagged]
      rcases kept with same | registered
      · rw [same]
        simp only [ite_self]
      · simp only [if_pos registered]

def Store.assigned (st : Store) (scope : Ref .scope) (isGlobal : Bool) (name : Text) (v : Value) :
    Store :=
  match st.resolve scope name with
  | some (_, r) => st.overwrite r v
  | none =>
    let target := st.targetOf scope isGlobal
    st.bindName target name (Variable.ofValue st name (some target) v)

section Scalars

variable (rounds n : Nat) (w : World) (closed : w.store.Closed) {scope : Ref .scope}
  (held : w.store.Has scope.cell) (isGlobal : Bool)
  {name : Text} {v : Value}
include closed held

theorem assign_scalar (single : '.' ∉ name) (nonempty : name ≠ [])
    (noElement : name.getLast? ≠ some ']') (scalar : v.IsScalar) :
    (assign (Evaluator.ofRoom rounds (n + 1)) scope isGlobal name (.bare v)).exec w =
      (.ok (), { w with store := w.store.assigned scope isGlobal name v }) := by
  unfold Store.assigned
  cases found : w.store.resolve scope name with
  | none => exact assign_new rounds n w isGlobal single nonempty noElement (scalar.settled _) found
  | some meaning =>
    exact assign_known rounds n w isGlobal single scalar found (closed.resolve held found).2

theorem assign_plain (plain : PlainName name) (scalar : v.IsScalar) :
    (assign (Evaluator.ofRoom rounds (n + 1)) scope isGlobal name (.bare v)).exec w =
      (.ok (), { w with store := w.store.assigned scope isGlobal name v }) :=
  assign_scalar rounds n w closed held isGlobal plain.single plain.nonempty plain.noElement scalar

end Scalars

theorem Store.readName_assigned {st : Store} (closed : st.Closed) {scope : Ref .scope}
    (held : st.Has scope.cell) (isGlobal : Bool) (name : Text) {v : Value} (scalar : v.IsScalar) :
    (st.assigned scope isGlobal name v).readName scope name = st.readBack scope name v := by
  unfold Store.assigned Store.readBack
  cases found : st.resolve scope name with
  | none =>
    have inside : st.targetOf scope isGlobal ∈ st.ancestors scope := by
      cases isGlobal with
      | false => exact Store.self_mem_ancestors scope
      | true => exact Store.globalOf_mem_ancestors scope
    obtain ⟨owner, meaning⟩ := Store.resolve_bindName_new closed
      (Variable.ofValue st name (some (st.targetOf scope isGlobal)) v) held inside found
    simp only [Store.readName, meaning, Store.var_bindName_fresh]
    exact Variable.reading_ofValue name _ (scalar.settled st)
  | some meaning =>
    obtain ⟨owner, r⟩ := meaning
    simp only [Store.readName, Store.resolve_overwrite, found,
      Store.var_overwrite v (closed.resolve held found).2]

/-- A scalar is assigned to a plain name and the name is read. The assignment succeeds, and unless
the name is read as a condition or a call, the result is what the name without spaces around it now
reads as. For a name without spaces this is the scalar exactly when the name was new or meant a
variable that was not made for text; in the second case a text comes with single quotes only if the
variable is the one that its own name means. -/
theorem assign_then_read (limits : Limits) (room : 2 ≤ limits.nesting) (w : World)
    (closed : w.store.Closed) (scope : Ref .scope) (held : w.store.Has scope.cell)
    (isGlobal : Bool) (name : Text) (plain : PlainName name) (v : Value) (scalar : v.IsScalar) :
    let ev := Evaluator.ofLimits limits
    let later := w.store.assigned scope isGlobal name v
    let after := { w with store := later }
    (assign ev scope isGlobal name (.bare v)).exec w = (.ok (), after) ∧
      (later.ReadsName scope name →
        (ev.valueOf scope name).exec after =
          (later.readName scope (Spelled.trimSpaces name), after)) ∧
      later.readName scope name = w.store.readBack scope name v ∧
      (later.readName scope name = .ok v.asRead ↔ ∀ owner r, w.store.resolve scope name =
        some (owner, r) →
        (w.store.var r).tag ≠ .text ∧ (v.asRead = v ∨ w.store.namesake r = some r)) := by
  obtain ⟨n, enough⟩ := Nat.exists_eq_add_of_le' room
  intro ev later after
  have level : ev = Evaluator.ofRoom limits.rounds (n + 2) := by rw [← enough]; rfl
  have given := Store.readName_assigned closed held isGlobal name scalar
  refine ⟨?_, ?_, given, ?_⟩
  · rw [level]
    exact assign_plain limits.rounds (n + 1) w closed held isGlobal plain scalar
  · intro reads
    rw [level]
    exact read_plain limits.rounds n after plain reads
  · rw [given]
    exact Store.readBack_eq_iff scalar

def Store.single (content : Value) (tag : Tag) : Store :=
  ({} : Store).newScope none |>.2.bindName ⟨0⟩ ['x']
    { name := some ['x'], home := some ⟨0⟩, content, tag }

theorem Store.closed_single {content : Value} (tag : Tag) (known : content.cells = []) :
    (single content tag).Closed := by
  have root : (({} : Store).newScope none).2.Closed :=
    closed_empty.newScope (fun _ none => nomatch none)
  apply root.bindName
  rw [Variable.cells, known]
  change (({} : Store).newScope none).2.HasAll [⟨.scope, 0⟩]
  decide

private theorem plainName_x : PlainName ['x'] := by
  constructor <;> decide

/-- A number becomes a text, which is read with single quotes. -/
theorem assign_then_read_text_for_int :
    let ev := Evaluator.ofLimits ⟨2, 0⟩
    ((do
      assign ev ⟨0⟩ true ['x'] (.bare (.text ['"', 'b', '"']))
      ev.valueOf ⟨0⟩ ['x'] : Run Value).exec
      { store := Store.single (.int 1) .int }).1 = .ok (.text ['\'', 'b', '\'']) := by
  obtain ⟨assigned, read, _, condition⟩ :=
    assign_then_read ⟨2, 0⟩ (Nat.le_refl 2) { store := Store.single (.int 1) .int }
    (Store.closed_single .int rfl) ⟨0⟩ (by decide) true ['x'] plainName_x (.text ['"', 'b', '"'])
    (.text _ (by decide) (by decide))
  intro ev
  rw [Run.exec_bind_ok _ assigned, read ⟨by decide, by decide⟩]
  refine condition.mpr ?_
  intro owner r found
  cases found
  exact ⟨by decide, .inr rfl⟩

/-- A text is assigned to a variable made for text: it comes back in quotes twice. -/
example : (Store.single (.text ['a']) .text).readBack ⟨0⟩ ['x'] (.text ['\'', 'b', '\'']) =
    .ok (.text ['\'', '\'', 'b', '\'', '\'']) := rfl

end CommandScript

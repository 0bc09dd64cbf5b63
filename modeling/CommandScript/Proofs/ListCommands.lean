import CommandScript.Proofs.Flattening
import CommandScript.Proofs.ListElements

/-! Commands on lists that several names mean. Through any of its names, an element can be read and
written to, the length can be stored, and another name can be given to the list. This fails only if
the list has got an element from which no variable can be made. -/
namespace CommandScript

/-! ### Elements by index -/

def indexing (name index : Text) : Text := name ++ '[' :: (index ++ [']'])

section Elements

variable {name index : Text}

private theorem getLast?_indexing : (indexing name index).getLast? = some ']' := by
  have shape : indexing name index = (name ++ '[' :: index) ++ [']'] := by
    rw [indexing, List.append_assoc, List.cons_append]
  rw [shape, List.getLast?_concat]

private theorem before_indexing (plain : '[' ∉ name) : (indexing name index).before '[' = name :=
  Text.before_append_self plain _

private theorem exec_bracketed_indexing (plain : '[' ∉ name) (flat : '[' ∉ index) (w : World) :
    (bracketed '[' (indexing name index)).exec w = (.ok index, w) := by
  have inner : '[' ∉ index ++ [']'] := by simp [flat]
  have parts : (indexing name index).splitOn '[' = [name, index ++ [']']] := by
    rw [indexing, Text.splitOn_append_cons plain, List.splitOn_eq_singleton inner]
  rw [bracketed, parts, Run.exec_bind_ok w (Run.exec_nth rfl w)]
  simp only [List.dropLast_concat]
  rfl

variable {w : World} {scope : Ref .scope} {l : Ref .list} {r : Ref .variable} {s : SharedList}

/-- The value of the expression for an element, one level of nesting above the value of the index.
-/
theorem exec_valueOf_indexing (rounds n : Nat) (identifier : Identifier name)
    (found : w.store.ListAt scope l name r) (flat : '[' ∉ index) {u : Value}
    (given : ((Evaluator.ofRoom rounds n).valueOf scope index).exec w = (.ok u, w)) :
    ((Evaluator.ofRoom rounds (n + 1)).valueOf scope (indexing name index)).exec w =
      (element (.ofRoom rounds n) r u).exec w := by
  obtain ⟨owner, resolved⟩ := found.found
  have plain : '[' ∉ name := identifier.not_mem (by simp)
  have single := identifier.newName.single
  have visible : w.store.isVisible scope name = true := by
    rw [isVisible_single single, resolved]
    rfl
  have noCall : ¬((indexing name index).getLast? = some ')' ∧
      w.store.isVisible scope ((indexing name index).before '(') = true) := by
    rw [getLast?_indexing]
    simp
  change (valueStep (Evaluator.ofRoom rounds n) scope (indexing name index)).exec w = _
  rw [valueStep, Run.exec_bind_ok w (Run.exec_getStore w), if_neg noCall, before_indexing plain,
    if_pos ⟨getLast?_indexing, visible⟩, Run.exec_bind_ok w (lookup_single _ w single resolved),
    Run.exec_bind_ok w (exec_bracketed_indexing plain flat w), Run.exec_bind_ok w given]
  rfl

namespace Store.Represents

variable (rep : w.store.Represents scope l s)
include rep

variable (rounds n : Nat) (known : name ∈ s.names) (flat : '[' ∉ index) {u : Value}
  (given : ((Evaluator.ofRoom rounds n).valueOf scope index).exec w = (.ok u, w)) {i : Int}
  (whole : u.toInt = .ok i)
include known flat given whole

/-- An index that comes round in time gives the element at its place. -/
theorem exec_reading (positive : 0 < s.elements.length) (above : -s.elements.length ≤ i)
    (near : i < s.elements.length * (2 * n + 1)) :
    ∃ v, s.elements[s.place i]? = some v ∧
      ((Evaluator.ofRoom rounds (n + 1)).valueOf scope (indexing name index)).exec w =
        (.ok v, w) := by
  obtain ⟨named, r, found⟩ := rep.names name known
  have there := List.getElem?_eq_getElem (SharedList.place_lt positive i)
  obtain ⟨item, same, stands⟩ := rep.items _ _ there
  refine ⟨_, there, ?_⟩
  rw [SharedList.place, ← rep.size] at same
  rw [← rep.size] at positive above near
  have near : i < (w.store.list l).size * (((2 * n : Nat) : Int) + 1) := by exact_mod_cast near
  obtain ⟨entry, here, reading⟩ := elementReading_near positive above near
  obtain rfl := Option.some.inj (same.symm.trans here)
  rw [exec_valueOf_indexing rounds n named found flat given,
    exec_element_list found.tag found.content whole, Evaluator.slack_ofRoom,
    reading, stands.itemReading]

/-- An index that would have to come round too often gives no element. -/
theorem exec_reading_far (far : s.elements.length * (2 * n + 1) ≤ i) :
    ((Evaluator.ofRoom rounds (n + 1)).valueOf scope (indexing name index)).exec w =
      (.error .tooDeep, w) := by
  obtain ⟨named, r, found⟩ := rep.names name known
  have far : (w.store.list l).size * (((2 * n : Nat) : Int) + 1) ≤ i := by
    rw [rep.size]
    exact_mod_cast far
  rw [exec_valueOf_indexing rounds n named found flat given,
    exec_element_list found.tag found.content whole, Evaluator.slack_ofRoom,
    elementReading_far far]

end Store.Represents

end Elements

/-! ### Writing to an element -/

section Writing

variable (rounds n : Nat) {w : World} {scope : Ref .scope} {l : Ref .list} {s : SharedList}
  {name index text : Text}
  {r : Ref .variable}

/-- A list is evaluated anew for the variable that holds it, which stays as it is. -/
theorem exec_update_list {ev : Evaluator} {h owner : Ref .scope} {later : World}
    (content : (w.store.var r).content = .list l)
    (resolved : w.store.resolve h name = some (owner, r))
    (evaluated : (evaluate ev (some owner) (.bare (.list l))).exec w = (.ok (.list l), later))
    (scopes : later.store.scopes = w.store.scopes) (tables : later.store.tables = w.store.tables)
    (same : later.store.var r = w.store.var r) :
    (update ev h (some name) (pure (.bare (.list l)))).exec w = (.ok (), later) := by
  have bound : (later.store.tableOf owner).find? name = some r := by
    rw [Store.tableOf, Store.table, Store.scope, scopes, tables]
    exact (Store.resolve_inv resolved).2
  -- the variable is given the list that it holds already
  have unchanged : (later.store.updateVariable r fun x => { x with content := .list l }) =
      later.store := by
    refine Store.updateVariable_eq_self ?_
    rw [same, ← content]
  unfold update
  simp only
  rw [Run.exec_bind_ok w (Run.exec_getStore w), resolved]
  simp only [pure_bind]
  rw [Run.exec_bind_ok w evaluated, Run.exec_changeStore, bound]
  simp only [unchanged]

/-- Evaluating the list anew puts its bare elements into variables, and leaves the variable that
holds it as it is. -/
theorem Store.Represents.update_list (rep : w.store.Represents scope l s)
    (found : w.store.ListAt scope l name r) {h : Ref .scope}
    (home : (w.store.var r).home = some h) :
    ∃ later, (update (.ofRoom rounds (n + 2)) h (some name) (pure (.bare (.list l)))).exec w =
      (.ok (), later) ∧
      later.store.Represents scope l s := by
  obtain ⟨_, owner, same, resolved⟩ := found.home
  obtain rfl := Option.some.inj (home.symm.trans same)
  obtain ⟨later, evaluated, wraps, _⟩ := evaluate_scalars rounds n (some owner) fun _ => rep.scalars
  have held := found.has rep.closed rep.inside
  have closed : later.store.Closed := wraps.closed rep.closed fun k same => by
    cases same
    exact (rep.closed.resolve (rep.closed.home held home) resolved).1
  refine ⟨later, ?_, rep.wraps wraps.store closed⟩
  exact exec_update_list found.content resolved evaluated wraps.store.scopes wraps.store.tables
    (wraps.store.var held)

private theorem Store.Represents.exec_setElement (rep : w.store.Represents scope l s)
    (found : w.store.ListAt scope l name r) {u v : Value} (operand : v.IsOperand) {i : Int}
    (whole : u.toInt = .ok i) (above : -s.elements.length ≤ i) (below : i < s.elements.length) :
    ∃ later, (setElement (.ofRoom rounds (n + 2)) r u (.bare v)).exec w = (.ok (), later) ∧
      later.store.Represents scope l { s with elements := s.elements.set (s.place i) v } := by
  have within := SharedList.place_lt (by omega : 0 < s.elements.length) i
  let placed := w.putBare l (s.place i) v
  have set : placed.store.Represents scope l { s with elements := s.elements.set (s.place i) v } :=
    rep.set operand within
  have still : placed.store.ListAt scope l name r :=
    found.congr (fun t => Store.resolve_updateList l _ t name) rfl
  obtain ⟨h, _, home, _⟩ := still.home
  obtain ⟨later, updated, after⟩ := set.update_list rounds n still home
  refine ⟨later, ?_, after⟩
  rw [← rep.size] at above below
  rw [exec_setElement_within found.tag found.content whole
    (.ofRoom rounds (n + 2)) v home found.named above below, rep.size]
  exact updated

end Writing

/-! ### Commands -/

def measuring (into name : Text) : Text := Text.unwords ["len".toList, into, name]

private theorem Command.spread_unwords {parts : List Text} (nonempty : parts ≠ [])
    (words : ∀ part ∈ parts, part ≠ [] ∧ ' ' ∉ part) (noSign : '=' ∉ Text.unwords parts) :
    (Command.of (Text.unwords parts)).spread = parts := by
  have whole := Text.words_unwords nonempty fun part member => (words part member).2
  have kept : (Text.unwords parts).filter (· != '=') = Text.unwords parts :=
    List.filter_eq_self.mpr fun c member => bne_iff_ne.mpr fun same => noSign (same ▸ member)
  -- two spaces in a row would have an empty word between them
  have apart : ¬ "  ".toList <:+: Text.unwords parts := by
    intro found
    have empty := Text.mem_words_of_infix List.not_mem_nil found
    rw [whole] at empty
    exact (words [] empty).1 rfl
  change (Text.replace "  ".toList [' '] ((Text.unwords parts).filter (· != '='))).words = parts
  rw [kept, Text.replace_of_not_infix _ apart, whole]

/-- A name means a variable that was made for a number; what its own name means was not made for a
list either. -/
def Store.IsNumeric (st : Store) (scope : Ref .scope) (name : Text) : Prop :=
  ∃ owner r, st.resolve scope name = some (owner, r) ∧ (st.var r).tag ∈ [.int, .float] ∧
    ∀ q, st.namesake r = some q → (st.var q).tag ≠ .list

section Commands

variable (rounds n : Nat) {node : Ref .node} {scope : Ref .scope} {file : Text} {w : World}
  {l : Ref .list} {s : SharedList}

private theorem Site.exec_measuring {t : Site} {into name : Text}
    (command : t.command = .of (measuring into name)) (new : Identifier into)
    (known : Identifier name) {r : Ref .variable} (found : w.store.ListAt t.scope l name r) :
    t.act.exec w = (t.store into (.int (w.store.list l).size) >>= fun _ =>
      pure Outcome.done).exec w := by
  have spread : t.command.spread = ["len".toList, into, name] := by
    rw [command]
    refine Command.spread_unwords (List.cons_ne_nil _ _) ?_ ?_
    · simp [new.nonempty, known.nonempty, new.newName.oneWord, known.newName.oneWord]
    · simp [Text.unwords, new.newName.noSign, known.newName.noSign]
  have verb : t.command.verb? = some .length := by
    rw [command, measuring, Text.unwords_cons _ (List.cons_ne_nil _ _),
      Command.verb?_word (by simp)]
    decide
  obtain ⟨owner, resolved⟩ := found.found
  rw [Site.act, verb]
  change t.length.exec w = _
  rw [Site.length, spread, Run.exec_bind_ok w (Run.exec_nth rfl w),
    Run.exec_bind_ok w (Run.exec_nth rfl w),
    Run.exec_bind_ok w (t.exec_variableOf known.newName.single resolved),
    Run.exec_bind_ok w (exec_readVariable_list found.tag found.content),
    Run.exec_bind_ok w (Run.exec_getStore w)]
  rfl

private theorem sets_indexing {name index text : Text} (identifier : Identifier name)
    (plain : ∀ c ∈ index, c ∉ [' ', '=', '[']) (front : text.head? ≠ some ' ')
    (back : text.getLast? ≠ some ' ') :
    Sets (setting (indexing name index) text) (indexing name index) text := by
  have absent : ∀ c ∈ [' ', '='], c ∉ indexing name index := by
    intro c special
    have outer : c ∉ name := by
      rcases List.mem_cons.mp special with rfl | last
      · exact identifier.newName.oneWord
      · obtain rfl := List.mem_singleton.mp last
        exact identifier.newName.noSign
    have inner : c ∉ index := fun member => plain c member (List.mem_append_left ['['] special)
    have bracket : c ≠ '[' ∧ c ≠ ']' := by
      rcases List.mem_cons.mp special with rfl | last
      · decide
      · obtain rfl := List.mem_singleton.mp last
        decide
    simp [indexing, outer, inner, bracket]
  have oneWord := absent ' ' (by simp)
  have noSign := absent '=' (by simp)
  refine ⟨verb_setting oneWord, ⟨indexing name index, ?_, ?_, Text.before_of_not_mem noSign⟩,
    trimSpaces_after_setting noSign front back⟩
  · rw [words_setting oneWord]
    rfl
  · intro same
    have last := @getLast?_indexing name index
    rw [same] at last
    revert last
    decide

namespace Store.Represents

variable (rep : w.store.Represents scope l s)
include rep

/-- A new name comes to mean the same list. -/
theorem exec_sharing {new old : Text} (known : old ∈ s.names) (identifier : Identifier new)
    (unknown : w.store.resolve scope new = none) :
    ∃ later, (Site.mk (.ofRoom rounds (n + 2)) node scope file (.of (setting new old))).act.exec w =
      (.ok .done, later) ∧
      later.store.Represents scope l { s with names := new :: s.names } := by
  obtain ⟨named, r, found⟩ := rep.names old known
  obtain ⟨owner, resolved⟩ := found.found
  let site : Site := ⟨.ofRoom rounds (n + 2), node, scope, file, .of (setting new old)⟩
  have value : (site.valueOf old).exec w = (.ok (.list l), w) := by
    change ((Evaluator.ofRoom rounds (n + 2)).valueOf scope old).exec w = _
    rw [exec_valueOf_identifier rounds n named resolved, found.reading]
  let target := w.store.targetOf scope (!file.isEmpty)
  have chain : target ∈ w.store.ancestors scope :=
    w.store.targetOf_mem_ancestors scope (!file.isEmpty)
  obtain ⟨middle, evaluated, wraps, _⟩ :=
    evaluate_scalars rounds n (some target) fun _ => rep.scalars
  have held := rep.closed.ancestors rep.inside chain
  have wrapped :=
    rep.wraps wraps.store (wraps.closed rep.closed fun h same => Option.some.inj same ▸ held)
  have listed : middle.store.Has l.cell :=
    (found.has_list rep.closed rep.inside).mono wraps.store.grows
  have inside : target ∈ middle.store.ancestors scope := by
    rw [Store.ancestors_congr wraps.store.scopes]
    exact chain
  have assigned :=
    (exec_assign_new w (.ofRoom rounds (n + 2)) (!file.isEmpty) identifier.newName.single
      identifier.nonempty
    identifier.newName.noElement unknown).trans
      (declaring_list rounds (n + 1) rep.wrappable evaluated)
  have performed :=
    (site.exec_setting rfl identifier.newName (named.head_ne (by simp))
      (named.last_ne (by simp)) w).trans
    ((Run.exec_bind_ok w value).trans (Run.exec_bind_ok w assigned))
  exact ⟨_, performed, wrapped.declare listed identifier inside
    ((wraps.store.resolve scope new).trans unknown)⟩

/-- The value of the first word is put at the end of the list, whatever it is. -/
theorem exec_appending {name text : Text} (known : name ∈ s.names) {v : Value} {ev : Evaluator}
    (value : (ev.valueOf scope (text.before ' ')).exec w = (.ok v, w)) :
    (Site.mk ev node scope file (.of (appending name text))).act.exec w =
      (.ok .done, { w with store := w.store.push l v }) := by
  obtain ⟨named, r, found⟩ := rep.names name known
  obtain ⟨owner, resolved⟩ := found.found
  let site : Site := ⟨ev, node, scope, file, .of (appending name text)⟩
  have value : (site.valueOf (text.before ' ')).exec w = (.ok v, w) := value
  exact site.exec_appending rfl named.newName.oneWord named.newName.single value resolved
    found.content

/-- An element is written to. -/
theorem exec_putting {name index text : Text} (known : name ∈ s.names) {v : Value}
    (operand : v.IsOperand)
    (value : ((Evaluator.ofRoom rounds (n + 2)).valueOf scope text).exec w = (.ok v, w))
    (front : text.head? ≠ some ' ') (back : text.getLast? ≠ some ' ')
    (plain : ∀ c ∈ index, c ∉ [' ', '=', '['])
    (hidden : w.store.isVisible scope (indexing name index) = false) {u : Value} {i : Int}
    (given : ((Evaluator.ofRoom rounds (n + 2)).valueOf scope index).exec w = (.ok u, w))
    (whole : u.toInt = .ok i) (above : -s.elements.length ≤ i) (below : i < s.elements.length) :
    ∃ later, (Site.mk (.ofRoom rounds (n + 2)) node scope file
      (.of (setting (indexing name index) text))).act.exec w = (.ok .done, later) ∧
      later.store.Represents scope l { s with elements := s.elements.set (s.place i) v } := by
  obtain ⟨named, r, found⟩ := rep.names name known
  obtain ⟨owner, resolved⟩ := found.found
  let site : Site :=
    ⟨.ofRoom rounds (n + 2), node, scope, file, .of (setting (indexing name index) text)⟩
  have value : (site.valueOf text).exec w = (.ok v, w) := value
  have bracket : '[' ∉ name := named.not_mem (by simp)
  have flat : '[' ∉ index := fun member => plain '[' member (by simp)
  have target := lookup_single (.ofRoom rounds (n + 2)) w named.newName.single resolved
  have assigned :
    (assign (.ofRoom rounds (n + 2)) scope (!file.isEmpty) (indexing name index) (.bare v)).exec w =
      (setElement (.ofRoom rounds (n + 2)) r u (.bare v)).exec w := by
    rw [assign, Run.exec_bind_ok w (Run.exec_readItem_bare w v),
      Run.exec_bind_ok w (Run.exec_getStore w), hidden, if_neg Bool.false_ne_true,
      getLast?_indexing]
    simp only
    rw [before_indexing bracket, Run.exec_bind_ok w target,
      Run.exec_bind_ok w (exec_bracketed_indexing bracket flat w), Run.exec_bind_ok w given]
    rfl
  obtain ⟨later, written, after⟩ := rep.exec_setElement rounds n found operand whole above below
  have performed := (site.exec_sets rfl (sets_indexing named plain front back) w).trans
    ((Run.exec_bind_ok w value).trans (Run.exec_bind_ok w (assigned.trans written)))
  exact ⟨later, performed, after⟩

/-- The length is stored in a new variable or in one for a number. -/
theorem exec_counting {into name : Text} (known : name ∈ s.names) (new : Identifier into)
    (free : w.store.resolve scope into = none ∨ w.store.IsNumeric scope into) :
    ∃ later, (Site.mk (.ofRoom rounds (n + 2)) node scope file (.of (measuring into name))).act.exec
      w = (.ok .done, later) ∧
      later.store.Represents scope l s ∧
      ((Evaluator.ofRoom rounds (n + 2)).valueOf scope into).exec later =
        (.ok (.int s.elements.length), later) := by
  obtain ⟨named, r, found⟩ := rep.names name known
  let site : Site := ⟨.ofRoom rounds (n + 2), node, scope, file, .of (measuring into name)⟩
  have length : Value.int (w.store.list l).size = .int s.elements.length := by rw [rep.size]
  have performed := site.exec_measuring rfl new named found
  rw [length] at performed
  rcases free with unknown | ⟨owner, q, resolved, number, apart⟩
  · have chain := w.store.targetOf_mem_ancestors scope true
    have assigned :=
      assign_new rounds (n + 1) w true new.newName.single new.nonempty new.newName.noElement
      (.int s.elements.length) unknown
    have known := rep.closed.ofValue
      (fun h same => Option.some.inj same ▸ rep.closed.ancestors rep.inside chain) into
      (v := .int s.elements.length) (Store.hasAll_nil _)
    let x := Variable.ofValue w.store into (some (w.store.targetOf scope true))
      (.int s.elements.length)
    let later : World := { w with store := w.store.bindName (w.store.targetOf scope true) into x }
    obtain ⟨owner, resolved⟩ : ∃ owner, later.store.resolve scope into =
        some (owner, ⟨w.store.vars.size⟩) :=
      Store.resolve_bindName_new rep.closed x rep.inside chain unknown
    have reading : (later.store.var ⟨w.store.vars.size⟩).reading =
        .ok (.int s.elements.length) := by
      rw [Store.var_bindName_fresh]
      rfl
    refine ⟨later, performed.trans (Run.exec_bind_ok w assigned), rep.bindName _ known unknown, ?_⟩
    rw [exec_valueOf_identifier rounds n new resolved, reading]
  · have held := (rep.closed.resolve rep.inside resolved).2
    have assigned := assign_known rounds (n + 1) w true new.newName.single
      (.int s.elements.length) resolved held
    have tag : (w.store.var q).tag ≠ .list ∧ (w.store.var q).tag ≠ .text := by
      rcases List.mem_cons.mp number with int | float
      · simp [int]
      · simp [List.mem_singleton.mp float]
    let later : World := { w with store := w.store.overwrite q (.int s.elements.length) }
    have still : later.store.resolve scope into = some (owner, q) := by
      rw [Store.resolve_overwrite, resolved]
    have reading : (later.store.var q).reading = .ok (.int s.elements.length) := by
      rw [Store.var_overwrite _ held, Variable.reading, if_neg tag.2]
      simp [Value.asRead]
    refine ⟨later, performed.trans (Run.exec_bind_ok w assigned),
      rep.overwrite (.int _) (Store.isBound_of_resolve resolved) tag.1 apart, ?_⟩
    rw [exec_valueOf_identifier rounds n new still, reading]

end Store.Represents

end Commands

/-! ### Bare texts without quotes -/

/-- A text that is neither in quotes nor a numeral nor a comparison, and that is no name from a
scope either. -/
structure Store.Unreadable (st : Store) (scope : Ref .scope) (t : Text) : Prop where
  noQuotes : Spelled.isQuoted t = false
  noInt : Number.readInt? t = none
  noFloat : Number.readFloat? t = none
  noCondition : isCondition t = false
  hidden : st.isVisible scope (Spelled.trimSpaces t) = false

section Unreadable

variable (rounds n : Nat) {w : World} {t : Text}

private theorem bind_unreadable {target : Ref .scope} (unreadable : w.store.Unreadable target t)
    (name : Text) :
    ∃ later, ((Evaluator.ofRoom rounds (n + 2)).bind (some target) name false (.text t)).exec w =
      (.error .badValue, later) ∧
      later.store = w.store := by
  have slack : (Evaluator.ofRoom rounds (n + 1)).slack = 2 * n + 1 + 1 :=
    Evaluator.slack_ofRoom rounds (n + 1)
  have named : bindText (Evaluator.ofRoom rounds (n + 1)) (some target) name false t =
      bindName (Evaluator.ofRoom rounds (n + 1)) (some target) false
        (some (Spelled.trimSpaces t)) := by
    unfold bindText
    simp only [unreadable.noQuotes, unreadable.noInt, unreadable.noFloat, unreadable.noCondition,
      Bool.false_eq_true, if_false]
  change ∃ later, (bindText (Evaluator.ofRoom rounds (n + 1)) (some target) name false t).exec w =
    (.error .badValue, later) ∧ _
  rw [named]
  unfold bindName
  simp only
  rw [Run.exec_bind_ok w (Run.exec_getStore w), unreadable.hidden, if_neg Bool.false_ne_true,
    bindName.unknown, if_neg Bool.false_ne_true, slack]
  exact ⟨_, rfl, rfl⟩

/-- A list with such an element is not evaluated: the elements before it become variables, and it
stays. -/
theorem evaluate_unreadable {target : Ref .scope} {l : Ref .list}
    (unreadable : w.store.Unreadable target t) {k : Nat}
    (there : (w.store.list l)[k]? = some (.bare (.text t)))
    (scalars : ∀ i, i < k → ∀ v, (w.store.list l)[i]? = some (.bare v) → v.IsScalar)
    (unquoted : quotedListText? w.store (Evaluator.ofRoom rounds (n + 2)).slack
      (w.store.list l).toList = none) :
    ∃ later, (evaluate (.ofRoom rounds (n + 3)) (some target) (.bare (.list l))).exec w =
      (.error .badValue, later) ∧
      w.store.Wraps later.store ∧ (later.store.list l)[k]? = some (.bare (.text t)) := by
  have fails : ∀ middle : World, w.Wraps (some target) middle → ∃ later,
      ((Evaluator.ofRoom rounds (n + 2)).bind (some target) nameless false (.text t)).exec middle =
        (.error .badValue, later) ∧
        later.store = middle.store := by
    intro middle wraps
    apply bind_unreadable rounds n
    refine { unreadable with hidden := ?_ }
    rw [Store.isVisible, wraps.store.resolve]
    exact unreadable.hidden
  obtain ⟨later, stops, wraps, still⟩ := settle_stops rounds (n + 1) scalars there fails
  refine ⟨later, ?_, wraps, still⟩
  rw [(evaluate_list rfl (some target) l w).2 unquoted, stops]
  rfl

/-- A list with such a text at its end is not shown as a text. -/
theorem quotedListText_unquoted (noQuotes : Spelled.isQuoted t = false) (st : Store) (fuel : Nat)
    (items : List Item) : quotedListText? st fuel (items ++ [.bare (.text t)]) = none := by
  refine quotedListText_eq_none (fun c quote item last => ?_) st fuel
  rw [List.getLast?_concat] at last
  cases last
  exact spells_unquoted noQuotes quote

variable {scope : Ref .scope} {l : Ref .list} {s : SharedList} {node : Ref .node} {file : Text}

/-- After such a text was appended to a list, the list cannot be given another name. -/
theorem Store.Represents.sharing_unreadable (rep : w.store.Represents scope l s) {new old : Text}
    (known : old ∈ s.names) (identifier : Identifier new)
    (unknown : w.store.resolve scope new = none)
    (unreadable : w.store.Unreadable (w.store.targetOf scope (!file.isEmpty)) t) :
    ((Site.mk (.ofRoom rounds (n + 3)) node scope file (.of (setting new old))).act.exec
      { w with store := w.store.push l (.text t) }).1 = .error .badValue := by
  obtain ⟨named, r, found⟩ := rep.names old known
  obtain ⟨owner, resolved⟩ := found.found
  let longer : World := { w with store := w.store.push l (.text t) }
  let target := w.store.targetOf scope (!file.isEmpty)
  let site : Site := ⟨.ofRoom rounds (n + 3), node, scope, file, .of (setting new old)⟩
  have list : longer.store.list l = (w.store.list l).push (.bare (.text t)) :=
    Store.list_push_here l _ (found.has_list rep.closed rep.inside)
  have scopes : longer.store.scopes = w.store.scopes := rfl
  have place : longer.store.targetOf scope (!file.isEmpty) = target := by
    simp only [target, Store.targetOf, Store.globalOf, Store.ancestors_congr scopes,
      Store.scope, scopes]
  have resolves : ∀ s name, longer.store.resolve s name = w.store.resolve s name :=
    Store.resolve_push l (.text t)
  have value : (site.valueOf old).exec longer = (.ok (.list l), longer) := by
    change ((Evaluator.ofRoom rounds (n + 3)).valueOf scope old).exec longer = _
    rw [exec_valueOf_identifier rounds (n + 1) named ((resolves scope old).trans resolved)]
    exact congrArg (·, longer) found.reading
  have scalars : ∀ i, i < (w.store.list l).size → ∀ v, (longer.store.list l)[i]? = some (.bare v) →
      v.IsScalar := by
    intro i inside v bare
    rw [list, Array.getElem?_push, if_neg (Nat.ne_of_lt inside)] at bare
    exact rep.scalars (Array.mem_toList_iff.mpr (Array.mem_of_getElem? bare))
  have last : (longer.store.list l)[(w.store.list l).size]? = some (.bare (.text t)) := by
    rw [list, Array.getElem?_push_size]
  have unquoted : quotedListText? longer.store (Evaluator.ofRoom rounds (n + 2)).slack
      (longer.store.list l).toList = none := by
    rw [list, Array.toList_push]
    exact quotedListText_unquoted unreadable.noQuotes _ _ _
  have unreadable : longer.store.Unreadable target t := by
    refine { unreadable with hidden := ?_ }
    rw [Store.isVisible, resolves]
    exact unreadable.hidden
  obtain ⟨_, evaluated, _⟩ := evaluate_unreadable rounds n unreadable last scalars unquoted
  have assigned := exec_assign_new (v := .list l) longer (.ofRoom rounds (n + 3))
    (!file.isEmpty) identifier.newName.single
    identifier.nonempty identifier.newName.noElement ((resolves scope new).trans unknown)
  change (site.act.exec longer).1 = _
  rw [site.exec_setting rfl identifier.newName (named.head_ne (by simp)) (named.last_ne (by simp)),
    Run.exec_bind_ok longer value]
  refine Run.fst_exec_bind_error ?_
  change ((assign (.ofRoom rounds (n + 3)) scope (!file.isEmpty) new (.bare (.list l))).exec
    longer).1 = _
  rw [assigned, place]
  exact Run.fst_exec_bind_error (congrArg Prod.fst evaluated)

end Unreadable

end CommandScript

import CommandScript.Proofs.Failure
import CommandScript.Proofs.ListSequences
import CommandScript.Proofs.Registration

/-! Declarations that are local to a block. A variable is declared locally without a sign, or with
the sign at its name; what is behind a sign that stands alone is taken for a condition, and the
declaration fails. A list is declared locally element by element, so that the word for the empty
list is an element there. Either way one name of the block's own scope is bound and nothing else
changes, and the scopes around the block do not know the name. -/
namespace CommandScript

namespace Store

variable {st middle later : Store} {s target : Ref .scope} {name : Text}

/-! ### Scopes around a scope -/

/-- No scope is inside of itself: going outward from the scope around it never comes back. -/
theorem not_mem_ancestors_parent (rooted : st.Rooted) {parent : Ref .scope}
    (above : (st.scope s).parent = some parent) (held : st.Has parent.cell) :
    s ∉ st.ancestors parent := by
  intro member
  obtain ⟨before, rest, chain, first⟩ := List.eq_append_cons_of_mem member
  have comes : st.FirstOutward (· = s) parent s :=
    firstOutward_of_chain chain (fun b inside same => first (same ▸ inside)) rfl
  -- every scope on the way has one around it, from which the way comes back to `s` again
  have turns : ∀ (n : Nat) (t : Ref .scope), st.FirstOutward (· = s) t s → ∀ last,
      (st.outward n t).getLast? = some last → (st.scope last).parent ≠ none := by
    intro n
    induction n with
    | zero =>
      intro t way last known
      obtain rfl : t = last := Option.some.inj known
      cases way with
      | here => simp [above]
      | outer _ next => simp [next]
    | succ n ih =>
      intro t way last known
      have next : ∃ outer, (st.scope t).parent = some outer ∧ st.FirstOutward (· = s) outer s := by
        cases way with
        | here => exact ⟨parent, above, comes⟩
        | outer _ around way => exact ⟨_, around, way⟩
      obtain ⟨outer, around, way⟩ := next
      have more : (st.outward n outer).getLast? = some last := by
        have filled : st.outward n outer ≠ [] := by
          intro empty
          simpa [empty] using st.head?_outward n outer
        rw [outward, around] at known
        rwa [List.getLast?_cons_of_ne_nil filled] at known
      exact ih outer way last more
  have ends := rooted parent held
  obtain ⟨last, known⟩ : ∃ last, (st.ancestors parent).getLast? = some last := by
    rw [← Option.isSome_iff_exists, List.getLast?_isSome]
    exact List.ne_nil_of_mem member
  rw [root, known] at ends
  exact turns _ parent comes last known ends

/-- A name that is unknown in a scope is unknown around it. -/
theorem resolve_parent_eq_none (rooted : st.Rooted) (held : st.Has s.cell) {parent : Ref .scope}
    (above : (st.scope s).parent = some parent) (unknown : st.resolve s name = none) :
    st.resolve parent name = none := by
  cases found : st.resolve parent name with
  | none => rfl
  | some meaning =>
    have undeclared : ¬ st.Declares name s := by
      simp [Declares, resolve_eq_none.mp unknown s (self_mem_ancestors s)]
    have way := FirstOutward.outer undeclared above (resolve_first found).1
    exact absurd way (not_first_of_unknown (rooted s held) unknown meaning.1)

/-! ### One more name -/

/-- A name is bound to a new variable in a scope, and all that was there is as before. -/
structure Gains (st later : Store) (target : Ref .scope) (name : Text) : Prop where
  scopes : later.scopes = st.scopes
  bound : ∃ r : Ref .variable, (later.tableOf target).find? name = some r ∧ ¬ st.Has r.cell
  names : ∀ s : Ref .scope, st.Has s.cell → ∀ label, ¬ (s = target ∧ label = name) →
    (later.tableOf s).find? label = (st.tableOf s).find? label
  vars : st.vars.Extends later.vars
  lists : st.lists.Extends later.lists
  records : later.records = st.records
  nodes : later.nodes = st.nodes

/-- From a scope that is not inside of the one with the new name, every name means what it meant
before. -/
theorem Gains.resolve (gains : st.Gains later target name) (closed : st.Closed)
    (held : st.Has s.cell) (outside : target ∉ st.ancestors s) (label : Text) :
    later.resolve s label = st.resolve s label := by
  apply resolve_of_tables (ancestors_congr gains.scopes s)
  intro a member
  apply gains.names a (closed.ancestors held member) label
  intro same
  exact outside (same.1 ▸ member)

/-- Before a name is bound, variables and lists may be added. -/
theorem Gains.of_extended (gains : middle.Gains later target name)
    (scopes : middle.scopes = st.scopes) (tables : middle.tables = st.tables)
    (vars : st.vars.Extends middle.vars) (lists : st.lists.Extends middle.lists)
    (records : middle.records = st.records) (nodes : middle.nodes = st.nodes) :
    st.Gains later target name where
  scopes := gains.scopes.trans scopes
  bound := by
    obtain ⟨r, found, new⟩ := gains.bound
    exact ⟨r, found, fun old => new (vars r old).1⟩
  names s held label other := by
    have inside : middle.Has s.cell := Nat.lt_of_lt_of_eq held (congrArg Arena.size scopes.symm)
    rw [gains.names s inside label other, tableOf, tableOf, table, table, scope, scope,
      scopes, tables]
  vars := vars.trans gains.vars
  lists := lists.trans gains.lists
  records := gains.records.trans records
  nodes := gains.nodes.trans nodes

namespace Registered

variable (registered : st.Registered)
include registered

theorem extended (closed : later.Closed) (scopes : later.scopes = st.scopes)
    (tables : later.tables = st.tables) (vars : st.vars.Extends later.vars) : later.Registered := by
  have inside : ∀ s : Ref .scope, later.Has s.cell → st.Has s.cell := by
    intro s held
    exact Nat.lt_of_lt_of_eq held (congrArg Arena.size scopes)
  have same : ∀ s : Ref .scope, later.scope s = st.scope s := by
    intro s
    rw [scope, scope, scopes]
  constructor
  · exact closed
  · exact registered.rooted.of_parents (by rw [scopes]) fun s => by rw [same]
  · intro s t first second shared
    rw [same, same] at shared
    exact registered.tables s t (inside s first) (inside t second) shared
  · intro s held entry member
    rw [tableOf, same, table, tables] at member
    have known := registered.closed.bound (registered.closed.table (inside s held)) member
    have unchanged : later.var entry.2 = st.var entry.2 := (vars entry.2 known).2
    rw [unchanged]
    exact registered.entries s (inside s held) entry member

private theorem gains_bindName (held : st.Has target.cell) (x : Variable) :
    st.Gains (st.bindName target name x) target name where
  scopes := rfl
  bound :=
    ⟨⟨st.vars.size⟩, by rw [registered.find?_bindName held name x held,
      if_pos ⟨rfl, rfl⟩], Nat.lt_irrefl _⟩
  names s inside label other := by rw [registered.find?_bindName held name x inside, if_neg other]
  vars := (st.extends_newVariable x).vars
  lists := .refl _
  records := rfl
  nodes := rfl

end Registered

end Store

/-! ### Lists -/

/-- The names that are declared for a list of numbers and texts. -/
theorem gains_of_creating (rounds n : Nat) {scope : Ref .scope} (isGlobal : Bool) {w : World}
    {name : Text} {texts : List Text} (registered : w.store.Registered)
    (held : w.store.Has scope.cell) (identifier : Identifier name)
    (unknown : w.store.resolve scope name = none) {vs : List Value}
    (values : (texts.mapM ((Evaluator.ofRoom rounds (n + 2)).valueOf scope)).exec w = (.ok vs, w))
    (scalars : ∀ v ∈ vs, v.IsScalar) :
    ∃ later l, (creating (.ofRoom rounds (n + 2)) scope isGlobal name texts).exec w =
      (.ok .done, { w with store := later }) ∧
      w.store.Gains later (w.store.targetOf scope isGlobal) name ∧
      later.Represents scope l ⟨[name], vs.map Value.asRead⟩ := by
  let st := w.store
  let listed : World := { w with store := st.withList vs }
  have known : ∀ v ∈ vs, st.HasAll v.cells :=
    fun v given => (scalars v given).cells ▸ Store.hasAll_nil st
  have inside : st.Has (st.targetOf scope isGlobal).cell :=
    registered.closed.ancestors held (st.targetOf_mem_ancestors scope isGlobal)
  obtain ⟨after, wraps, others, performed⟩ :=
    exec_creating_scalars rounds n isGlobal identifier values unknown scalars
  have rest := wraps.rest
  obtain ⟨l, represents⟩ :=
    represents_of_creating rounds n isGlobal identifier values unknown registered.closed held known
    (fun v given => .settled ((scalars v given).settled st)) performed
  refine ⟨_, l, by rw [performed, rest], ?_, represents⟩
  have grows : st.Grows (st.withList vs) := (st.extends_newList (vs.map Item.bare).toArray).grows
  have kept : st.lists.Extends after.store.lists := by
    intro k old
    have first := (st.extends_newList (vs.map Item.bare).toArray).lists k old
    have apart : k ≠ ⟨st.lists.size⟩ := by
      rintro rfl
      exact Nat.lt_irrefl _ old
    exact ⟨Nat.lt_of_lt_of_eq first.1 wraps.store.size.symm, (others k apart).trans first.2⟩
  have closed : after.store.Closed := by
    refine wraps.closed (registered.closed.withList known) fun h same => ?_
    cases same
    exact inside.mono grows
  have still : after.store.Registered :=
    registered.extended closed wraps.store.scopes wraps.store.tables wraps.store.vars
  apply Store.Gains.of_extended
    (still.gains_bindName ((inside.mono grows).mono wraps.store.grows) _)
  · exact wraps.store.scopes
  · exact wraps.store.tables
  · exact wraps.store.vars
  · exact kept
  · exact wraps.store.records
  · exact wraps.store.nodes

/-- The expressions in a row: its words without equals signs, where double spaces are taken for
single ones, once. -/
def pieces (row : Text) : List Text :=
  (Text.replace "  ".toList [' '] (row.filter (· != '='))).words

def listing (words : List Text) (row : Text) : Text :=
  Text.unwords words ++ ' ' :: '=' :: ' ' :: row

namespace Text

private theorem replace_unwords {words : List Text} (nonempty : words ≠ [])
    (each : ∀ word ∈ words, word ≠ [] ∧ ' ' ∉ word) (rest : Text) :
    replace "  ".toList [' '] (unwords words ++ ' ' :: ' ' :: rest) =
      unwords words ++ ' ' :: replace "  ".toList [' '] rest := by
  have double : replace "  ".toList [' '] (' ' :: ' ' :: rest) =
      ' ' :: replace "  ".toList [' '] rest :=
    replace_part_append [' '] (by simp) rest
  induction words with
  | nil => exact absurd rfl nonempty
  | cons first more ih =>
    have oneWord := (each first List.mem_cons_self).2
    cases more with
    | nil =>
      rw [unwords, List.intercalate_singleton, replace_append_of_head [' '] rfl oneWord, double]
    | cons second others =>
      have following := ih (List.cons_ne_nil _ _) fun word member =>
        each word (List.mem_cons_of_mem first member)
      -- the word behind the space does not begin with another one
      have single : ¬ "  ".toList <+: ' ' ::
          (unwords (second :: others) ++ ' ' :: ' ' :: rest) := by
        obtain ⟨filled, solid⟩ := each second (by simp)
        obtain ⟨c, tail, rfl⟩ := List.exists_cons_of_ne_nil filled
        have other : ' ' ≠ c := by
          rintro rfl
          exact solid List.mem_cons_self
        cases others with
        | nil => simp [unwords, other]
        | cons third others => simp [unwords_cons, other]
      rw [unwords_cons _ (List.cons_ne_nil _ _), List.append_assoc, List.cons_append,
        replace_append_of_head [' '] rfl oneWord, replace_cons [' '] ' ' _ single, following]
      simp

end Text

private theorem Command.spread_listing {words : List Text} (nonempty : words ≠ [])
    (each : ∀ word ∈ words, word ≠ [] ∧ ' ' ∉ word ∧ '=' ∉ word) (row : Text) :
    (Command.of (listing words row)).spread = words ++ pieces row := by
  have kept : (Text.unwords words).filter (· != '=') = Text.unwords words := by
    apply List.filter_eq_self.mpr
    intro c member
    simp only [bne_iff_ne]
    rintro rfl
    rcases Text.mem_intercalate member with sign | ⟨word, listed, inside⟩
    · cases sign
    · exact (each word listed).2.2 inside
  change (Text.replace "  ".toList [' '] ((listing words row).filter (· != '='))).words = _
  have spaced : (listing words row).filter (· != '=') = Text.unwords words ++ ' ' :: ' ' ::
      row.filter (· != '=') := by
    simp [listing, kept]
  rw [spaced, Text.replace_unwords nonempty
    (fun word member => ⟨(each word member).1, (each word member).2.1⟩),
    Text.words_unwords_append nonempty fun word member => (each word member).2.1, pieces]

private theorem pieces_ne_nil (row : Text) : pieces row ≠ [] := List.splitOn_ne_nil _ _

def localSetting (name mark text : Text) : Text :=
  Text.unwords ["var".toList, "local".toList, name ++ mark] ++ ' ' :: text

private theorem localSetting_signed (name text : Text) :
    localSetting name [' ', '='] text = localSetting name [] ('=' :: ' ' :: text) := by
  simp [localSetting, Text.unwords]

section Lines

variable {name : Text} (identifier : Identifier name)
include identifier

private theorem Identifier.ne_none : name ≠ "none".toList := by
  intro same
  exact identifier.noWord (by simp [same, Literal.fixed])

private theorem arrays_listing (row : Text) :
    Arrays (listing ["array".toList, name] row) name (pieces row) where
  verb := by
    rw [listing, Text.unwords_cons _ (List.cons_ne_nil _ _), List.append_assoc, List.cons_append,
      Command.verb?_word (by simp)]
    decide
  spread := by
    rw [Command.spread_listing (List.cons_ne_nil _ _)]
    · rfl
    · simp [identifier.nonempty, identifier.newName.oneWord, identifier.newName.noSign]
  listed := pieces_ne_nil row

/-- Declaring a list locally is evaluating all that is behind the sign and assigning the list. -/
theorem Site.exec_localListing {t : Site} {row : Text}
    (command : t.command = .of (listing ["array".toList, "local".toList, name] row)) (w : World) :
    t.act.exec w = (creating t.ev t.scope false name (pieces row)).exec w := by
  have verb : t.command.verb? = some .array := by
    rw [command, listing, Text.unwords_cons _ (List.cons_ne_nil _ _), List.append_assoc,
      List.cons_append, Command.verb?_word (by simp)]
    decide
  have spread : t.command.spread = "array".toList :: "local".toList :: name :: pieces row := by
    rw [command, Command.spread_listing (List.cons_ne_nil _ _)]
    · rfl
    · simp [identifier.nonempty, identifier.newName.oneWord, identifier.newName.noSign]
  rw [Site.act, verb]
  change t.array.exec w = _
  rw [Site.array, spread, Run.exec_bind_ok w (Run.exec_nth rfl w),
    Run.exec_bind_ok w (Run.exec_nth rfl w)]
  simp only [identifier.ne_none, if_false, if_true, List.drop_succ_cons, List.drop_zero, newList,
    bind_assoc, pure_bind]
  rfl

/-- Declaring a variable locally is evaluating what is behind its name and assigning the value. -/
theorem Site.exec_localSetting {t : Site} {mark text : Text} (marked : mark = [] ∨ mark = ['='])
    (command : t.command = .of (localSetting name mark text)) (w : World) :
    t.act.exec w = (t.valueOf text >>= fun v => t.storeLocal name v >>= fun _ =>
      pure Outcome.done).exec w := by
  have verb : t.command.verb? = some .var := by
    rw [command, localSetting, Text.unwords_cons _ (List.cons_ne_nil _ _), List.append_assoc,
      List.cons_append, Command.verb?_word (by simp)]
    decide
  have solid : ' ' ∉ name ++ mark := by
    rcases marked with rfl | rfl
    · simp [identifier.newName.oneWord]
    · simp [identifier.newName.oneWord]
  have whole : t.command.whole = ["var".toList, "local".toList, name ++ mark] ++ text.words := by
    rw [command]
    exact Text.words_unwords_append (List.cons_ne_nil _ _) (by simp [solid]) text
  have named : (name ++ mark).before '=' = name := by
    rcases marked with rfl | rfl
    · rw [List.append_nil, Text.before_of_not_mem identifier.newName.noSign]
    · exact Text.before_append_self identifier.newName.noSign []
  have value : Text.unwords text.words = text := List.intercalate_splitOn ' '
  rw [Site.act, verb]
  change t.var.exec w = _
  rw [Site.var, Site.word, Site.word, whole, Run.exec_bind_ok w (Run.exec_nth rfl w), if_pos rfl,
    Run.exec_bind_ok w (Run.exec_nth rfl w)]
  simp only [named, List.drop_succ_cons, List.drop_zero, List.cons_append, List.nil_append, value]

end Lines

/-! ### A sign that stands alone -/

section Signed

variable (rounds n : Nat) {scope : Ref .scope} {w : World} {text : Text}

private theorem foreign_sign : Number.Foreign '=' := by
  constructor
  all_goals decide

/-- A sign with something behind it is a condition. -/
theorem exec_valueOf_signed (noCall : text.getLast? ≠ some ')')
    (noElement : text.getLast? ≠ some ']') :
    ((Evaluator.ofRoom rounds (n + 2)).valueOf scope ('=' :: ' ' :: text)).exec w =
      (condition (.ofRoom rounds n) scope ('=' :: ' ' :: text)).exec w := by
  have last : ∀ c, c ≠ ' ' → text.getLast? ≠ some c → ('=' :: ' ' :: text).getLast? ≠ some c := by
    intro c solid other
    rw [List.getLast?_cons_cons]
    cases text with
    | nil => simpa using solid.symm
    | cons d rest => rwa [List.getLast?_cons_cons]
  have unquoted : Spelled.isQuoted ('=' :: ' ' :: text) = false := by
    unfold Spelled.isQuoted
    split
    · next first last head tail =>
      cases head
      simp [Spells.spells]
    · rfl
  have noInt :=
    Number.readInt?_foreign foreign_sign (List.mem_cons_self (a := '=') (l := ' ' :: text))
  have noFloat :=
    Number.readFloat?_foreign foreign_sign (List.mem_cons_self (a := '=') (l := ' ' :: text))
  have expanded : (Literal.expandValue (.text ('=' :: ' ' :: text))).exec w =
      (.ok (.text ('=' :: ' ' :: text)), w) := by
    have noWord : Literal.fixed.lookup ('=' :: ' ' :: text) = none :=
      List.lookup_eq_none_iff.mpr (by simp [Literal.fixed])
    have noInput : '=' :: ' ' :: text ≠ Literal.inputWord := by simp [Literal.inputWord]
    simp only [Literal.expandValue, Literal.expand, if_neg noInput, noWord]
    rfl
  have bound : bindText (.ofRoom rounds n) (some scope) nameless true ('=' :: ' ' :: text) =
      condition (.ofRoom rounds n) scope ('=' :: ' ' :: text) >>= fun v =>
        pure { name := some nameless, home := some scope, content := v, tag := .truth } := by
    have isCondition : isCondition ('=' :: ' ' :: text) = true := by simp [isCondition]
    simp [bindText, unquoted, noInt, noFloat, isCondition]
  change (valueStep (.ofRoom rounds (n + 1)) scope ('=' :: ' ' :: text)).exec w = _
  rw [valueStep, Run.exec_bind_ok w (Run.exec_getStore w),
    if_neg fun both => last ')' (by decide) noCall both.1,
    if_neg fun both => last ']' (by decide) noElement both.1, evaluate_eq,
    Run.exec_bind_ok w (Run.exec_readItem_bare w _), Run.exec_bind_ok w expanded]
  change (bindText (.ofRoom rounds n) (some scope) nameless true ('=' :: ' ' :: text) >>=
    Variable.read).exec w = _
  rw [bound, bind_assoc]
  change (condition (.ofRoom rounds n) scope ('=' :: ' ' :: text) >>= pure).exec w = _
  rw [bind_pure]

/-- A condition without a comparison in it, which is no name either, has no value. -/
theorem exec_condition_nothing {ev : Evaluator} (single : Comparison.find? text = none)
    (hidden : w.store.isVisible scope text = false) :
    (condition ev scope text).exec w = (.ok .nothing, w) := by
  simp only [condition, single]
  rw [Run.exec_bind_ok w (Run.exec_getStore w), hidden]
  rfl

/-- A condition that is no name has a truth value or none. -/
theorem condition_gives {ev : Evaluator} (hidden : w.store.isVisible scope text = false)
    {v : Value} {later : World} (given : (condition ev scope text).exec w = (.ok v, later)) :
    v = .nothing ∨ ∃ b, v = .bool b := by
  cases found : Comparison.find? text with
  | none =>
    rw [exec_condition_nothing found hidden] at given
    cases given
    exact .inl rfl
  | some c =>
    have truth : (condition ev scope text).Gives fun v => ∃ b, v = .bool b := by
      simp only [condition, found]
      exact .next fun _ => .next fun _ => .next fun _ => .next fun _ => .next fun _ =>
        .next fun b => .pure ⟨b, rfl⟩
    exact .inr (truth w v later given)

private theorem declaring_nothing (name : Text) :
    (declaring (.ofRoom rounds (n + 2)) scope name .nothing).exec w =
    (.error .badValue, w.say "RuntimeError: Unknow type None".toList) := by
  rfl

end Signed

/-! ### Literals -/

private theorem Denotes.exec_mapM {texts : List Text} {vs : List Value}
    (denote : List.Forall₂ Denotes texts vs) (rounds n : Nat) (scope : Ref .scope) (w : World) :
    (texts.mapM ((Evaluator.ofRoom rounds (n + 2)).valueOf scope)).exec w = (.ok vs, w) := by
  induction denote with
  | nil => rfl
  | cons first _ ih =>
    rw [List.mapM_cons, Run.exec_bind_ok w (first.exec_valueOf rounds n scope w),
      Run.exec_bind_ok w ih]
    rfl

private theorem Denotes.map_asRead {texts : List Text} {vs : List Value}
    (denote : List.Forall₂ Denotes texts vs) : vs.map Value.asRead = vs := by
  induction denote with
  | nil => rfl
  | cons first _ ih => rw [List.map_cons, first.asRead, ih]

theorem Denotes.scalars {texts : List Text} {vs : List Value}
    (denote : List.Forall₂ Denotes texts vs) : ∀ v ∈ vs, v.IsScalar := by
  induction denote with
  | nil => simp
  | cons first _ ih => exact List.forall_mem_cons.mpr ⟨first.scalar, ih⟩

/-- A literal is neither nothing nor a truth value. -/
theorem Denotes.not_truth {text : Text} {v : Value} (denotes : Denotes text v) :
    ¬ (v = .nothing ∨ ∃ b, v = .bool b) := by
  cases denotes <;> simp

section Declarations

variable (rounds n : Nat) (node : Ref .node) {scope : Ref .scope} (file : Text) {w : World}
  (registered : w.store.Registered)
  (held : w.store.Has scope.cell) {name : Text} (identifier : Identifier name)
  (unknown : w.store.resolve scope name = none)
include registered held identifier unknown

/-- A new name that is assigned the value of a literal. -/
theorem gains_of_assign (isGlobal : Bool) {text : Text} {v : Value} (denotes : Denotes text v) :
    ∃ later, ((Evaluator.ofRoom rounds (n + 2)).valueOf scope text >>= fun v =>
        assign (.ofRoom rounds (n + 2)) scope isGlobal name (.bare v) >>= fun _ =>
          pure Outcome.done).exec w =
          (.ok .done, { w with store := later }) ∧
      w.store.Gains later (w.store.targetOf scope isGlobal) name ∧
      ∃ r, (later.tableOf (w.store.targetOf scope isGlobal)).find? name = some r ∧
        later.var r = Variable.ofValue w.store name (some (w.store.targetOf scope isGlobal)) v ∧
        (later.var r).reading = .ok v := by
  let st := w.store
  let target := st.targetOf scope isGlobal
  have inside : st.Has target.cell :=
    registered.closed.ancestors held (st.targetOf_mem_ancestors scope isGlobal)
  have settled := denotes.scalar.settled st
  have assigned := assign_new rounds (n + 1) w isGlobal identifier.newName.single
    identifier.nonempty identifier.newName.noElement settled unknown
  have made : (st.declared target name v).var ⟨st.vars.size⟩ =
      Variable.ofValue st name (some target) v :=
    Store.var_bindName_fresh target name _
  refine ⟨st.declared target name v, ?_, registered.gains_bindName inside _, ⟨st.vars.size⟩,
    registered.find?_declared inside name v, made, ?_⟩
  · rw [Run.exec_bind_ok w (denotes.exec_valueOf rounds n scope w), Run.exec_bind_ok w assigned]
    rfl
  · rw [made, Variable.reading_ofValue name _ settled, denotes.asRead]

omit registered held in
/-- A sign that stands alone is taken for a part of the value, which is then none. -/
theorem exec_localSetting_signed {text : Text} {v : Value} (denotes : Denotes text v)
    (hidden : w.store.isVisible scope ('=' :: ' ' :: text) = false)
    (single : Comparison.find? ('=' :: ' ' :: text) = none) :
    (Site.mk (.ofRoom rounds (n + 2)) node scope file
      (.of (localSetting name [' ', '='] text))).act.exec w =
      (.error .badValue, w.say "RuntimeError: Unknow type None".toList) := by
  have given : ((Evaluator.ofRoom rounds (n + 2)).valueOf scope ('=' :: ' ' :: text)).exec w =
      (.ok .nothing, w) := by
    rw [exec_valueOf_signed rounds n (denotes.no_bracket (by simp)) (denotes.no_bracket (by simp))]
    exact exec_condition_nothing single hidden
  have assigned :=
    exec_assign_new w (.ofRoom rounds (n + 2)) false identifier.newName.single identifier.nonempty
    identifier.newName.noElement unknown (v := .nothing)
  rw [localSetting_signed, Site.exec_localSetting identifier (.inl rfl) rfl, Site.valueOf,
    Run.exec_bind_ok w given, Site.storeLocal,
    Run.exec_bind_error w (assigned.trans (declaring_nothing rounds n name))]

end Declarations

/-- A new name is declared in a block. For the value of a literal this is done without a sign or
with one at the name, and the variable is the one that a declaration without the word for it makes,
but for its home. A sign that stands alone is taken for a part of the value, so that the value of
the literal is never stored; as long as there is no comparison in it, the declaration fails. A list
is declared of all the literals behind the sign, as it is without the word for a local declaration,
except that the word for the empty list is a literal like any other. Either way the name is bound in
the block's own scope and all else is as before; from outside of the block every name means what it
meant, and the scope around it does not see the new one. -/
theorem local_declaration_binds_in_block (rounds n : Nat) (node : Ref .node) (scope : Ref .scope)
    (file : Text) (w : World) (registered : w.store.Registered) (held : w.store.Has scope.cell)
    (name : Text) (identifier : Identifier name) (unknown : w.store.resolve scope name = none) :
    let st := w.store
    let ev := Evaluator.ofRoom rounds (n + 2)
    let run := fun line => (Site.mk ev node scope file (.of line)).act.exec w
    let declares := fun (target : Ref .scope) (v : Value) (later : Store) =>
      st.Gains later target name ∧
      ∃ r, (later.tableOf target).find? name = some r ∧
      later.var r = Variable.ofValue st name (some target) v ∧ (later.var r).reading = .ok v
    (∀ text v, Denotes text v → text.head? ≠ some ' ' → text.getLast? ≠ some ' ' →
      (∃ later, (∀ mark, mark = [] ∨ mark = ['='] → run (localSetting name mark text) =
        (.ok .done, { w with store := later })) ∧
        declares scope v later) ∧
      (∃ later, run (setting name text) = (.ok .done, { w with store := later }) ∧
        declares (st.targetOf scope (!file.isEmpty)) v later) ∧
      (st.isVisible scope ('=' :: ' ' :: text) = false →
        run (localSetting name [' ', '='] text) =
          (ev.valueOf scope ('=' :: ' ' :: text) >>= fun u =>
          assign ev scope false name (.bare u) >>= fun _ => pure Outcome.done).exec w ∧
        (∀ u later, (ev.valueOf scope ('=' :: ' ' :: text)).exec w = (.ok u, later) → u ≠ v) ∧
        (Comparison.find? ('=' :: ' ' :: text) = none →
          run (localSetting name [' ', '='] text) =
            (.error .badValue, w.say "RuntimeError: Unknow type None".toList)))) ∧
    (∀ row vs, List.Forall₂ Denotes (pieces row) vs →
      (∃ later l, run (listing ["array".toList, "local".toList, name] row) =
        (.ok .done, { w with store := later }) ∧
        st.Gains later scope name ∧ later.Represents scope l ⟨[name], vs⟩) ∧
      ∃ later l, run (listing ["array".toList, name] row) = (.ok .done, { w with store := later }) ∧
        st.Gains later (st.globalOf scope) name ∧
        later.Represents scope l ⟨[name],
          if (pieces row).head? = some "none".toList then [] else vs⟩) ∧
    ∀ later, st.Gains later scope name →
      (∀ s label, st.Has s.cell → scope ∉ st.ancestors s → later.resolve s label =
        st.resolve s label) ∧
      ∀ parent, (st.scope scope).parent = some parent → later.isVisible parent name = false := by
  intro st ev run declares
  refine ⟨fun text v denotes front back => ⟨?_, ?_, fun hidden => ⟨?_, ?_, ?_⟩⟩,
    fun row vs denote => ⟨?_, ?_⟩, fun later gains => ⟨?_, ?_⟩⟩
  · obtain ⟨later, performed, declared⟩ :=
      gains_of_assign rounds n registered held identifier unknown false denotes
    refine ⟨later, fun mark marked => ?_, declared⟩
    rw [← performed]
    exact Site.exec_localSetting identifier marked rfl w
  · obtain ⟨later, performed, declared⟩ :=
      gains_of_assign rounds n registered held identifier unknown (!file.isEmpty) denotes
    refine ⟨later, ?_, declared⟩
    rw [← performed]
    exact Site.exec_setting rfl identifier.newName front back w
  · have command := localSetting_signed name text
    simp only [run, command]
    exact Site.exec_localSetting identifier (.inl rfl) rfl w
  · intro u later given same
    rw [exec_valueOf_signed rounds n (denotes.no_bracket (by simp)) (denotes.no_bracket (by simp))]
      at given
    exact denotes.not_truth (same ▸ condition_gives hidden given)
  · exact exec_localSetting_signed rounds n node file identifier unknown denotes hidden
  · obtain ⟨later, l, performed, gains, represents⟩ :=
      gains_of_creating rounds n false registered held identifier unknown
      (Denotes.exec_mapM denote rounds n scope w) (Denotes.scalars denote)
    rw [Denotes.map_asRead denote] at represents
    refine ⟨later, l, ?_, gains, represents⟩
    rw [← performed]
    exact Site.exec_localListing identifier rfl w
  · have elements : List.Forall₂ Denotes (elementTexts (pieces row))
        (if (pieces row).head? = some "none".toList then [] else vs) := by
      rw [elementTexts]
      split
      · exact .nil
      · exact denote
    obtain ⟨later, l, performed, gains, represents⟩ :=
      gains_of_creating rounds n true registered held identifier unknown
      (Denotes.exec_mapM elements rounds n scope w) (Denotes.scalars elements)
    rw [Denotes.map_asRead elements] at represents
    refine ⟨later, l, ?_, gains, represents⟩
    rw [← performed]
    exact Site.exec_arrays rfl (arrays_listing identifier row) identifier.newName.notLocal w
  · intro s label inside outside
    exact gains.resolve registered.closed inside outside label
  · intro parent above
    have inside := registered.closed.parent held above
    have outside := Store.not_mem_ancestors_parent registered.rooted above inside
    rw [isVisible_single identifier.newName.single, gains.resolve registered.closed inside outside,
      Store.resolve_parent_eq_none registered.rooted held above unknown]
    rfl

def Store.blockOnly : Store where
  scopes := ⟨#[{ parent := none, table := ⟨0⟩ }, { parent := some ⟨0⟩, table := ⟨1⟩ }]⟩
  tables := ⟨#[[], []]⟩

/-- In the block, `x` can be set to a number with the sign at its name but not with a sign that
stands alone, and the list of the word for the empty list has one element. -/
theorem local_declaration_binds_in_block_number :
    let w : World := { store := Store.blockOnly }
    let run := fun line => (Site.mk (.ofRoom 0 2) ⟨0⟩ ⟨1⟩ ['m'] (.of line)).act.exec w
    w.store.Registered ∧
      (∃ later, run "var local x= 5".toList = (.ok .done, { w with store := later }) ∧
        later.isVisible ⟨0⟩ ['x'] = false ∧
        ∃ r, (later.tableOf ⟨1⟩).find? ['x'] = some r ∧ (later.var r).reading = .ok (.int 5)) ∧
      run "var local x = 5".toList =
        (.error .badValue, w.say "RuntimeError: Unknow type None".toList) ∧
      (∃ later l, run "array local x = none".toList = (.ok .done, { w with store := later }) ∧
        later.Represents ⟨1⟩ l ⟨[['x']], [.text "''".toList]⟩) ∧
      ∃ later l, run "array x = none".toList = (.ok .done, { w with store := later }) ∧
      later.Represents ⟨1⟩ l ⟨[['x']], []⟩ := by
  intro w run
  have registered : w.store.Registered := by decide
  have identifier : Identifier ['x'] := ⟨by decide, by simp, by decide, by decide, by decide⟩
  obtain ⟨settings, lists, around⟩ :=
    local_declaration_binds_in_block 0 0 ⟨0⟩ ⟨1⟩ ['m'] w registered (by decide)
      ['x'] identifier (by decide)
  obtain ⟨⟨later, declared, gains, r, bound, _, reads⟩, _, signed⟩ :=
    settings ['5'] (.int 5) (.int (by decide)) (by decide) (by decide)
  have fixed : Literal.fixed.lookup "none".toList = some [] := by decide
  have word : Denotes "none".toList (.text "''".toList) := Denotes.word fixed
  have empty : List.Forall₂ Denotes (pieces "none".toList) [.text "''".toList] := .cons word .nil
  obtain ⟨⟨inner, l, listed, _, represents⟩, outer, k, listed', _, represents'⟩ :=
    lists "none".toList _ empty
  refine ⟨registered, ⟨later, declared ['='] (.inr rfl), (around later gains).2 ⟨0⟩ rfl, r, bound,
    reads⟩, ?_, ⟨inner, l, listed, represents⟩, outer, k, listed', represents'⟩
  exact (signed (by decide)).2.2 (by decide)

end CommandScript

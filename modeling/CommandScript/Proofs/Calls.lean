import CommandScript.Proofs.FileNames
import CommandScript.Proofs.Flattening
import CommandScript.Proofs.Settings

/-! Calls of functions. A call that stands alone and a call in an expression are read in two
different ways: the first takes all spaces out of its arguments and runs the body with the file of
the program, the second takes the arguments as they are spelled and runs the body without a file.
Where arguments mean the same without their spaces, both declare the parameters alike; and unless
the body comes to a statement to which the file matters, both leave the same world, apart from the
name that is set. -/
namespace CommandScript

/-! ### Spaces around expressions -/

private theorem Number.plain_trimSpaces (text : Text) :
    plain (Spelled.trimSpaces text) = plain text := by
  obtain ⟨i, j, padded⟩ := Spelled.exists_padding text
  generalize Spelled.trimSpaces text = core at padded ⊢
  subst padded
  have space : plainChar ' ' = ' ' := by decide
  simp only [plain, List.map_append, List.map_replicate, space]
  exact (Text.strip_padded (by decide) i j _).symm

private theorem Number.readInt?_trimSpaces (text : Text) :
    readInt? (Spelled.trimSpaces text) = readInt? text := by
  rw [readInt?, readInt?, plain_trimSpaces]

private theorem Number.readFloat?_trimSpaces (text : Text) :
    readFloat? (Spelled.trimSpaces text) = readFloat? text := by
  rw [readFloat?, readFloat?, plain_trimSpaces]

/-- An expression that spaces around it do not change: a name or a numeral. -/
structure Loose (text : Text) : Prop where
  oneWord : ' ' ∉ text
  noElement : text.getLast? ≠ some ']'
  noQuotes : Spelled.isQuoted text = false
  noCondition : isCondition text = false
  noInput : text ≠ Literal.inputWord
  noWord : Literal.fixed.lookup text = none

namespace Loose

variable {text : Text} (loose : Loose (Spelled.trimSpaces text))
include loose

private theorem trimSpaces_core :
    Spelled.trimSpaces (Spelled.trimSpaces text) = Spelled.trimSpaces text := by
  apply Spelled.trimSpaces_flush
  · exact fun space => loose.oneWord (List.mem_of_head? space)
  · exact fun space => loose.oneWord (List.mem_of_getLast? space)

theorem last : text.getLast? ≠ some ']' := by
  intro element
  obtain ⟨i, j, padded⟩ := Spelled.exists_padding text
  have inner := loose.noElement
  generalize Spelled.trimSpaces text = core at padded inner
  subst padded
  cases j with
  | succ j => simp [List.getLast?_append, List.getLast?_replicate] at element
  | zero =>
    cases core with
    | nil => simp [List.getLast?_replicate] at element
    | cons c rest => exact inner (by simpa [List.getLast?_append] using element)

theorem quotes : Spelled.isQuoted text = false := by
  apply Bool.eq_false_iff.mpr
  intro quoted
  have flush := Spelled.isQuoted_ends quoted
  have inner := loose.noQuotes
  rw [Spelled.trimSpaces_flush flush.1 flush.2, quoted] at inner
  cases inner

theorem condition : isCondition text = false := by
  have inner := loose.noCondition
  simp only [isCondition, Bool.or_eq_false_iff, List.contains_eq_mem,
    decide_eq_false_iff_not] at inner ⊢
  simpa [Spelled.mem_trimSpaces_iff] using inner

theorem expand (w : World) : (Literal.expand text).exec w = (.ok text, w) := by
  have notInput : text ≠ Literal.inputWord := by
    intro same
    subst same
    exact loose.noInput (by decide)
  have absent : Literal.fixed.lookup text = none := by
    have trimmed : ∀ entry ∈ Literal.fixed, Spelled.trimSpaces entry.1 = entry.1 := by decide
    have none := loose.noWord
    rw [List.lookup_eq_none_iff] at none ⊢
    intro entry listed
    rw [bne_iff_ne]
    intro same
    have other := none entry listed
    rw [same, trimmed entry listed] at other
    simp at other
  rw [Literal.expand, if_neg notInput, absent]
  rfl

private theorem bindText_eq (ev : Evaluator) (home : Option (Ref .scope)) (name : Text)
    (lenient : Bool) :
    bindText ev home name lenient text =
      bindText ev home name lenient (Spelled.trimSpaces text) := by
  unfold bindText
  simp only [loose.quotes, loose.noQuotes, loose.condition, loose.noCondition,
    loose.trimSpaces_core, Number.readInt?_trimSpaces, Number.readFloat?_trimSpaces,
    Bool.false_eq_true, if_false]

private theorem bind_eq (rounds n : Nat) (home : Option (Ref .scope)) (name : Text)
    (lenient : Bool) :
    (Evaluator.ofRoom rounds n).bind home name lenient (.text text) =
      (Evaluator.ofRoom rounds n).bind home name lenient (.text (Spelled.trimSpaces text)) := by
  cases n with
  | zero => rfl
  | succ n => exact loose.bindText_eq (.ofRoom rounds n) home name lenient

private theorem exec_valueStep (rounds n : Nat) (noCall : ')' ∉ text) (scope : Ref .scope)
    (w : World) :
    (valueStep (.ofRoom rounds n) scope text).exec w =
      ((Evaluator.ofRoom rounds n).bind (some scope) nameless true
        (.text (Spelled.trimSpaces text)) >>= Variable.read).exec w := by
  have expanded : (Literal.expandValue (.text text)).exec w = (.ok (.text text), w) := by
    rw [Literal.expandValue, Run.exec_bind_ok w (loose.expand w)]
    rfl
  unfold valueStep
  rw [Run.exec_bind_ok w (Run.exec_getStore w),
    if_neg fun both => noCall (List.mem_of_getLast? both.1), if_neg fun both => loose.last both.1,
    evaluate_eq, Run.exec_bind_ok w (Run.exec_readItem_bare w _), Run.exec_bind_ok w expanded,
    loose.bind_eq]

end Loose

/-! ### The two readings of a call -/

structure Argument (text : Text) : Prop where
  noComma : ',' ∉ text
  noOpening : '(' ∉ text
  noClosing : ')' ∉ text
  nonempty : text.compact ≠ []
  spaces : ' ' ∉ text ∨ Loose (Spelled.trimSpaces text)

structure Segment (text : Text) : Prop where
  noComma : ',' ∉ text
  noOpening : '(' ∉ text
  noClosing : ')' ∉ text
  nonempty : text.compact ≠ []

instance (text : Text) : Decidable (Segment text) :=
  decidable_of_iff (',' ∉ text ∧ '(' ∉ text ∧ ')' ∉ text ∧ text.compact ≠ [])
    ⟨fun ⟨comma, opening, closing, nonempty⟩ => ⟨comma, opening, closing, nonempty⟩,
      fun segment => ⟨segment.noComma, segment.noOpening, segment.noClosing, segment.nonempty⟩⟩

theorem Argument.segment {text : Text} (argument : Argument text) : Segment text :=
  ⟨argument.noComma, argument.noOpening, argument.noClosing, argument.nonempty⟩

private theorem Argument.exec_compact {text : Text} (argument : Argument text) (rounds n : Nat)
    (scope : Ref .scope) (w : World) :
    ((Evaluator.ofRoom rounds n).valueOf scope text.compact).exec w =
      ((Evaluator.ofRoom rounds n).valueOf scope text).exec w := by
  rcases argument.spaces with none | loose
  · rw [Text.compact_of_not_mem none]
  · cases n with
    | zero => rfl
    | succ n =>
      have core : Loose (Spelled.trimSpaces (Spelled.trimSpaces text)) := by
        rwa [loose.trimSpaces_core]
      have noCall : ')' ∉ Spelled.trimSpaces text :=
        fun member => argument.noClosing (mem_of_mem_trimSpaces member)
      rw [Spelled.compact_of_oneWord loose.oneWord]
      change (valueStep (.ofRoom rounds n) scope _).exec w =
        (valueStep (.ofRoom rounds n) scope text).exec w
      rw [core.exec_valueStep rounds n noCall, loose.trimSpaces_core,
        loose.exec_valueStep rounds n argument.noClosing]

structure Call where
  function : Text
  arguments : List Text

namespace Call

def inside (c : Call) : Text := [','].intercalate c.arguments

def text (c : Call) : Text := c.function ++ '(' :: (c.inside ++ [')'])

/-- A call that can stand alone: the function has one word for a name, and without the parentheses
the command does not begin with a word that opens a block. -/
structure Plain (c : Call) : Prop where
  oneWord : ' ' ∉ c.function
  noCall : '(' ∉ c.function
  arguments : ∀ a ∈ c.arguments, Argument a
  noBlock : ∀ word ∈ Tree.blockWords, (Command.of c.text).bare.head? ≠ some word

structure WellSpelled (c : Call) : Prop where
  oneWord : ' ' ∉ c.function
  noCall : '(' ∉ c.function
  arguments : ∀ a ∈ c.arguments, Segment a
  noBlock : ∀ word ∈ Tree.blockWords, (Command.of c.text).bare.head? ≠ some word

private theorem Plain.wellSpelled {c : Call} (plain : c.Plain) : c.WellSpelled :=
  ⟨plain.oneWord, plain.noCall, fun a listed => (plain.arguments a listed).segment, plain.noBlock⟩

end Call

private theorem Variable.reading_function {x : Variable} {callee : Ref .node}
    (tag : x.tag = .function) (content : x.content = .node callee) :
    x.reading = .ok (.node callee) := by
  rw [Variable.reading, tag, content]
  rfl

namespace Call

variable {c : Call}

private theorem not_mem_inside {d : Char} (sign : d ≠ ',') (absent : ∀ a ∈ c.arguments, d ∉ a) :
    d ∉ c.inside := by
  intro member
  rcases Text.mem_intercalate member with between | ⟨a, listed, inside⟩
  · exact sign between
  · exact absent a listed inside

variable (spelled : c.WellSpelled)
include spelled

omit spelled in
private theorem getLast?_text : c.text.getLast? = some ')' := by
  rw [text, ← List.cons_append, ← List.append_assoc, List.getLast?_concat]

private theorem WellSpelled.before_text : c.text.before '(' = c.function :=
  Text.before_append_self spelled.noCall _

/-- The first word goes on after the name of the function. -/
theorem WellSpelled.before_space :
    c.text.before ' ' = c.function ++ '(' :: (c.inside ++ [')']).before ' ' :=
  Text.before_append_cons spelled.oneWord (by decide) _

private theorem WellSpelled.spread_head :
    ∃ word, (Command.of c.text).spread.head? = some word ∧ '(' ∈ word := by
  have parts : c.text.filter (· != '=') =
      (c.function.filter (· != '=') ++ ['(']) ++ (c.inside ++ [')']).filter (· != '=') := by
    simp [text]
  have noSpace : ' ' ∉ c.function.filter (· != '=') :=
    fun member => spelled.oneWord (List.mem_of_mem_filter member)
  refine ⟨_, Text.head?_words _, ?_⟩
  rw [parts, Text.replace_append_of_head _ (c := ' ') rfl (by simpa using noSpace),
    List.append_assoc, List.singleton_append, Text.before_append_cons noSpace (by decide)]
  simp

private theorem WellSpelled.verb_eq_none : (Command.of c.text).verb? = none := by
  have closed : ∀ entry ∈ Command.verbs, (entry.1 = .bare → entry.2.1 ∈ Tree.blockWords) ∧
    '(' ∉ entry.2.1 := by decide
  apply List.findSome?_eq_none_iff.mpr
  intro entry listed
  obtain ⟨view, word, verb⟩ := entry
  have known := closed _ listed
  apply if_neg
  intro begins
  cases view with
  | whole =>
    rw [Command.view, Command.of, Text.head?_words, spelled.before_space] at begins
    exact known.2 (Option.some.inj begins ▸ by simp)
  | spread =>
    obtain ⟨first, head, calls⟩ := spelled.spread_head
    rw [Command.view, head] at begins
    exact known.2 (Option.some.inj begins ▸ calls)
  | bare => exact spelled.noBlock word (known.1 rfl) begins

private theorem WellSpelled.exec_bracketed (w : World) :
    (bracketed '(' c.text).exec w = (.ok c.inside, w) := by
  have noOpening : '(' ∉ c.inside ++ [')'] := by
    have inside := not_mem_inside (by decide) fun a listed => (spelled.arguments a listed).noOpening
    simp [inside]
  unfold bracketed
  rw [text, Text.splitOn_append_cons spelled.noCall, List.splitOn_eq_singleton noOpening]
  have second : (Run.nth [c.function, c.inside ++ [')']] 1).exec w = (.ok (c.inside ++ [')']), w) :=
    rfl
  rw [Run.exec_bind_ok w second, List.dropLast_concat]
  rfl

private theorem WellSpelled.zip_inside (names : List Text)
    (fits : c.arguments.length = names.length) :
    (c.inside.splitOn ',').zip names = c.arguments.zip names := by
  by_cases empty : c.arguments = []
  · rw [empty] at fits ⊢
    rw [List.length_eq_zero_iff.mp fits.symm]
    simp
  · rw [inside, List.splitOn_intercalate ','
      (fun a listed => (spelled.arguments a listed).noComma) empty]

private theorem WellSpelled.argumentList_compact :
    argumentList c.inside.compact = c.arguments.map Text.compact := by
  have nonempty : ∀ a ∈ c.arguments.map Text.compact, (!a.isEmpty) = true := by
    intro a listed
    obtain ⟨argument, given, rfl⟩ := List.mem_map.mp listed
    simp [(spelled.arguments argument given).nonempty]
  have noComma : ∀ a ∈ c.arguments.map Text.compact, ',' ∉ a := by
    intro a listed
    obtain ⟨argument, given, rfl⟩ := List.mem_map.mp listed
    exact fun member => (spelled.arguments argument given).noComma (List.mem_of_mem_filter member)
  unfold argumentList
  rw [inside, Text.compact_intercalate (by decide)]
  by_cases empty : c.arguments = []
  · rw [empty]
    rfl
  · rw [List.splitOn_intercalate ',' noComma (by simpa using empty)]
    exact List.filter_eq_self.mpr nonempty

private theorem WellSpelled.callArguments_eq {s : Site} (command : s.command = .of c.text) :
    s.callArguments = c.arguments.map Text.compact := by
  have noOpening := not_mem_inside (by decide) fun a listed =>
    (spelled.arguments a listed).noOpening
  have noClosing := not_mem_inside (by decide) fun a listed =>
    (spelled.arguments a listed).noClosing
  have whole : s.command.whole.flatten = c.function ++ '(' :: (c.inside.compact ++ [')']) := by
    rw [command, Command.of, Text.flatten_words, text]
    have function : c.function.filter (· != ' ') = c.function :=
      Text.compact_of_not_mem spelled.oneWord
    simp [Text.compact, function]
  have after : Text.after '(' s.command.whole.flatten = c.inside.compact ++ [')'] := by
    rw [whole]
    exact Text.after_append_self spelled.noCall _
  have kept : (c.inside.compact ++ [')']).filter (· != '(') = c.inside.compact ++ [')'] := by
    apply List.filter_eq_self.mpr
    apply Text.forall_ne_of_not_mem
    simp [Text.compact, noOpening]
  have cut : Text.before ')' (c.inside.compact ++ [')']) = c.inside.compact := by
    apply Text.before_append_self
    exact fun member => noClosing (List.mem_of_mem_filter member)
  unfold Site.callArguments
  rw [after, kept, cut, spelled.argumentList_compact]

omit spelled

/-- The function of a call is stored in a variable, and there are as many arguments as it has
parameters. -/
structure Calls (c : Call) (st : Store) (scope : Ref .scope) (callee : Ref .node)
    (names : List Text) : Prop where
  means : ∃ r, st.findPath scope c.function = some r ∧ (st.var r).tag = .function ∧
    (st.var r).content = .node callee
  parameters : parameters (st.node callee).command = pure names
  fits : c.arguments.length = names.length

variable {w : World} {callee : Ref .node} {names : List Text}

/-- A call that stands alone. -/
theorem WellSpelled.exec_statement (spelled : c.WellSpelled) {s : Site}
    (command : s.command = .of c.text) (calls : c.Calls w.store s.scope callee names) :
    s.act.exec w =
      (s.passArguments (w.store.node callee).scope (c.arguments.map Text.compact) names >>= fun _ =>
      runBody s.ev callee s.file >>= fun _ => pure Outcome.done).exec w := by
  obtain ⟨r, found, tag, content⟩ := calls.means
  have verb : s.command.verb? = none := by
    rw [command]
    exact spelled.verb_eq_none
  have first : (s.word 0).exec w = (.ok (c.text.before ' '), w) := by
    have head : s.command.whole[0]? = some (c.text.before ' ') := by
      rw [command, ← List.head?_eq_getElem?]
      exact Text.head?_words c.text
    rw [Site.word, Run.nth, head]
    rfl
  have name : (c.text.before ' ').before '(' = c.function := by
    rw [spelled.before_space]
    exact Text.before_append_self spelled.noCall _
  have meant : (s.variableOf c.function).exec w = (.ok r, w) := by
    rw [Site.variableOf, Run.exec_bind_ok w (lookup_findPath s.ev found)]
    rfl
  have read : ((w.store.var r).read).exec w = (.ok (.node callee), w) := by
    rw [Variable.exec_read, Variable.reading_function tag content]
  unfold Site.act
  rw [verb]
  change s.other.exec w = _
  unfold Site.other
  rw [Run.exec_bind_ok w (Run.exec_getStore w), Run.exec_bind_ok w first, name,
    if_pos (Store.isVisible_of_findPath found)]
  unfold Site.callOrAssign
  rw [name, Run.exec_bind_ok w meant, Run.exec_bind_ok w (Run.exec_getStore w), if_pos tag,
    Run.exec_bind_ok w read]
  simp only
  rw [Run.exec_bind_ok w (Run.exec_getStore w), calls.parameters, pure_bind,
    spelled.callArguments_eq command]

/-- A call in an expression. -/
theorem WellSpelled.exec_expression (spelled : c.WellSpelled) (ev : Evaluator) {scope : Ref .scope}
    (calls : c.Calls w.store scope callee names) :
    (valueStep ev scope c.text).exec w =
      (bindArguments ev scope (w.store.node callee).scope (c.arguments.zip names) >>= fun _ =>
      runBody ev callee [] >>= fun outcome => pure outcome.value).exec w := by
  obtain ⟨r, found, tag, content⟩ := calls.means
  have call : c.text.getLast? = some ')' ∧ w.store.isVisible scope (c.text.before '(') = true := by
    rw [spelled.before_text]
    exact ⟨getLast?_text, Store.isVisible_of_findPath found⟩
  have held : (heldItem (.held r)).exec w = (.ok r, w) := rfl
  have read : (readVariable r).exec w = (.ok (.node callee), w) := by
    rw [Run.exec_readVariable, Variable.reading_function tag content]
  unfold valueStep
  rw [Run.exec_bind_ok w (Run.exec_getStore w), if_pos call, spelled.before_text,
    Run.exec_bind_ok w (lookup_findPath ev found), Run.exec_bind_ok w held, Run.exec_bind_ok w read]
  change (callFunction ev scope c.text callee).exec w = _
  unfold callFunction
  rw [Run.exec_bind_ok w (Run.exec_getStore w)]
  dsimp only
  rw [calls.parameters, pure_bind, Run.exec_bind_ok w (spelled.exec_bracketed w),
    spelled.zip_inside names calls.fits]

end Call

private theorem Site.passArguments_eq {s : Site} (callee : Ref .scope)
    {arguments names : List Text} (fits : arguments.length = names.length) :
    s.passArguments callee arguments names = bindArguments s.ev s.scope callee
      (arguments.zip names) := by
  induction arguments generalizing names with
  | nil => rfl
  | cons a rest ih =>
    cases names with
    | nil => cases fits
    | cons name names =>
      rw [passArguments, List.zip_cons_cons, bindArguments]
      simp only [ih (Nat.succ.inj fits)]
      rfl

/-- Arguments that mean the same without their spaces are passed alike. -/
theorem exec_bindArguments_compact {rounds n : Nat} (scope callee : Ref .scope)
    {arguments : List Text} (plain : ∀ a ∈ arguments, Argument a) (names : List Text) (w : World) :
    (bindArguments (.ofRoom rounds n) scope callee ((arguments.map Text.compact).zip names)).exec
      w =
      (bindArguments (.ofRoom rounds n) scope callee (arguments.zip names)).exec w := by
  induction arguments generalizing names w with
  | nil => rfl
  | cons a rest ih =>
    cases names with
    | nil => rfl
    | cons name names =>
      rw [List.map_cons, List.zip_cons_cons, List.zip_cons_cons, bindArguments, bindArguments,
        Run.exec_bind, Run.exec_bind, (plain a List.mem_cons_self).exec_compact rounds n scope w]
      rcases ((Evaluator.ofRoom rounds n).valueOf scope a).exec w with ⟨fault | v, u⟩
      · rfl
      · simp only [Run.exec_bind]
        rcases (declare (.ofRoom rounds n) callee name (.bare v)).exec u with ⟨fault | _, later⟩
        · rfl
        · exact ih (fun a listed => plain a (List.mem_cons_of_mem _ listed)) names later

structure Store.IsStatement (st : Store) (node : Ref .node) (scope : Ref .scope)
    (command : Text) : Prop where
  scope : (st.node node).scope = scope
  command : (st.node node).command = command

/-- A statement that is a call: its arguments are passed without their spaces, and then the body
runs. -/
theorem Call.WellSpelled.exec_run {rounds n : Nat} {w : World} {c : Call}
    (spelled : c.WellSpelled) {scope : Ref .scope} {callee : Ref .node} {names : List Text}
    (calls : c.Calls w.store scope callee names) {node : Ref .node} (file : Text)
    (stands : w.store.IsStatement node scope c.text) :
    ((Evaluator.ofRoom rounds (n + 1)).run node file).exec w =
      (bindArguments (.ofRoom rounds n) scope (w.store.node callee).scope
        ((c.arguments.map Text.compact).zip names) >>= fun _ =>
        runBody (.ofRoom rounds n) callee file >>= fun _ => pure Outcome.done).exec w := by
  let s := Site.ofNode (.ofRoom rounds n) w.store node file
  have place : s.scope = scope := stands.scope
  have command : s.command = .of c.text := congrArg Command.of stands.command
  have fits : (c.arguments.map Text.compact).length = names.length := by
    rw [List.length_map, calls.fits]
  change (runStep (.ofRoom rounds n) node file).exec w = _
  rw [runStep_exec]
  change s.act.exec w = _
  rw [spelled.exec_statement command (by rw [place]; exact calls),
    Site.passArguments_eq _ fits, place]
  rfl

section Agreement

variable {rounds n : Nat} {w : World} {c : Call} (plain : c.Plain) {scope : Ref .scope}
  {callee : Ref .node} {names : List Text}
  (calls : c.Calls w.store scope callee names) {node : Ref .node} (file : Text)
include plain calls

private theorem exec_callStatement (stands : w.store.IsStatement node scope c.text) :
    ((Evaluator.ofRoom rounds (n + 1)).run node file).exec w =
      (bindArguments (.ofRoom rounds n) scope (w.store.node callee).scope
        (c.arguments.zip names) >>= fun _ =>
        runBody (.ofRoom rounds n) callee file >>= fun _ => pure Outcome.done).exec w := by
  rw [plain.wellSpelled.exec_run calls file stands, Run.exec_bind, Run.exec_bind,
    exec_bindArguments_compact _ _ plain.arguments]

private theorem exec_callSetting {name : Text} (new : NewName name)
    (stands : w.store.IsStatement node scope (setting name c.text)) :
    ((Evaluator.ofRoom rounds (n + 2)).run node file).exec w =
      (bindArguments (.ofRoom rounds n) scope (w.store.node callee).scope
        (c.arguments.zip names) >>= fun _ =>
        runBody (.ofRoom rounds n) callee [] >>= fun outcome =>
          assign (.ofRoom rounds (n + 1)) scope (!file.isEmpty) name (.bare outcome.value) >>=
          fun _ => pure Outcome.done).exec w := by
  let s := Site.ofNode (.ofRoom rounds (n + 1)) w.store node file
  have place : s.scope = scope := stands.scope
  have command : s.command = .of (setting name c.text) := congrArg Command.of stands.command
  have front : c.text.head? ≠ some ' ' := by
    rw [Call.text]
    cases function : c.function with
    | nil => simp
    | cons d rest =>
      have word := plain.oneWord
      rw [function] at word
      simpa using fun same : d = ' ' => word (same ▸ List.mem_cons_self)
  have back : c.text.getLast? ≠ some ' ' := by
    rw [Call.getLast?_text]
    decide
  have value : (s.valueOf c.text).exec w = _ :=
    plain.wellSpelled.exec_expression (.ofRoom rounds n) (by rw [place]; exact calls)
  change (runStep (.ofRoom rounds (n + 1)) node file).exec w = _
  rw [runStep_exec]
  change s.act.exec w = _
  rw [Site.exec_setting command new front back, Run.exec_bind, value, ← Run.exec_bind]
  simp only [bind_assoc, pure_bind, place]
  rfl

end Agreement

/-- A function is called with as many arguments as it has parameters, by a statement that is only
the call and by one that sets a new name to the call, from the same world and in a program that has
a file. The second call is nested one level deeper, and is given one level more. If the arguments
cannot be passed, both fail in the same way. Otherwise both run the body from the same world, and
the bodies do the same unless a statement comes first to which the file matters. Where the body then
returns a value, both statements leave the same world, apart from the new name. -/
theorem calls_agree (rounds n : Nat) (w : World) (c : Call) (plain : c.Plain) (scope : Ref .scope)
    (callee : Ref .node) (names : List Text) (calls : c.Calls w.store scope callee names)
    (file : Text) (named : file ≠ []) (name : Text) (new : NewName name) (alone sets : Ref .node)
    (statement : w.store.IsStatement alone scope c.text)
    (settingStatement : w.store.IsStatement sets scope (setting name c.text)) :
    let ev := Evaluator.ofRoom rounds n
    let passed :=
      (bindArguments ev scope (w.store.node callee).scope (c.arguments.zip names)).exec w
    let called := ((Evaluator.ofRoom rounds (n + 1)).run alone file).exec w
    let set := ((Evaluator.ofRoom rounds (n + 2)).run sets file).exec w
    (∀ fault u, passed = (.error fault, u) → called = (.error fault, u) ∧ set = (.error fault, u)) ∧
    ∀ u, passed = (.ok (), u) →
      called = (runBody ev callee file >>= fun _ => pure .done).exec u ∧
      set = (runBody ev callee [] >>= fun outcome =>
        assign (.ofRoom rounds (n + 1)) scope true name (.bare outcome.value) >>= fun _ =>
          pure .done).exec u ∧
      ((runBody ev callee file).exec u = (runBody ev callee []).exec u ∨
        ∃ stopped, (runBody (.watchful file rounds n) callee file).exec u =
          (.error .unfinished, stopped) ∧
          Evaluator.FileMattersIn file rounds stopped) ∧
      ∀ v last, (runBody ev callee file).exec u = (.ok (.stopped v), last) →
        (runBody ev callee file).exec u = (runBody ev callee []).exec u → v.Settled last.store →
        last.store.resolve scope name = none →
        let target := last.store.globalOf scope
        let later :=
          last.store.bindName target name (Variable.ofValue last.store name (some target) v)
        called = (.ok .done, last) ∧ set = (.ok .done, { last with store := later }) ∧
        last.store.Keeps later [name] := by
  intro ev passed called set
  have first : called = _ := exec_callStatement plain calls file statement
  have second : set = _ := exec_callSetting plain calls file new settingStatement
  have isGlobal : (!file.isEmpty) = true := by
    simpa using named
  rw [isGlobal] at second
  constructor
  · intro fault u failed
    rw [first, second, Run.exec_bind_error w failed, Run.exec_bind_error w failed]
    exact ⟨rfl, rfl⟩
  · intro u done
    rw [Run.exec_bind_ok w done] at first second
    refine ⟨first, second, runBody_without_file file rounds n callee u, ?_⟩
    intro v last returned same settled unknown
    have assigned :=
      assign_new rounds n last true new.single new.nonempty new.noElement settled unknown
    rw [first, second, Run.exec_bind_ok u returned, Run.exec_bind_ok u (same.symm.trans returned)]
    refine ⟨rfl, Run.exec_bind_ok last assigned, ?_⟩
    exact (Store.Keeps.refl last.store).bind (Store.Grows.refl _) _ name _

@[irreducible] def Store.withFunctions : Store where
  scopes :=
    ⟨#[{ parent := none, table := ⟨0⟩ }, { parent := some ⟨0⟩, table := ⟨1⟩ },
      { parent := some ⟨0⟩, table := ⟨2⟩ }]⟩
  tables := ⟨#[[(['f'], ⟨0⟩), (['g'], ⟨1⟩), (['x'], ⟨2⟩)], [], []]⟩
  vars := ⟨#[{ name := some ['f'], home := some ⟨0⟩, content := .node ⟨0⟩, tag := .function },
    { name := some ['g'], home := some ⟨0⟩, content := .node ⟨2⟩, tag := .function },
    { name := some ['x'], home := some ⟨0⟩, content := .int 7, tag := .int }]⟩
  nodes := ⟨#[{ command := "def f(a, b)".toList, index := 0, children := [⟨1⟩], scope := ⟨1⟩,
                interactive := false },
    { command := "return g(b)".toList, index := 1, children := [], scope := ⟨1⟩,
      interactive := false },
    { command := "def g(a)".toList, index := 2, children := [⟨3⟩,
      ⟨4⟩], scope := ⟨2⟩, interactive := false },
    { command := "print a".toList, index := 3, children := [], scope := ⟨2⟩, interactive := false },
    { command := "return a".toList, index := 4, children := [], scope := ⟨2⟩,
      interactive := false },
    { command := "f(1, x)".toList, index := 5, children := [], scope := ⟨0⟩, interactive := false },
    { command := "var r = f(1, x)".toList, index := 6, children := [], scope := ⟨0⟩,
      interactive := false }]⟩

def Call.spaced : Call := ⟨['f'], [['1'], [' ', 'x']]⟩

private theorem Call.spaced_plain : Call.spaced.Plain where
  oneWord := by decide
  noCall := by decide
  arguments := by
    intro a listed
    have either : a = ['1'] ∨ a = [' ', 'x'] := by
      simpa [Call.spaced] using listed
    rcases either with rfl | rfl
    · exact ⟨by decide, by decide, by decide, by decide, .inl (by decide)⟩
    · exact ⟨by decide, by decide, by decide, by decide, .inr (by constructor <;> decide)⟩
  noBlock := by decide +kernel

private theorem Call.spaced_calls :
    Call.spaced.Calls Store.withFunctions ⟨0⟩ ⟨0⟩ [['a'], ['b']] where
  means := ⟨⟨0⟩, by decide +kernel, by decide +kernel, by unfold Store.withFunctions; rfl⟩
  parameters := by unfold Store.withFunctions; rfl
  fits := rfl

def returnedNumber : Except Fault Outcome → Option Int
  | .ok (.stopped (.int n)) => some n
  | _ => none

private theorem eq_of_returnedNumber {given : Except Fault Outcome} {n : Int}
    (known : returnedNumber given = some n) : given = .ok (.stopped (.int n)) := by
  unfold returnedNumber at known
  split at known
  · rw [Option.some.inj known]
  · cases known

@[irreducible] def World.passed : World :=
  ((bindArguments (.ofRoom 0 12) ⟨0⟩ ⟨1⟩ [(['1'], ['a']), ([' ', 'x'], ['b'])]).exec
    { store := Store.withFunctions }).2

@[irreducible] def World.returned : World :=
  ((runBody (.ofRoom 0 12) ⟨0⟩ ['m']).exec World.passed).2

private theorem eq_of_isOk {given : Except Fault Unit} (known : given.isOk = true) :
    given = .ok () := by
  cases given with
  | ok _ => rfl
  | error e => cases known

theorem calls_agree_nested :
    let w : World := { store := Store.withFunctions }
    ∃ last later, ((Evaluator.ofRoom 0 13).run ⟨5⟩ ['m']).exec w = (.ok .done, last) ∧
      ((Evaluator.ofRoom 0 14).run ⟨6⟩ ['m']).exec w = (.ok .done, { last with store := later }) ∧
      last.store.Keeps later [['r']] ∧ last.output = ['7'] := by
  intro w
  obtain ⟨_, agree⟩ := calls_agree 0 12 w Call.spaced Call.spaced_plain ⟨0⟩ ⟨0⟩
    [['a'], ['b']] Call.spaced_calls ['m']
    (by decide) ['r'] (by constructor <;> decide) ⟨5⟩ ⟨6⟩ ⟨by decide +kernel, by decide +kernel⟩
    ⟨by decide +kernel, by decide +kernel⟩
  have place : (w.store.node ⟨0⟩).scope = ⟨1⟩ := by decide +kernel
  rw [place] at agree
  have ok :
      ((bindArguments (.ofRoom 0 12) ⟨0⟩ ⟨1⟩ [(['1'], ['a']), ([' ', 'x'], ['b'])]).exec w).1 =
        .ok () :=
    eq_of_isOk (by decide +kernel)
  obtain ⟨_, _, _, results⟩ := agree World.passed (Prod.ext ok (by rw [World.passed]; rfl))
  have number : ((runBody (.ofRoom 0 12) ⟨0⟩ ['m']).exec World.passed).1 =
      .ok (.stopped (.int 7)) :=
    eq_of_returnedNumber (by decide +kernel)
  have same : (runBody (.ofRoom 0 12) ⟨0⟩ ['m']).exec World.passed =
      (runBody (.ofRoom 0 12) ⟨0⟩ []).exec World.passed :=
    runBody_single ⟨1⟩ .returnValue (by decide +kernel) (by decide +kernel) (by decide) ['m'] []
  obtain ⟨called, set, keeps⟩ :=
    results (.int 7) World.returned (Prod.ext number (by rw [World.returned])) same (.int 7)
    (by decide +kernel)
  exact ⟨_, _, called, set, keeps, by decide +kernel⟩

end CommandScript

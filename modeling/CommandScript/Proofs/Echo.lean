import CommandScript.Proofs.Texts

/-! A name typed alone in a session. The name is taken for the start of an assignment with nothing
behind it: the variable loses its value and the session ends with a fault. Only a name with a
parenthesis in it, which no name stands before, comes as far as the echo; its value is shown and
nothing changes. -/
namespace CommandScript

/-! ### Programs of one word -/

namespace Layout

/-- Whatever is replaced has a space, a line break or a brace in it. -/
theorem replacement_special :
    ∀ entry ∈ replacements, ∃ c ∈ ['\n', ' ', '\x7b', '\x7d'], c ∈ entry.1 := by
  have checked : replacements.all (fun entry => ['\n', ' ', '\x7b', '\x7d'].any entry.1.contains) =
    true := by decide
  intro entry listed
  have here := List.all_eq_true.mp checked entry listed
  simpa only [List.any_eq_true, List.contains_iff_mem] using here

private theorem flatten_word {word : Text} (isWord : IsWord word) : flatten word = word := by
  apply Text.foldl_replace_of_not_infix
  intro entry listed
  obtain ⟨c, special, inside⟩ := replacement_special entry listed
  refine Text.not_infix_of_mem inside ?_
  simp only [List.mem_cons, List.not_mem_nil, or_false] at special
  rcases special with rfl | rfl | rfl | rfl
  · exact isWord.unbroken
  · exact isWord.oneWord
  · exact isWord.whole _ (by simp [stops])
  · exact isWord.whole _ (by simp [stops])

end Layout

namespace IsWord

variable {word : Text} (isWord : IsWord word)
include isWord

theorem head_ne_space : word.head? ≠ some ' ' :=
  fun first => isWord.oneWord (List.mem_of_head? first)

theorem words : Text.words word = [word] := List.splitOn_eq_singleton isWord.oneWord

theorem segments : word.splitOn ';' = [word] :=
  List.splitOn_eq_singleton (isWord.whole _ (by simp [Layout.stops]))

theorem parse (plain : word ∉ Layout.closing :: Tree.blockWords) :
    Tree.parse word = (Tree.row 0 [word], 0) := by
  have noBlock : word ∉ Tree.blockWords := fun member => plain (List.mem_cons_of_mem _ member)
  have noClosing : word ≠ Layout.closing := fun same => plain (same ▸ List.mem_cons_self)
  have role : Tree.Role.of word = .plain := by
    rw [Tree.Role.of, Text.before_of_not_mem isWord.oneWord, if_neg noBlock, if_neg noClosing]
  have single : ¬ "  ".toList <:+: word := Text.not_infix_of_mem (c := ' ') (by simp) isWord.oneWord
  have command : Tree.commandOf word = word := Text.replace_of_not_infix _ single
  have flush : Spelled.dropSpaces word = word := Spelled.dropWhile_spaces_flush isWord.head_ne_space
  rw [Tree.parse, isWord.segments, Tree.readFrom, flush, role]
  simp [Tree.readFrom, Tree.Reading.closeAll, command, Tree.row]

end IsWord

/-- A program that is one word does what the word does as a command. -/
theorem Program.exec_word {limits : Limits} {n : Nat} (room : limits.nesting = n + 1)
    {word : Text} (isWord : IsWord word) (plain : word ∉ Layout.closing :: Tree.blockWords)
    (scope : Ref .scope) (interactive : Bool) (file : Text) (w : World) :
    ∃ node nodes, (({ w.store with nodes } : Store).node node).interactive = interactive ∧
      (run limits scope interactive file word).exec w =
        (Site.mk (.ofRoom limits.rounds n) node scope file (.of word)).act.exec
          { w with store := { w.store with nodes } } := by
  have parsed := isWord.parse plain
  have flush : ∀ segment ∈ word.splitOn ';', Spelled.leadingSpaces segment ≤ 1 := by
    intro segment member
    rw [isWord.segments, List.mem_singleton] at member
    rw [member, Spelled.leadingSpaces]
    cases front : word with
    | nil => exact Nat.zero_le 1
    | cons c rest =>
      have other : c ≠ ' ' := fun same => isWord.head_ne_space (by rw [front, same]; rfl)
      simp [Spells.spells, Ne.symm other]
  have shallow : isTooDeep (2 * limits.nesting) word = false :=
    isTooDeep_row (by rw [parsed]) flush (by omega)
  let leaf : Node := { command := word, index := 0, children := [], scope, interactive }
  let node : Ref .node := (w.store.newNode leaf).1
  let later : Store := (w.store.plantProgram scope interactive (Tree.row 0 [word])).2
  have cell : later.node node = leaf := Store.newNode_read (Store.extends_newNode _ _)
  have site : Site.ofNode (.ofRoom limits.rounds n) later node file =
      ⟨.ofRoom limits.rounds n, node, scope, file, .of word⟩ := by
    rw [Site.ofNode, cell]
  have level : Evaluator.ofLimits limits = (Evaluator.ofRoom limits.rounds n).next := by
    rw [Evaluator.ofLimits, room]
    rfl
  have alone : ∀ v : World, (runAll (.ofLimits limits) file [node]).exec v =
      ((Evaluator.ofLimits limits).run node file).exec v := by
    intro v
    rw [runAll, Run.exec_bind]
    rcases ((Evaluator.ofLimits limits).run node file).exec v with ⟨fault | outcome, after⟩
    · rfl
    · cases outcome <;> rfl
  refine ⟨node, later.nodes, by change (later.node node).interactive = _; rw [cell], ?_⟩
  rw [exec_run, Layout.flatten_word isWord, shallow, if_neg Bool.false_ne_true, parsed]
  change (runAll (.ofLimits limits) file [node]).exec { w with store := later } = _
  rw [alone, level]
  change (runStep (.ofRoom limits.rounds n) node file).exec _ = _
  rw [runStep_exec, site]
  rfl

/-! ### Texts of numbers -/

namespace Number

def Unmarked (text : Text) : Prop := ∀ c ∈ text, c ≠ '\'' ∧ c ≠ '"'

theorem Unmarked.append {first second : Text} (left : Unmarked first) (right : Unmarked second) :
    Unmarked (first ++ second) := by
  intro c member
  rcases List.mem_append.mp member with inside | inside
  · exact left c inside
  · exact right c inside

theorem Unmarked.cons {c : Char} {text : Text} (here : c ≠ '\'' ∧ c ≠ '"') (rest : Unmarked text) :
    Unmarked (c :: text) :=
  List.forall_mem_cons.mpr ⟨here, rest⟩

theorem Unmarked.sublist {part text : Text} (unmarked : Unmarked text) (fewer : part ⊆ text) :
    Unmarked part :=
  fun c member => unmarked c (fewer member)

theorem Unmarked.isQuoted {text : Text} (unmarked : Unmarked text) :
    Spelled.isQuoted text = false := by
  rw [← Bool.not_eq_true]
  intro quoted
  rcases Spelled.getLast?_of_isQuoted quoted with last | last
  · exact (unmarked _ (List.mem_of_getLast? last)).2 rfl
  · exact (unmarked _ (List.mem_of_getLast? last)).1 rfl

private theorem unmarked_zeros (n : Nat) : Unmarked (List.replicate n '0') := by
  intro c member
  rw [List.eq_of_mem_replicate member]
  decide

private theorem unmarked_decimalDigits (n : Nat) : Unmarked (decimalDigits n) := by
  intro c member
  have digit := Nat.isDigit_of_mem_toDigits (by omega) (by omega) member
  constructor
  · rintro rfl
    exact absurd digit (by decide)
  · rintro rfl
    exact absurd digit (by decide)

private theorem unmarked_positional {digits : Text} (unmarked : Unmarked digits) (point : Int) :
    Unmarked (positional digits point) := by
  unfold positional
  split
  · exact ((by simp [Unmarked] : Unmarked "0.".toList).append (unmarked_zeros _)).append unmarked
  · split
    · exact (unmarked.append (unmarked_zeros _)).append (by simp [Unmarked])
    · exact (unmarked.sublist (List.take_subset _ _)).append
        (.cons (by decide) (unmarked.sublist (List.drop_subset _ _)))

private theorem unmarked_scientific (format : FloatFormat) {digits : Text}
    (unmarked : Unmarked digits) (point : Int) : Unmarked (scientific format digits point) := by
  have sign : Unmarked ['e', if point - 1 < 0 then '-' else '+'] := by
    split <;> simp [Unmarked]
  have fraction : Unmarked (if (digits.drop 1).isEmpty then [] else '.' :: digits.drop 1) := by
    split
    · simp [Unmarked]
    · exact .cons (by decide) (unmarked.sublist (List.drop_subset _ _))
  exact ((((unmarked.sublist (List.take_subset _ _)).append fraction).append sign).append
    (unmarked_zeros _)).append
    (unmarked_decimalDigits _)

private theorem unmarked_write (format : FloatFormat) (d : Decimal) :
    Unmarked (format.write d) := by
  have digits : Unmarked (dropTrailingZeros (decimalDigits d.digits)) :=
    (unmarked_decimalDigits d.digits).sublist fun c member =>
      List.mem_reverse.mp (List.dropWhile_subset _ (List.mem_reverse.mp member))
  simp only [FloatFormat.write]
  split
  · exact unmarked_positional digits _
  · exact unmarked_scientific format digits _

private theorem unmarked_floatText (x : Float) : Unmarked (floatText x) := by
  unfold floatText
  split
  · simp [Unmarked]
  · split <;> simp [Unmarked]
  · next negative mantissa exponent _ =>
    have size :
        Unmarked (if mantissa = 0 then "0.0".toList
          else FloatFormat.standard.write (shortest mantissa exponent)) := by
      split
      · simp [Unmarked]
      · exact unmarked_write _ _
    cases negative with
    | true => exact .cons (by decide) size
    | false => exact size

private theorem unmarked_intText {n : Int} {text : Text} (written : intText n = .ok text) :
    Unmarked text := by
  unfold intText at written
  split at written
  · cases written
  · cases written
    split
    · exact .cons (by decide) (unmarked_decimalDigits _)
    · exact unmarked_decimalDigits _

end Number

/-! ### Names as commands -/

def Notice.noValue : Text := "RuntimeError: Unknow type None\n".toList

/-- A variable holds a number or a text, and this is how it is written without quotes. -/
inductive Variable.Shows (x : Variable) : Text → Prop where
  | int (n : Int) {text : Text} (reads : x.reading = .ok (.int n))
      (written : Number.intText n = .ok text) : Shows x text
  | float (y : Float) (reads : x.reading = .ok (.float y)) : Shows x (Number.floatText y)
  | text (s : Text) (reads : x.reading = .ok (.text s.encloseSingle)) : Shows x s

theorem Variable.Shows.scalar {x : Variable} {text : Text} (shows : x.Shows text) :
    ∃ v, x.reading = .ok v ∧ v.IsScalar := by
  cases shows with
  | int n reads => exact ⟨_, reads, .int n⟩
  | float y reads => exact ⟨_, reads, .float y⟩
  | text _ reads =>
    exact ⟨_, reads, .text _ (Spelled.isQuoted_encloseSingle _) (by simp [Text.encloseSingle])⟩

def Spelled.unquote (text : Text) : Text := if isQuoted text then inner text else text

/-- The value is shown as the text of the variable. -/
theorem Variable.Shows.showValue {x : Variable} {text : Text} (shows : x.Shows text) {v : Value}
    (reads : x.reading = .ok v) (st : Store) (fuel : Nat) :
    (st.showValue (fuel + 1) v).map Spelled.unquote = .ok text := by
  cases shows with
  | int n number written =>
    cases number.symm.trans reads
    have plain := (Number.unmarked_intText written).isQuoted
    simp [Store.showValue, Store.showItem, written, Except.map, Spelled.unquote, plain]
  | float y number =>
    cases number.symm.trans reads
    have plain := (Number.unmarked_floatText y).isQuoted
    simp [Store.showValue, Store.showItem, Except.map, Spelled.unquote, plain]
  | text _ quoted =>
    cases quoted.symm.trans reads
    simp [Store.showValue, Except.map, Spelled.unquote, Spelled.isQuoted_encloseSingle,
      Spelled.inner_encloseSingle]

/-- An expression is evaluated, and its value is shown without quotes. -/
theorem Site.exec_shown {s : Site} {text : Text} {v : Value} {w after : World}
    (value : (s.valueOf text).exec w = (.ok v, after)) :
    (s.shown text).exec w = ((after.store.showValue s.ev.slack v).map Spelled.unquote, after) := by
  rw [Site.shown, Run.exec_bind_ok w value, Run.exec_bind_ok after (Run.exec_getStore after)]
  cases after.store.showValue s.ev.slack v <;> rfl

section Statements

variable (rounds n : Nat) {scope : Ref .scope} {w : World}

/-- The empty text has no value, unless there is a variable without a name. -/
theorem exec_valueOf_empty (unnamed : w.store.resolve scope [] = none) :
    ((Evaluator.ofRoom rounds (n + 2)).valueOf scope []).exec w = (.ok .nothing, w) := by
  have expanded : (Literal.expandValue (.text [])).exec w = (.ok (.text []), w) := rfl
  have named : bindText (Evaluator.ofRoom rounds n) (some scope) nameless true [] =
      bindName (Evaluator.ofRoom rounds n) (some scope) true (some []) := rfl
  have empty : ∀ c, ([] : Text).getLast? ≠ some c := by simp
  change (valueStep (.ofRoom rounds (n + 1)) scope []).exec w = _
  unfold valueStep
  rw [Run.exec_bind_ok w (Run.exec_getStore w), if_neg fun both => empty _ both.1,
    if_neg fun both => empty _ both.1, evaluate_eq, Run.exec_bind_ok w (Run.exec_readItem_bare w _),
    Run.exec_bind_ok w expanded]
  change (bindText (.ofRoom rounds n) (some scope) nameless true [] >>= Variable.read).exec w = _
  rw [named, Run.exec_bind_ok w (bindName_single w _ List.not_mem_nil), unnamed]
  rfl

/-- To store nothing in a variable is to lose its value and to fail. -/
theorem assignVariable_nothing {r : Ref .variable} (held : w.store.Has r.cell) {home : Ref .scope}
    (at_ : (w.store.var r).home = some home) :
    (assignVariable (.ofRoom rounds (n + 2)) r (.bare .nothing)).exec w =
      (.error .badValue, { w with
        store := w.store.updateVariable r fun x => { x with content := .nothing }
        printed := Notice.noValue :: w.printed }) := by
  let later : World :=
    { w with store := w.store.updateVariable r fun x => { x with content := .nothing } }
  have written : later.store.var r = { w.store.var r with content := .nothing } :=
    Store.var_updateVariable_here _ held
  have fails :
    ((Evaluator.ofRoom rounds (n + 2)).bind (some home) nameless false .nothing).exec later =
      (.error .badValue, { later with printed := Notice.noValue :: later.printed }) := by
    change (bindName (.ofRoom rounds (n + 1)) (some home) false none).exec later = _
    have slack : (Evaluator.ofRoom rounds (n + 1)).slack = 2 * (Evaluator.ofRoom rounds n).room +
      1 + 1 := rfl
    rw [bindName, Run.exec_bind_ok later (Run.exec_getStore later), bindName.unknown,
      if_neg Bool.false_ne_true, slack]
    rfl
  unfold assignVariable
  rw [Run.exec_bind_ok w (Run.exec_readItem_bare w _),
    Run.exec_bind_ok w (Run.exec_changeStore w _)]
  change (Run.getStore >>= _).exec later = _
  rw [Run.exec_bind_ok later (Run.exec_getStore later), written]
  simp only [at_]
  rw [Run.exec_bind_error later fails]

variable {name file : Text} {node : Ref .node} {owner : Ref .scope} {r : Ref .variable}
  (isWord : IsWord name) (single : '.' ∉ name)
  (free : (Command.of name).verb? = none) (found : w.store.resolve scope name = some (owner, r))
  {text : Text}
  (shows : (w.store.var r).Shows text)
include isWord single free found shows

/-- A name alone, if it is no call, is an assignment of nothing. -/
theorem Site.exec_name_alone (noCall : '(' ∉ name) (held : w.store.Has r.cell) {home : Ref .scope}
    (at_ : (w.store.var r).home = some home) (unnamed : w.store.resolve scope [] = none) :
    (Site.mk (.ofRoom rounds (n + 2)) node scope file (.of name)).act.exec w =
      if (w.store.var r).tag = .function then (.error .missingPart, w)
      else (.error .badValue, { w with
        store := w.store.updateVariable r fun x => { x with content := .nothing }
        printed := Notice.noValue :: w.printed }) := by
  have whole : (Command.of name).whole = [name] := isWord.words
  have visible : w.store.isVisible scope name = true := by rw [isVisible_single single, found]; rfl
  have before : name.before '(' = name := Text.before_of_not_mem noCall
  let s : Site := ⟨.ofRoom rounds (n + 2), node, scope, file, .of name⟩
  have first : (s.word 0).exec w = (.ok name, w) := Site.exec_word whole rfl w
  have target : (s.variableOf (name.before '(')).exec w = (.ok r, w) := by
    rw [before]
    exact s.exec_variableOf single found
  change s.act.exec w = _
  unfold Site.act
  rw [free]
  change s.other.exec w = _
  unfold Site.other
  rw [Run.exec_bind_ok w (Run.exec_getStore w), Run.exec_bind_ok w first, before, if_pos visible,
    Site.callOrAssign, Run.exec_bind_ok w target, Run.exec_bind_ok w (Run.exec_getStore w)]
  by_cases function : (w.store.var r).tag = .function
  · rw [if_pos function, if_pos function]
    obtain ⟨v, reads, scalar⟩ := shows.scalar
    rw [Run.exec_bind_ok w (by rw [Variable.exec_read, reads])]
    cases scalar <;> rfl
  · have rest : Text.unwords (s.command.whole.drop 1) = [] := by
      change Text.unwords ((Command.of name).whole.drop 1) = []
      rw [whole]
      rfl
    have assigned : (s.store name .nothing).exec w =
        (.error .badValue, { w with
          store := w.store.updateVariable r fun x => { x with content := .nothing }
          printed := Notice.noValue :: w.printed }) := by
      rw [Site.store, assign, Run.exec_bind_ok w (Run.exec_readItem_bare w _),
        Run.exec_bind_ok w (Run.exec_getStore w), if_pos visible,
        Run.exec_bind_ok w (lookup_single _ w single found)]
      exact assignVariable_nothing rounds n held at_
    rw [if_neg function, if_neg function, rest, Site.valueOf]
    simp only
    rw [Run.exec_bind_ok w (exec_valueOf_empty rounds n unnamed), Run.exec_bind_error w assigned]

/-- A name that comes as far as the echo is shown. -/
theorem Site.exec_name_echoed (plain : PlainName name) (noCondition : isCondition name = false)
    (unknown : w.store.resolve scope (name.before '(') = none)
    (interactive : (w.store.node node).interactive = true) :
    (Site.mk (.ofRoom rounds (n + 2)) node scope file (.of name)).act.exec w =
      (.ok .done, { w with printed := (text ++ ['\n']) :: w.printed }) := by
  have whole : (Command.of name).whole = [name] := isWord.words
  have hidden : w.store.isVisible scope (name.before '(') = false := by
    have fewer : '.' ∉ name.before '(' := fun member => single (List.takeWhile_subset _ member)
    rw [isVisible_single fewer, unknown]
    rfl
  let s : Site := ⟨.ofRoom rounds (n + 2), node, scope, file, .of name⟩
  have first : (s.word 0).exec w = (.ok name, w) := Site.exec_word whole rfl w
  have reads : w.store.ReadsName scope name :=
    ⟨noCondition, fun both => by rw [hidden] at both; exact absurd both.2 (by simp)⟩
  have trimmed : Spelled.trimSpaces name = name :=
    Spelled.trimSpaces_flush isWord.head_ne_space fun last =>
      isWord.oneWord (List.mem_of_getLast? last)
  obtain ⟨v, given, _⟩ := shows.scalar
  have value : (s.valueOf name).exec w = (.ok v, w) := by
    change ((Evaluator.ofRoom rounds (n + 2)).valueOf scope name).exec w = _
    rw [read_plain rounds n w plain reads, trimmed, Store.readName, found, ← given]
  have shown : (s.shown name).exec w = (.ok text, w) := by
    have slack : s.ev.slack = 2 * (Evaluator.ofRoom rounds (n + 1)).room + 1 + 1 := rfl
    rw [Site.exec_shown value, slack, shows.showValue given]
  have texts : ([name].mapM s.shown).exec w = (.ok [text], w) := by
    rw [List.mapM_cons, Run.exec_bind_ok w shown]
    rfl
  have nonempty : name.isEmpty = false := by
    rw [List.isEmpty_eq_false_iff]
    exact isWord.nonempty
  have words : s.command.whole.filter (!·.isEmpty) = [name] := by
    change (Command.of name).whole.filter (!·.isEmpty) = [name]
    rw [whole]
    simp [nonempty]
  change s.act.exec w = _
  unfold Site.act
  rw [free]
  change s.other.exec w = _
  unfold Site.other
  rw [Run.exec_bind_ok w (Run.exec_getStore w), Run.exec_bind_ok w first, hidden,
    if_neg Bool.false_ne_true, if_pos interactive]
  have line : Text.unwords [text] = text := by simp [Text.unwords]
  rw [Site.echo, words, Run.exec_bind_ok w texts, line]
  rfl

end Statements

private theorem not_mem_blockWords {word : Text} (free : (Command.of word).verb? = none) :
    word ∉ Tree.blockWords := by
  intro member
  simp only [Tree.blockWords, List.mem_cons, List.not_mem_nil, or_false] at member
  rcases member with rfl | rfl | rfl | rfl | rfl
  all_goals exact absurd free (by decide)

/-- A name of a variable with a number or a text in it is typed alone in a session. If the name has
no opening parenthesis in it, its value is never shown: the variable is left without a value and a
notice is printed, or the variable was made for a function and nothing happens, and either way the
run ends with a fault. If it has one, and what stands before it means nothing, the value is printed
without its quotes, the run ends normally, and nothing is changed. -/
theorem typed_name_shown_or_lost (limits : Limits) (room : 3 ≤ limits.nesting) (w : World)
    (closed : w.store.Closed) (scope : Ref .scope) (held : w.store.Has scope.cell)
    (file name : Text) (isWord : IsWord name) (single : '.' ∉ name)
    (free : (Command.of name).verb? = none) (open_ : name ≠ Layout.closing)
    (unnamed : w.store.resolve scope [] = none) (owner : Ref .scope) (r : Ref .variable)
    (found : w.store.resolve scope name = some (owner, r))
    (registered : (w.store.var r).home ≠ none) (text : Text) (shows : (w.store.var r).Shows text) :
    let ran := (Program.run limits scope true file name).exec w
    ('(' ∉ name → ∃ nodes, ran =
      if (w.store.var r).tag = .function then (.error .missingPart,
        { w with store := { w.store with nodes } })
      else (.error .badValue, { w with
        store := { w.store.updateVariable r fun x => { x with content := .nothing } with nodes }
        printed := Notice.noValue :: w.printed })) ∧
    ('(' ∈ name → w.store.resolve scope (name.before '(') = none → PlainName name →
      isCondition name = false →
      ∃ nodes, ran =
        (.ok .done,
          { w with store := { w.store with nodes }, printed := (text ++
            ['\n']) :: w.printed })) := by
  obtain ⟨n, enough⟩ := Nat.exists_eq_add_of_le' room
  obtain ⟨home, at_⟩ := Option.ne_none_iff_exists'.mp registered
  have plain : name ∉ Layout.closing :: Tree.blockWords := by
    rw [List.mem_cons]
    rintro (same | opens)
    · exact open_ same
    · exact not_mem_blockWords free opens
  obtain ⟨node, nodes, interactive, ran⟩ :=
    Program.exec_word (n := n + 2) enough isWord plain scope true file w
  -- planting the program has made statements only, so that names mean what they meant
  let planted : World := { w with store := { w.store with nodes } }
  have scopes : planted.store.scopes = w.store.scopes := rfl
  have tables : planted.store.tables = w.store.tables := rfl
  have meaning := Store.resolve_congr scopes tables scope
  have known : planted.store.resolve scope name = some (owner, r) := (meaning name).trans found
  refine ⟨fun noCall => ⟨nodes, ?_⟩, fun _ unknown plain noCondition => ⟨nodes, ?_⟩⟩
  · rw [ran]
    exact Site.exec_name_alone limits.rounds n (w := planted) isWord single free known shows noCall
      (closed.resolve held found).2 at_
      ((meaning []).trans unnamed)
  · rw [ran]
    exact Site.exec_name_echoed limits.rounds n (w := planted) isWord single free known shows
      plain noCondition
      ((meaning _).trans unknown) interactive

def Store.parenthesized : Store :=
  ({} : Store).newScope none |>.2.bindName ⟨0⟩ "x(y".toList (textVariable "x(y".toList ⟨0⟩ ['a'])

private theorem Store.closed_parenthesized : parenthesized.Closed := by
  have root : (({} : Store).newScope none).2.Closed :=
    closed_empty.newScope (fun _ none => nomatch none)
  apply root.bindName
  change (({} : Store).newScope none).2.HasAll [⟨.scope, 0⟩]
  decide

/-- The same text is lost under a plain name and shown under the other. -/
theorem typed_name_letter :
    ((Program.run ⟨3, 0⟩ ⟨0⟩ true ['/'] ['x']).exec
      { store := Store.single (.text ['a']) .text }).1.isOk = false ∧
      ((Program.run ⟨3, 0⟩ ⟨0⟩ true ['/'] "x(y".toList).exec
        { store := Store.parenthesized }).2.printed = [['a', '\n']] := by
  have word : ∀ name : Text, name = ['x'] ∨ name = "x(y".toList → IsWord name := by
    rintro name (rfl | rfl)
    all_goals exact ⟨by decide, by decide, by decide, by decide, fun c => by cases c <;> decide⟩
  obtain ⟨lost, _⟩ := typed_name_shown_or_lost ⟨3, 0⟩ (Nat.le_refl 3)
    { store := Store.single (.text ['a']) .text }
    (Store.closed_single .text rfl) ⟨0⟩ (by decide) ['/'] ['x'] (word _ (.inl rfl)) (by decide)
    (by decide) (by decide) (by decide)
    ⟨0⟩ ⟨0⟩ (by decide) (by decide) ['a'] (.text ['a'] rfl)
  obtain ⟨_, shown⟩ := typed_name_shown_or_lost ⟨3, 0⟩ (Nat.le_refl 3)
    { store := Store.parenthesized } Store.closed_parenthesized
    ⟨0⟩ (by decide) ['/'] "x(y".toList (word _ (.inr rfl)) (by decide) (by decide) (by decide)
      (by decide) ⟨0⟩ ⟨0⟩ (by decide) (by decide)
    ['a'] (.text ['a'] rfl)
  obtain ⟨_, ran⟩ := lost (by decide)
  obtain ⟨_, echoed⟩ := shown (by decide) (by decide) (by constructor <;> decide) (by decide)
  refine ⟨?_, by rw [echoed]; rfl⟩
  rw [ran, if_neg (by decide)]
  rfl

end CommandScript

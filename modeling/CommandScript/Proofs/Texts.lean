import CommandScript.Proofs.Lines
import CommandScript.Proofs.Literals
import CommandScript.Proofs.Registration
import CommandScript.Proofs.Writing

/-! Variables that hold texts. A text is read with quotes around it and loses them where it is
stored, joined, printed or written to a file, whatever its own characters are. -/
namespace CommandScript

/-- A name that can be declared and read: no space or point, no sign and no bracket, and no literal
or word with a meaning of its own. -/
structure Identifier (name : Text) : Prop where
  nonempty : name ≠ []
  plain : ∀ c ∈ name, c ∉ " \n.=<>()[]'\";\x7b\x7d".toList
  noInt : Number.readInt? name = none
  noFloat : Number.readFloat? name = none
  noWord : name ∉ "local".toList :: Literal.inputWord :: Literal.fixed.map (·.1)

namespace Identifier

variable {name : Text} (identifier : Identifier name)
include identifier

theorem not_mem {c : Char} (special : c ∈ " \n.=<>()[]'\";\x7b\x7d".toList) : c ∉ name :=
  fun member => identifier.plain c member special

theorem last_ne {c : Char} (special : c ∈ " \n.=<>()[]'\";\x7b\x7d".toList) :
    name.getLast? ≠ some c :=
  fun last => identifier.not_mem special (List.mem_of_getLast? last)

theorem head_ne {c : Char} (special : c ∈ " \n.=<>()[]'\";\x7b\x7d".toList) : name.head? ≠ some c :=
  fun first => identifier.not_mem special (List.mem_of_head? first)

theorem newName : NewName name where
  nonempty := identifier.nonempty
  single := identifier.not_mem (by simp)
  oneWord := identifier.not_mem (by simp)
  noSign := identifier.not_mem (by simp)
  noElement := identifier.last_ne (by simp)
  notLocal := fun same => identifier.noWord (same ▸ List.mem_cons_self)

theorem plainPath : PlainPath name where
  noElement := identifier.last_ne (by simp)
  noCall := identifier.last_ne (by simp)
  noQuotes := by
    rw [← Bool.not_eq_true]
    intro quoted
    rcases Spelled.getLast?_of_isQuoted quoted with last | last
    · exact identifier.last_ne (by simp) last
    · exact identifier.last_ne (by simp) last
  noInt := identifier.noInt
  noFloat := identifier.noFloat
  noCondition := by
    simp [isCondition, identifier.not_mem (c := '=') (by simp),
      identifier.not_mem (c := '>') (by simp), identifier.not_mem (c := '<') (by simp)]
  noInput := fun same => identifier.noWord (by simp [same])
  noWord := by
    rw [List.lookup_eq_none_iff]
    intro entry listed
    rw [bne_iff_ne]
    rintro rfl
    exact identifier.noWord (by simp [List.mem_map_of_mem listed])
  trimmed := by
    apply Spelled.trimSpaces_flush
    · exact identifier.head_ne (by simp)
    · exact identifier.last_ne (by simp)

end Identifier

/-! ### What names mean -/

namespace Store

variable {st later : Store} {scope target : Ref .scope} {name : Text} {s : Text}

theorem resolve_bindName_other {other : Text} (apart : other ≠ name) (target scope : Ref .scope)
    (x : Variable) : (st.bindName target name x).resolve scope other = st.resolve scope other := by
  simp only [resolve, ancestors_congr (st.bindName_scopes target name x),
    find?_bindName_other apart]

theorem resolve_bindName_here (closed : st.Closed) (held : st.Has scope.cell) (name : Text)
    (x : Variable) :
    (st.bindName scope name x).resolve scope name = some (scope, ⟨st.vars.size⟩) := by
  apply resolve_self
  rw [tableOf_bindName scope scope name x (closed.table held), if_pos rfl, Table.find?_insert_here]

def IsBlank (st : Store) (scope : Ref .scope) : Prop :=
  (st.scope scope).parent = none ∧ st.tableOf scope = []

theorem IsBlank.resolve (blank : st.IsBlank scope) (name : Text) :
    st.resolve scope name = none := by
  have alone : st.ancestors scope = [scope] := by
    unfold ancestors
    cases st.scopes.size with
    | zero => rfl
    | succ n => rw [outward, blank.1]
  rw [Store.resolve, alone]
  simp [blank.2, Table.find?]

theorem IsBlank.extends (blank : st.IsBlank scope) (closed : st.Closed) (held : st.Has scope.cell)
    (extended : st.Extends later) : later.IsBlank scope := by
  have same : later.scope scope = st.scope scope := (extended.scopes scope held).2
  have table : later.table (st.scope scope).table = st.table (st.scope scope).table :=
    (extended.tables _ (closed.table held)).2
  refine ⟨by rw [same, blank.1], ?_⟩
  rw [tableOf, same, table]
  exact blank.2

theorem blank_newScope (st : Store) : (st.newScope none).2.IsBlank (st.newScope none).1 := by
  refine ⟨?_, st.tableOf_newScope none⟩
  rw [Store.scope]
  exact congrArg Scope.parent (Arena.read_alloc_fresh _ _)

def HasText (st : Store) (scope : Ref .scope) (name s : Text) : Prop :=
  ∃ owner r, st.resolve scope name = some (owner, r) ∧ st.Has r.cell ∧ (st.var r).tag = .text ∧
  (st.var r).content = .text s

def textVariable (name : Text) (home : Ref .scope) (s : Text) : Variable :=
  { name := some name, home := some home, content := .text s, tag := .text }

private theorem HasText.bindName_other {other : Text} (has : st.HasText scope other s)
    (apart : other ≠ name) (target : Ref .scope) (x : Variable) :
    (st.bindName target name x).HasText scope other s := by
  obtain ⟨owner, r, found, held, tag, content⟩ := has
  refine ⟨owner, r, ?_, held.mono (grows_bindName _ _ _ _), ?_, ?_⟩
  · rw [resolve_bindName_other apart, found]
  · rw [var_bindName_old held, tag]
  · rw [var_bindName_old held, content]

theorem hasText_fresh {owner : Ref .scope}
    (found : (st.bindName target name (textVariable name target s)).resolve scope name =
      some (owner, ⟨st.vars.size⟩)) :
    (st.bindName target name (textVariable name target s)).HasText scope name s := by
  refine ⟨owner, _, found, ?_, ?_, ?_⟩
  · exact Arena.holds_alloc_fresh st.vars _
  · rw [var_bindName_fresh]
    rfl
  · rw [var_bindName_fresh]
    rfl

/-- Some names mean variables with known texts, and others mean nothing. -/
structure Knows (st : Store) (scope : Ref .scope) (texts : List (Text × Text))
    (free : List Text) : Prop where
  closed : st.Closed
  held : st.Has scope.cell
  texts : ∀ entry ∈ texts, st.HasText scope entry.1 entry.2
  free : ∀ name ∈ free, st.resolve scope name = none

namespace Knows

variable {texts : List (Text × Text)} {free : List Text}

theorem mono {fewer : List (Text × Text)} {less : List Text} (knows : st.Knows scope texts free)
    (known : fewer ⊆ texts) (unknown : less ⊆ free) : st.Knows scope fewer less :=
  ⟨knows.closed, knows.held, fun entry member => knows.texts entry (known member),
    fun name member => knows.free name (unknown member)⟩

theorem apart (knows : st.Knows scope texts free) (unknown : st.resolve scope name = none)
    {entry : Text × Text} (member : entry ∈ texts) : entry.1 ≠ name := by
  rintro rfl
  obtain ⟨owner, r, found, _⟩ := knows.texts entry member
  rw [unknown] at found
  cases found

/-- A free name that is bound to a text is known. -/
theorem bindName (knows : st.Knows scope texts (name :: free)) (new : name ∉ free)
    (inside : target ∈ st.ancestors scope) :
    (st.bindName target name (textVariable name target s)).Knows scope
      ((name, s) :: texts) free := by
  have unknown := knows.free name List.mem_cons_self
  have place := knows.closed.ancestors knows.held inside
  refine ⟨?_, knows.held.mono (grows_bindName _ _ _ _), ?_, ?_⟩
  · exact knows.closed.bindName fun c member => List.mem_singleton.mp member ▸ place
  · intro entry member
    rcases List.mem_cons.mp member with rfl | old
    · obtain ⟨owner, found⟩ :=
        resolve_bindName_new knows.closed (textVariable name target s) knows.held inside unknown
      exact hasText_fresh found
    · exact (knows.texts entry old).bindName_other (knows.apart unknown old) target _
  · intro other member
    have apart : other ≠ name := by
      rintro rfl
      exact new member
    rw [resolve_bindName_other apart]
    exact knows.free other (List.mem_cons_of_mem _ member)

private theorem withNodes (knows : st.Knows scope texts free) {nodes : Arena .node Node}
    (closed : ({ st with nodes } : Store).Closed) :
    ({ st with nodes } : Store).Knows scope texts free := by
  have scopes : ({ st with nodes } : Store).scopes = st.scopes := rfl
  have tables : ({ st with nodes } : Store).tables = st.tables := rfl
  have meaning := resolve_congr scopes tables scope
  refine ⟨closed, knows.held, ?_, ?_⟩
  · intro entry member
    obtain ⟨owner, r, found, rest⟩ := knows.texts entry member
    exact ⟨owner, r, (meaning entry.1).trans found, rest⟩
  · intro name member
    rw [meaning, knows.free name member]

/-- Nothing is known in a new scope. -/
theorem fresh (closed : st.Closed) (free : List Text) :
    (st.newScope none).2.Knows (st.newScope none).1 [] free :=
  ⟨closed.newScope (by simp), (st.has_newScope none _).mpr
    (.inr rfl), by simp, fun name _ => st.blank_newScope.resolve name⟩

/-- Planting a row of commands changes nothing about names. -/
theorem planted (knows : st.Knows scope texts free) (interactive : Bool) (lines : List Text) :
    (st.plantProgram scope interactive (Tree.row 0 lines)).2.Knows scope texts free := by
  have closed :=
    ((plantProgram_sound interactive (Tree.row 0 lines) knows.closed knows.held).tame
      { store := st } _ _ rfl rfl).2.1
  change (st.plantProgram scope interactive (Tree.row 0 lines)).2.Closed at closed
  obtain ⟨nodes, same⟩ := st.plantProgram_row scope interactive lines
  rw [same] at closed ⊢
  exact knows.withNodes closed

end Knows

end Store

/-- A program that is read as a row of commands, which can be carried out whatever statements there
are, is run to its end. -/
theorem Store.Knows.exec_run {limits : Limits} {n : Nat} (room : limits.nesting = n + 1)
    {scope : Ref .scope} (interactive : Bool) {file source : Text} {lines : List Text} {w : World}
    {texts : List (Text × Text)} {free : List Text} (knows : w.store.Knows scope texts free)
    (read : (Tree.parse (Layout.flatten source)).1 = Tree.row 0 (lines ++ [[]]) ∧
      ∀ limit, 0 < limit → Program.isTooDeep limit (Layout.flatten source) = false)
    {post : World → Prop}
    (performs : ∀ st : Store, st.Knows scope texts free →
      ∃ last, Performs (.ofRoom limits.rounds n) scope file lines { w with store := st } last ∧
      last.store.resolve scope [] = none ∧ post last) :
    ∃ last, (Program.run limits scope interactive file source).exec w = (.ok .done, last) ∧
    post last := by
  obtain ⟨parsed, shallow⟩ := read
  obtain ⟨last, acts, unnamed, given⟩ := performs _ (knows.planted interactive (lines ++ [[]]))
  have ends : Performs (.ofRoom limits.rounds n) scope file [[]] last last :=
    .single (fun node childless => Site.exec_empty rfl childless unnamed) rfl
  exact ⟨last, Program.exec_row room parsed (shallow _ (by omega)) (acts.append ends), given⟩

/-! ### Expressions and assignments -/

section Values

variable (rounds n : Nat) {scope : Ref .scope} {name : Text} {s : Text} {w : World}

theorem Store.HasText.exec_valueOf (has : w.store.HasText scope name s)
    (identifier : Identifier name) :
    ((Evaluator.ofRoom rounds (n + 2)).valueOf scope name).exec w =
      (.ok (.text s.encloseSingle), w) := by
  obtain ⟨owner, r, found, _, tag, content⟩ := has
  have path : w.store.findPath scope name = some r := by
    rw [Store.findPath, List.splitOn_eq_singleton identifier.newName.single]
    simp only [Store.find, found, Option.map_some]
  rw [read_path rounds n identifier.plainPath path, Variable.reading, if_pos tag, content]

/-- The word for a line of input takes the next line, as a text. -/
theorem exec_valueOf_input (scope : Ref .scope) {rest : List (Option Text)}
    (lines : w.input.lines = some s :: rest) :
    ((Evaluator.ofRoom rounds (n + 2)).valueOf scope Literal.inputWord).exec w =
      (.ok (.text s.encloseSingle), { w with input := { w.input with lines := rest } }) := by
  have read : Run.readLine.exec w =
      (.ok s, { w with input := { w.input with lines := rest } }) := by
    rw [Run.readLine, Run.exec_bind_ok w (Run.exec_get w), lines]
    rfl
  have line : (do return (← Run.readLine).enclose : Run Text).exec w =
      (.ok s.enclose, { w with input := { w.input with lines := rest } }) := Run.exec_bind_ok w read
  have expanded : (Literal.expandValue (.text Literal.inputWord)).exec w =
      (.ok (.text s.enclose), { w with input := { w.input with lines := rest } }) := by
    have taken : (Literal.expand Literal.inputWord).exec w =
        (.ok s.enclose, { w with input := { w.input with lines := rest } }) := by
      rw [Literal.expand, if_pos rfl, Run.exec_tryCatch, line]
    exact Run.exec_bind_ok w taken
  change (valueStep (.ofRoom rounds (n + 1)) scope Literal.inputWord).exec w = _
  unfold valueStep
  rw [Run.exec_bind_ok w (Run.exec_getStore w), if_neg fun both => absurd both.1 (by decide),
    if_neg fun both => absurd both.1 (by decide), evaluate_eq,
    Run.exec_bind_ok w (Run.exec_readItem_bare w _), Run.exec_bind_ok w expanded]
  change (bindText (.ofRoom rounds n) (some scope) nameless true s.enclose >>= Variable.read).exec
    _ = _
  rw [bindText, if_pos (Spelled.isQuoted_enclose s), pure_bind, Spelled.inner_enclose]
  rfl

variable {texts : List (Text × Text)} {free : List Text}

/-- A free name that a text is assigned to is known. -/
theorem Store.Knows.exec_assign (knows : w.store.Knows scope texts (name :: free))
    (new : name ∉ free) (identifier : Identifier name) (isGlobal : Bool) {t : Text}
    (quoted : Spelled.isQuoted t = true) (two : 2 ≤ t.length) :
    ∃ st, (assign (.ofRoom rounds (n + 1)) scope isGlobal name (.bare (.text t))).exec w =
      (.ok (), { w with store := st }) ∧
      st.Knows scope ((name, Spelled.inner t) :: texts) free ∧ st.nodes = w.store.nodes := by
  have inside := w.store.targetOf_mem_ancestors scope isGlobal
  have plain := identifier.newName
  refine ⟨_, assign_new rounds n w isGlobal plain.single plain.nonempty plain.noElement
    (.text t quoted two)
    (knows.free name List.mem_cons_self), knows.bindName new inside, rfl⟩

end Values

/-! ### Commands -/

def summing (name first second : Text) : Text := Text.unwords ["add".toList, name, first, second]

def printing (name : Text) : Text := Text.unwords ["print".toList, name]

def writing (path name : Text) : Text := Text.unwords ["file".toList, "write".toList, path, name]

def fetching (path name : Text) : Text := Text.unwords ["file".toList, "read".toList, path, name]

section Commands

variable (rounds n : Nat) {scope : Ref .scope} (file : Text) {w : World}
  {texts : List (Text × Text)} {free : List Text}

theorem Site.exec_word {s : Site} {parts : List Text} (whole : s.command.whole = parts) {i : Nat}
    {part : Text} (there : parts[i]? = some part) (w : World) :
    (s.word i).exec w = (.ok part, w) := by
  rw [Site.word, whole]
  exact Run.exec_nth there w

theorem Site.exec_variableOf (s : Site) {name : Text} (single : '.' ∉ name) {owner : Ref .scope}
    {r : Ref .variable} {w : World} (found : w.store.resolve s.scope name = some (owner, r)) :
    (s.variableOf name).exec w = (.ok r, w) := by
  rw [Site.variableOf, Run.exec_bind_ok w (lookup_single _ w single found)]
  rfl

/-- A command with known words does what its first word says. -/
theorem Performs.of_words {ev : Evaluator} {file word : Text} {more : List Text} (verb : Verb)
    {last : World} (filled : more ≠ []) (oneWord : ∀ part ∈ word :: more, ' ' ∉ part)
    (plain : ∀ c ∈ word, c ∉ [' ', '=', '(', ')'])
    (known : (Command.verbs.findSome? fun (_, first, verb) => if word = first then some verb
      else none) = some verb)
    (runs : ∀ site : Site, site.ev = ev → site.scope = scope → site.command.whole = word :: more →
      (site.runVerb verb).exec w = (.ok .done, last))
    (kept : last.store.nodes = w.store.nodes) :
    Performs ev scope file [Text.unwords (word :: more)] w last := by
  refine .single (fun node _ => ?_) kept
  have found : (Command.of (Text.unwords (word :: more))).verb? = some verb := by
    rw [Text.unwords_cons word filled, Command.verb?_word plain, known]
  have whole : (Command.of (Text.unwords (word :: more))).whole = word :: more :=
    Text.words_unwords (List.cons_ne_nil _ _) oneWord
  rw [Site.act, found]
  exact runs ⟨ev, node, scope, file, .of (Text.unwords (word :: more))⟩ rfl rfl whole

/-- A free name is set to an expression that has a text for its value. -/
theorem Store.Knows.performs_setting {name text s : Text} {after : World}
    (knows : w.store.Knows scope texts (name :: free)) (new : name ∉ free)
    (identifier : Identifier name) (front : text.head? ≠ some ' ')
    (back : text.getLast? ≠ some ' ')
    (value : ((Evaluator.ofRoom rounds (n + 2)).valueOf scope text).exec w =
      (.ok (.text s.encloseSingle), after))
    (same : after.store = w.store) :
    ∃ st, Performs (.ofRoom rounds (n + 2)) scope file [setting name text] w
      { after with store := st } ∧
      st.Knows scope ((name, s) :: texts) free ∧ st.nodes = w.store.nodes := by
  rw [← same] at knows ⊢
  obtain ⟨st, assigned, known, kept⟩ :=
    knows.exec_assign rounds (n + 1) new identifier (!file.isEmpty)
    (Spelled.isQuoted_encloseSingle s) (by simp [Text.encloseSingle])
  rw [Spelled.inner_encloseSingle] at known
  refine ⟨st, .single (fun node _ => ?_) (by rw [kept, same]), known, kept⟩
  rw [Site.exec_setting rfl identifier.newName front back, Site.valueOf, Run.exec_bind_ok w value,
    Run.exec_bind_ok _ assigned]
  rfl

private theorem Sequence.exec_dropQuotes (s : Text) (w : World) :
    (dropQuotes (.text s.encloseSingle)).exec w = (.ok (.text s), w) := by
  have dropped : Spelled.dropQuotes s.encloseSingle = s := by
    simp [Spelled.dropQuotes, Text.encloseSingle, Spelled.isQuote, Spells.spells]
  rw [dropQuotes, shorten, dropped]
  rfl

/-- A free name is set to two texts joined. -/
theorem Store.Knows.performs_sum {name first second a b : Text}
    (knows : w.store.Knows scope texts (name :: free)) (new : name ∉ free)
    (identifier : Identifier name) (left : Identifier first) (right : Identifier second)
    (one : (first, a) ∈ texts) (two : (second, b) ∈ texts) :
    ∃ st, Performs (.ofRoom rounds (n + 2)) scope file [summing name first second] w
      { w with store := st } ∧
      st.Knows scope ((name, a ++ b) :: texts) free ∧ st.nodes = w.store.nodes := by
  obtain ⟨st, assigned, known, kept⟩ :=
    knows.exec_assign rounds (n + 1) new identifier true (Spelled.isQuoted_enclose (a ++ b))
    (by simp [Text.enclose]; omega)
  rw [Spelled.inner_enclose] at known
  refine ⟨st, ?_, known, kept⟩
  refine Performs.of_words .add (by simp) ?_ (by simp) (by decide) ?_ kept
  · simp [identifier.newName.oneWord, left.newName.oneWord, right.newName.oneWord]
  · intro site level place whole
    have leftValue : (site.valueOf first).exec w = (.ok (.text a.encloseSingle), w) := by
      rw [Site.valueOf, level, place]
      exact (knows.texts _ one).exec_valueOf rounds n left
    have rightValue : (site.valueOf second).exec w = (.ok (.text b.encloseSingle), w) := by
      rw [Site.valueOf, level, place]
      exact (knows.texts _ two).exec_valueOf rounds n right
    have joined : (Site.sum (.text a) (.text b)).exec w = (.ok (.text (a ++ b).enclose), w) := rfl
    have stored : (site.store name (.text (a ++ b).enclose)).exec w =
        (.ok (), { w with store := st }) := by
      rw [Site.store, level, place]
      exact assigned
    change site.add.exec w = _
    rw [Site.add, Run.exec_bind_ok w (Site.exec_word whole rfl w), Run.exec_bind_ok w leftValue,
      Run.exec_bind_ok w (Sequence.exec_dropQuotes a w),
      Run.exec_bind_ok w (Site.exec_word whole rfl w), Run.exec_bind_ok w rightValue,
      Run.exec_bind_ok w (Sequence.exec_dropQuotes b w),
      Run.exec_bind_ok w (Site.exec_word whole rfl w), Run.exec_bind_ok w joined,
      Run.exec_bind_ok w stored]
    rfl

/-- A text is printed without its quotes. -/
theorem Store.HasText.performs_print {name s : Text} (has : w.store.HasText scope name s)
    (identifier : Identifier name) :
    Performs (.ofRoom rounds (n + 2)) scope file [printing name] w
      { w with printed := s :: w.printed } := by
  refine Performs.of_words .print (by simp) ?_ (by simp) (by decide) ?_ rfl
  · simp [identifier.newName.oneWord]
  · intro site level place whole
    have value : (site.valueOf name).exec w = (.ok (.text s.encloseSingle), w) := by
      rw [Site.valueOf, level, place]
      exact has.exec_valueOf rounds n identifier
    have text : (Run.ofExcept (w.store.showValue site.ev.slack (.text s.encloseSingle))).exec w =
      (.ok s.encloseSingle, w) := rfl
    have shown : (site.shown name).exec w = (.ok s, w) := by
      rw [Site.shown, Run.exec_bind_ok w value, Run.exec_bind_ok w (Run.exec_getStore w),
        Run.exec_bind_ok w text, if_pos (Spelled.isQuoted_encloseSingle s),
        Spelled.inner_encloseSingle]
      rfl
    have all : ((["print".toList, name].drop 1).mapM site.shown).exec w = (.ok [s], w) := by
      rw [List.drop_one, List.tail_cons, List.mapM_cons, Run.exec_bind_ok w shown]
      rfl
    change site.print.exec w = _
    rw [Site.print, whole, Run.exec_bind_ok w all, show Text.unwords [s] = s by simp [Text.unwords]]
    rfl

inductive NamesFile (st : Store) (scope : Ref .scope) : Text → Text → Prop where
  | literal {word path : Text} (denotes : Denotes word (.text path.encloseSingle)) :
      NamesFile st scope word path
  | held {word path : Text} (identifier : Identifier word) (has : st.HasText scope word path) :
      NamesFile st scope word path

theorem NamesFile.exec_valueOf {word path : Text} (names : NamesFile w.store scope word path) :
    ((Evaluator.ofRoom rounds (n + 2)).valueOf scope word).exec w =
      (.ok (.text path.encloseSingle), w) := by
  cases names with
  | literal denotes => exact denotes.exec_valueOf rounds n scope w
  | held identifier has => exact has.exec_valueOf rounds n identifier

private theorem Site.exec_innerText (t : Text) (w : World) :
    (innerText (.text t.encloseSingle)).exec w = (.ok (some t), w) := by
  rw [innerText, Spelled.inner_encloseSingle]
  rfl

/-- A text is written to a file without its quotes. -/
theorem NamesFile.performs_write {word path name s : Text} {files : FileTree}
    (names : NamesFile w.store scope word path) (oneWord : ' ' ∉ word)
    (has : w.store.HasText scope name s) (identifier : Identifier name)
    (written : w.files.write path s = .ok files) :
    Performs (.ofRoom rounds (n + 2)) scope file [writing word name] w { w with files } := by
  have changed : (Run.writeFile path s).exec w = (.ok (), { w with files }) := by
    rw [Run.writeFile, Run.changeFiles, Run.exec_bind_ok w (Run.exec_get w), written]
    rfl
  have pathText : (Site.textOf (some path)).exec w = (.ok path, w) := rfl
  refine Performs.of_words .file (by simp) ?_ (by simp) (by decide) ?_ rfl
  · simp [oneWord, identifier.newName.oneWord]
  · intro site level place whole
    have pathValue : (site.valueOf word).exec w = (.ok (.text path.encloseSingle), w) := by
      rw [Site.valueOf, level, place]
      exact names.exec_valueOf rounds n
    have value : (site.valueOf name).exec w = (.ok (.text s.encloseSingle), w) := by
      rw [Site.valueOf, level, place]
      exact has.exec_valueOf rounds n identifier
    change site.useFile.exec w = _
    rw [Site.useFile, Run.exec_bind_ok w (Site.exec_word whole rfl w),
      if_neg (by decide), if_pos rfl, Run.exec_bind_ok w (Site.exec_word whole rfl w),
      Run.exec_bind_ok w pathValue, Run.exec_bind_ok w (Site.exec_innerText path w),
      Run.exec_bind_ok w (Site.exec_word whole rfl w), Run.exec_bind_ok w value,
      Run.exec_bind_ok w (Site.exec_innerText s w), Run.exec_bind_ok w pathText, Option.getD_some,
      Run.exec_bind_ok w changed]
    rfl

/-- The text of a file is stored in a variable. -/
theorem NamesFile.performs_fetch {word path name s : Text}
    (names : NamesFile w.store scope word path) (oneWord : ' ' ∉ word)
    (identifier : Identifier name) (content : w.files.read path = .ok s) :
    Performs (.ofRoom rounds (n + 2)) scope file [fetching word name] w
      { w with store := w.store.bindName scope name (Store.textVariable name scope s) } := by
  have read : (Run.readFile path).exec w = (.ok s, w) := by
    rw [Run.readFile, Run.exec_bind_ok w (Run.exec_get w), content]
    rfl
  have pathText : (Site.textOf (some path)).exec w = (.ok path, w) := rfl
  have settled : (Value.text s.encloseSingle).Settled w.store :=
    .text _ (Spelled.isQuoted_encloseSingle s) (by simp [Text.encloseSingle])
  refine Performs.of_words .file (by simp) ?_ (by simp) (by decide) ?_ rfl
  · simp [oneWord, identifier.newName.oneWord]
  · intro site level place whole
    have pathValue : (site.valueOf word).exec w = (.ok (.text path.encloseSingle), w) := by
      rw [Site.valueOf, level, place]
      exact names.exec_valueOf rounds n
    have stored : (declare site.ev site.scope name (.bare (.text s.encloseSingle))).exec w =
        (.ok (),
          { w with store := w.store.bindName scope name (Store.textVariable name scope s) }) := by
      rw [level, place, declare_settled rounds (n + 1) w identifier.newName.single settled,
        Variable.ofValue, Spelled.inner_encloseSingle]
      rfl
    change site.useFile.exec w = _
    rw [Site.useFile, Run.exec_bind_ok w (Site.exec_word whole rfl w), if_pos rfl,
      Run.exec_bind_ok w (Site.exec_word whole rfl w), Run.exec_bind_ok w pathValue,
      Run.exec_bind_ok w (Site.exec_innerText path w),
      Run.exec_bind_ok w (Site.exec_word whole rfl w), Run.exec_bind_ok w pathText,
      Run.exec_bind_ok w read, Run.exec_bind_ok w stored]
    rfl

end Commands

end CommandScript

import CommandScript.Proofs.RoundTrip
import CommandScript.Proofs.Sequencing
import CommandScript.Proofs.Settings

/-! Programs that are rows of commands without blocks. A command is known by its first word, a row
is planted as a row of statements in one scope, and if each command does its part, running the
program carries them out one after the other. -/
namespace CommandScript

/-! ### Commands by their words -/

namespace Text

theorem words_unwords {parts : List Text} (nonempty : parts ≠ [])
    (oneWord : ∀ part ∈ parts, ' ' ∉ part) : (unwords parts).words = parts :=
  List.splitOn_intercalate ' ' oneWord nonempty

theorem unwords_cons (first : Text) {rest : List Text} (more : rest ≠ []) :
    unwords (first :: rest) = first ++ ' ' :: unwords rest := by
  obtain ⟨second, others, rfl⟩ := List.exists_cons_of_ne_nil more
  rw [unwords, List.intercalate_cons_cons, List.append_assoc]
  rfl

theorem words_unwords_append {parts : List Text} (nonempty : parts ≠ [])
    (oneWord : ∀ part ∈ parts, ' ' ∉ part) (rest : Text) :
    (unwords parts ++ ' ' :: rest).words = parts ++ rest.words := by
  rw [words, splitOn_append, ← words, words_unwords nonempty oneWord, ← words]

/-- What stands between two spaces is a word. -/
theorem mem_words_of_infix {part text : Text} (oneWord : ' ' ∉ part)
    (found : ' ' :: (part ++ [' ']) <:+: text) : part ∈ text.words := by
  obtain ⟨front, back, rfl⟩ := found
  have shape : front ++ ' ' :: (part ++ [' ']) ++ back =
    front ++ ' ' :: (part ++ ' ' :: back) := by simp
  rw [words, shape, List.splitOn, List.splitOnP_append_cons _ _ (by simp)]
  apply List.mem_append_right
  have rest : List.splitOnP (fun x => x == ' ') (part ++ ' ' :: back) = part :: back.splitOn ' ' :=
    splitOn_append_cons oneWord back
  rw [rest]
  exact List.mem_cons_self

private theorem nil_mem_words_of_last {text : Text} (last : text.getLast? = some ' ') :
    [] ∈ text.words := by
  obtain ⟨front, rfl⟩ := List.getLast?_eq_some_iff.mp last
  rw [words, List.splitOn, List.splitOnP_append_cons _ _ (by simp)]
  apply List.mem_append_right
  simp

end Text

namespace Command

/-- All readings of a command agree on a first word that has nothing to be left out. -/
theorem head?_view {word : Text} (plain : ∀ c ∈ word, c ∉ [' ', '=', '(', ')']) (rest : Text)
    (view : View) : ((Command.of (word ++ ' ' :: rest)).view view).head? = some word := by
  have oneWord : ' ' ∉ word := fun member => plain _ member (by simp)
  have begins : ∀ rest : Text, (Text.words (word ++ ' ' :: rest)).head? = some word := by
    intro rest
    rw [Text.head?_words, Text.before_append_self oneWord]
  cases view with
  | whole => exact begins rest
  | spread =>
    have kept : (word ++ ' ' :: rest).filter (· != '=') =
        word ++ ' ' :: rest.filter (· != '=') := by
      rw [List.filter_append, List.filter_eq_self.mpr]
      · rfl
      · intro c member
        rw [bne_iff_ne]
        rintro rfl
        exact plain _ member (by simp)
    have space : ∃ more, Text.replace "  ".toList [' '] (' ' :: rest.filter (· != '=')) =
        ' ' :: more := by
      by_cases found : "  ".toList <+: ' ' :: rest.filter (· != '=')
      · obtain ⟨more, same⟩ := found
        rw [← same, Text.replace_part_append _ (by simp)]
        exact ⟨_, rfl⟩
      · exact ⟨_, Text.replace_cons _ _ _ found⟩
    obtain ⟨more, spaced⟩ := space
    rw [view, Command.of, kept, Text.replace_append_of_head _ rfl oneWord, spaced]
    exact begins more
  | bare =>
    have kept : (word ++ ' ' :: rest).filter (fun c => c != '(' && c != ')') =
        word ++ ' ' :: rest.filter (fun c => c != '(' && c != ')') := by
      rw [List.filter_append, List.filter_eq_self.mpr]
      · rfl
      · intro c member
        have other := plain c member
        simp only [List.mem_cons, List.not_mem_nil, or_false, not_or] at other
        simp [other]
    rw [view, Command.of, kept]
    exact begins _

theorem verb?_word {word : Text} (plain : ∀ c ∈ word, c ∉ [' ', '=', '(', ')']) (rest : Text) :
    (Command.of (word ++ ' ' :: rest)).verb? = verbs.findSome? fun (_, first, verb) =>
      if word = first then some verb else none := by
  simp only [verb?, head?_view plain, Option.some.injEq]

end Command

/-! ### Rows of statements -/

def Tree.row (index : Nat) : List Text → List Tree
  | [] => []
  | line :: rest => .leaf line index :: row (index + 1) rest

private theorem Tree.row_append (index : Nat) (first second : List Text) :
    row index (first ++ second) = row index first ++ row (index + first.length) second := by
  induction first generalizing index with
  | nil => rfl
  | cons line rest ih =>
    rw [List.cons_append, row, row, ih, List.length_cons, List.cons_append, Nat.add_right_comm,
      Nat.add_assoc]

def Store.IsRow (st : Store) (scope : Ref .scope) : List Text → List (Ref .node) → Prop :=
  List.Forall₂ fun line r => (st.node r).command = line ∧ (st.node r).scope = scope ∧
  (st.node r).children = []

namespace Store

variable {st later : Store} {scope : Ref .scope} {lines : List Text} {refs : List (Ref .node)}

theorem IsRow.congr (row : st.IsRow scope lines refs) (same : later.nodes = st.nodes) :
    later.IsRow scope lines refs := by
  unfold IsRow node
  rw [same]
  exact row

private theorem plantAll_row (scope : Ref .scope) (interactive : Bool) (lines : List Text)
    (index : Nat) (st : Store)
    (extended : (plantAll scope interactive (Tree.row index lines) st).2.Extends later) :
    later.IsRow scope lines (plantAll scope interactive (Tree.row index lines) st).1 := by
  induction lines generalizing index st with
  | nil => exact .nil
  | cons line rest ih =>
    simp only [Tree.row, plantAll, plant] at extended ⊢
    have cell := newNode_read ((extends_plantAll _ _ _ _).trans extended)
    refine .cons ?_ (ih _ _ extended)
    rw [cell]
    exact ⟨rfl, rfl, rfl⟩

/-- Planting a row makes statements and nothing else. -/
theorem plantProgram_row (scope : Ref .scope) (interactive : Bool) (lines : List Text)
    (st : Store) :
    ∃ nodes, (st.plantProgram scope interactive (Tree.row 0 lines)).2 = { st with nodes } := by
  have rows : ∀ index st, ∃ nodes, (plantAll scope interactive (Tree.row index lines) st).2 =
      { st with nodes } := by
    induction lines with
    | nil => exact fun index st => ⟨st.nodes, rfl⟩
    | cons line rest ih =>
      intro index st
      obtain ⟨nodes, same⟩ :=
        ih (index + 1) (st.newNode { command := line, index, children := [], scope, interactive }).2
      exact ⟨nodes, same⟩
  obtain ⟨nodes, same⟩ := rows 0 st
  refine ⟨(st.plantProgram scope interactive (Tree.row 0 lines)).2.nodes, ?_⟩
  simp only [plantProgram, newNode, same]

end Store

/-! ### Running -/

/-- Commands are carried out one after the other, by statements without statements below them, and
each ends normally. -/
inductive Performs (ev : Evaluator) (scope : Ref .scope) (file : Text) :
    List Text → World → World → Prop where
  | nil (w : World) : Performs ev scope file [] w w
  | cons {line : Text} {rest : List Text} {w next last : World}
      (acts : ∀ node, (w.store.node node).children = [] →
        (Site.mk ev node scope file (.of line)).act.exec w = (.ok .done, next))
      (kept : next.store.nodes = w.store.nodes) (others : Performs ev scope file rest next last) :
      Performs ev scope file (line :: rest) w last

namespace Performs

variable {ev : Evaluator} {scope : Ref .scope} {file : Text} {lines : List Text} {w last : World}

theorem append {more : List Text} {final : World} (first : Performs ev scope file lines w last)
    (second : Performs ev scope file more last final) :
    Performs ev scope file (lines ++ more) w final := by
  induction first with
  | nil => exact second
  | cons acts kept _ ih => exact .cons acts kept (ih second)

theorem single {line : Text}
    (acts : ∀ node, (w.store.node node).children = [] →
      (Site.mk ev node scope file (.of line)).act.exec w = (.ok .done, last))
    (kept : last.store.nodes = w.store.nodes) : Performs ev scope file [line] w last :=
  .cons acts kept (.nil last)

theorem exec_runAll (performs : Performs ev scope file lines w last) {refs : List (Ref .node)}
    (row : w.store.IsRow scope lines refs) :
    (runAll ev.next file refs).exec w = (.ok .done, last) := by
  induction performs generalizing refs with
  | nil =>
    cases row
    rfl
  | @cons line rest w next last acts kept others ih =>
    obtain ⟨r, more, ⟨command, place, childless⟩, below, rfl⟩ := List.forall₂_cons_left_iff.mp row
    have site : Site.ofNode ev w.store r file = ⟨ev, r, scope, file, .of line⟩ := by
      rw [Site.ofNode, command, place]
    have first : (ev.next.run r file).exec w = (.ok .done, next) := by
      change (runStep ev r file).exec w = _
      rw [runStep_exec, site, acts r childless]
    rw [runAll, Run.exec_bind_ok w first]
    exact ih (Store.IsRow.congr below kept)

end Performs

/-- An empty statement does nothing. -/
theorem Site.exec_empty {s : Site} (command : s.command = .of []) {w : World}
    (childless : (w.store.node s.node).children = [])
    (unnamed : w.store.resolve s.scope [] = none) : s.act.exec w = (.ok .done, w) := by
  have verb : s.command.verb? = none := by
    rw [command]
    decide
  have first : (s.word 0).exec w = (.ok [], w) := by
    rw [Site.word, command]
    rfl
  have hidden : w.store.isVisible s.scope (Text.before '(' []) = false := by
    rw [isVisible_single (by simp [Text.before])]
    simp [Text.before, unnamed]
  unfold Site.act
  rw [verb]
  change s.other.exec w = _
  unfold Site.other
  rw [Run.exec_bind_ok w (Run.exec_getStore w), Run.exec_bind_ok w first, hidden,
    if_neg Bool.false_ne_true]
  split
  · rw [Site.echo, command]
    rfl
  · rw [Site.body, runBody, Run.exec_bind_ok w (Run.exec_getStore w), childless]
    rfl

/-- A program that is a row of commands carries them out. -/
theorem Program.exec_row {limits : Limits} {n : Nat} (room : limits.nesting = n + 1)
    {scope : Ref .scope} {interactive : Bool} {file source : Text} {lines : List Text}
    {w last : World} (parsed : (Tree.parse (Layout.flatten source)).1 = Tree.row 0 lines)
    (shallow : isTooDeep (2 * limits.nesting) (Layout.flatten source) = false)
    (performs : Performs (.ofRoom limits.rounds n) scope file lines
      { w with store := (w.store.plantProgram scope interactive (Tree.row 0 lines)).2 } last) :
    (run limits scope interactive file source).exec w = (.ok .done, last) := by
  have level : Evaluator.ofLimits limits = (Evaluator.ofRoom limits.rounds n).next := by
    rw [Evaluator.ofLimits, room]
    rfl
  rw [exec_run, shallow, if_neg Bool.false_ne_true, parsed, level]
  exact performs.exec_runAll (Store.plantAll_row scope interactive lines 0 w.store
    (Store.extends_newNode _ _))

/-! ### Rows as they are written -/

/-- A command that is read as it is written, as a statement without statements below it. -/
def IsStatement (line : Text) : Prop :=
  ∃ p : Phrase, p.text = line ∧ p.firstWord ∉ Layout.closing :: Tree.blockWords

inductive Listed : List Text → Text → Prop where
  | nil {gap : Text} (blank : Layout.IsGap gap) : Listed [] gap
  | cons {gap line source : Text} {rest : List Text} (blank : Layout.IsGap gap)
      (others : Listed rest source) :
      Listed (line :: rest) (gap ++ line ++ [';'] ++ source)

/-- A row of commands that are hardly indented is not too deep. -/
theorem Program.isTooDeep_row {flat : Text} {lines : List Text}
    (row : (Tree.parse flat).1 = Tree.row 0 lines)
    (flush : ∀ segment ∈ flat.splitOn ';', Spelled.leadingSpaces segment ≤ 1) {limit : Nat}
    (positive : 0 < limit) : isTooDeep limit flat = false := by
  have depth : ∀ index (lines : List Text), Tree.depthAll (Tree.row index lines) = 0 := by
    intro index lines
    induction lines generalizing index with
    | nil => rfl
    | cons line rest ih => rw [Tree.row, Tree.depthAll, ih, Tree.depth, Nat.max_self]
  unfold isTooDeep
  rw [← Bool.not_eq_true]
  simp only [row, depth, Nat.not_lt_zero, decide_false, Bool.false_or, List.any_eq_true,
    decide_eq_true_eq, not_exists, not_and]
  intro segment member
  have atMost := flush segment (List.mem_of_mem_take member)
  omega

namespace Listed

variable {lines : List Text} {source : Text}

theorem written (listed : Listed lines source) (statements : ∀ line ∈ lines, IsStatement line) :
    ∃ program body tail, source = body ++ tail ∧ Written program body ∧ Layout.IsGap tail ∧
      Outline.sizeAll program = lines.length ∧ ∀ index, Outline.trees index program =
        Tree.row index lines := by
  induction listed with
  | @nil gap blank => exact ⟨[], [], gap, rfl, .nil, blank, rfl, fun _ => rfl⟩
  | @cons gap line source rest blank others ih =>
    obtain ⟨⟨p, rfl, plain⟩, each⟩ := List.forall_mem_cons.mp statements
    obtain ⟨program, body, tail, rfl, written, last, size, trees⟩ := ih each
    refine ⟨.statement p plain :: program, _, tail, (List.append_assoc _ _ _).symm,
      .statement blank p plain written, last, ?_, ?_⟩
    · rw [Outline.sizeAll, Outline.size, size, List.length_cons, Nat.add_comm]
    · intro index
      rw [Outline.trees, Outline.tree, Outline.size, trees, Tree.row]

/-- The commands are read as a row, and behind them an empty one. -/
theorem parse (listed : Listed lines source) (statements : ∀ line ∈ lines, IsStatement line) :
    (Tree.parse (Layout.flatten source)).1 = Tree.row 0 (lines ++ [[]]) ∧
      ∀ limit, 0 < limit → Program.isTooDeep limit (Layout.flatten source) = false := by
  obtain ⟨program, body, tail, rfl, written, blank, size, trees⟩ := listed.written statements
  obtain ⟨parsed, flush⟩ := written.parse blank
  have row : (Tree.parse (Layout.flatten (body ++ tail))).1 = Tree.row 0 (lines ++ [[]]) := by
    rw [parsed, trees, size, Tree.row_append, Nat.zero_add]
    rfl
  refine ⟨row, fun limit positive => ?_⟩
  exact Program.isTooDeep_row row flush positive

end Listed

/-- A command in which words stand with single spaces between them, none of them a comparison, is a
statement. -/
theorem isStatement_of_words {line : Text}
    (begins : ∃ c ∈ line.head?, c ∉ [' ', '=', '!', '>', '<']) (unbroken : '\n' ∉ line)
    (whole : Layout.Unstopped line) (filled : [] ∉ line.words)
    (tight : ∀ c : Comparison, c.sign ∉ line.words)
    (plain : line.before ' ' ∉ Layout.closing :: Tree.blockWords) : IsStatement line := by
  have ends : line.getLast? ≠ some ' ' := fun last => filled (Text.nil_mem_words_of_last last)
  have single : Text.hasPart "  ".toList line = false := by
    rw [← Bool.not_eq_true, Text.hasPart_iff_infix]
    exact fun found => filled (Text.mem_words_of_infix (by simp) found)
  have apart : ∀ sign ∈ Layout.spacedSigns, Text.hasPart sign line = false := by
    intro sign listed
    obtain ⟨c, rfl⟩ : ∃ c : Comparison, sign = ' ' :: (c.sign ++ [' ']) := by
      simp only [Layout.spacedSigns, List.mem_cons, List.not_mem_nil, or_false] at listed
      rcases listed with rfl | rfl | rfl | rfl
      · exact ⟨.equal, rfl⟩
      · exact ⟨.unequal, rfl⟩
      · exact ⟨.greater, rfl⟩
      · exact ⟨.less, rfl⟩
    have oneWord : ' ' ∉ c.sign := by cases c <;> decide
    rw [← Bool.not_eq_true, Text.hasPart_iff_infix]
    exact fun found => tight c (Text.mem_words_of_infix oneWord found)
  exact ⟨⟨line, begins, ends, unbroken, whole, single, apart⟩, rfl, plain⟩

structure IsWord (word : Text) : Prop where
  nonempty : word ≠ []
  oneWord : ' ' ∉ word
  unbroken : '\n' ∉ word
  whole : Layout.Unstopped word
  noSign : ∀ c : Comparison, word ≠ c.sign

/-- A command of two words or more, which does not begin with a word for a block, is a statement. -/
theorem isStatement_unwords {word : Text} {more : List Text} (filled : more ≠ [])
    (first : IsWord word) (others : ∀ part ∈ more, IsWord part)
    (begins : ∃ c ∈ word.head?, c ∉ [' ', '=', '!', '>', '<'])
    (plain : word ∉ Layout.closing :: Tree.blockWords) :
    IsStatement (Text.unwords (word :: more)) := by
  have each : ∀ part ∈ word :: more, IsWord part := List.forall_mem_cons.mpr ⟨first, others⟩
  have parts : (Text.unwords (word :: more)).words = word :: more :=
    Text.words_unwords (List.cons_ne_nil _ _) fun part member => (each part member).oneWord
  have absent : ∀ c, c ≠ ' ' → (∀ part ∈ word :: more, c ∉ part) →
      c ∉ Text.unwords (word :: more) := by
    intro c visible outside member
    rcases Text.mem_intercalate member with space | ⟨part, listed, inside⟩
    · exact visible space
    · exact outside part listed inside
  have shape := Text.unwords_cons word filled
  apply isStatement_of_words
  · obtain ⟨c, head, other⟩ := begins
    refine ⟨c, ?_, other⟩
    rw [shape, List.head?_append_of_ne_nil _ first.nonempty]
    exact head
  · exact absent _ (by decide) fun part listed => (each part listed).unbroken
  · intro c stop
    refine absent c ?_ fun part listed => (each part listed).whole c stop
    rintro rfl
    simp [Layout.stops] at stop
  · rw [parts]
    exact fun member => (each [] member).nonempty rfl
  · intro c
    rw [parts]
    exact fun member => (each _ member).noSign c rfl
  · rw [shape, Text.before_append_self first.oneWord]
    exact plain

end CommandScript

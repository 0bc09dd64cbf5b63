import CommandScript.Proofs.InnerScopes
import CommandScript.Proofs.Lines
import CommandScript.Proofs.Nesting

/-! Conditionals as they are written. Whether there are spaces around the sign of a comparison or
not, the head of a block is read as the same condition, its sign is found and its operands are what
stands on both sides of it. The block then runs its statements exactly if the values that the
operands have before anything is read compare as the sign says. -/
namespace CommandScript

/-- A text that can stand on either side of a comparison: nothing in it is layout, a parenthesis or
part of a sign. -/
def Comparand (text : Text) : Prop := ∀ c ∈ " \n()\x7b\x7d;=!<>".toList, c ∉ text

instance (text : Text) : Decidable (Comparand text) := List.decidableBAll (fun c => c ∉ text) _

private theorem Text.not_infix_of_count {part text : Text} (c : Char)
    (fewer : text.count c < part.count c) : ¬ part <:+: text :=
  fun found => absurd (found.sublist.count_le c) (Nat.not_le_of_gt fewer)

/-- A text has no two spaces in a row if none of its words is empty. -/
theorem Text.not_double_of_words {text : Text} (filled : [] ∉ text.words) :
    ¬ "  ".toList <:+: text :=
  fun found => filled <| mem_words_of_infix List.not_mem_nil found

/-- When the head of a block is flattened, its brace becomes a semicolon, and then spaces are taken
off signs. -/
theorem Layout.flatten_opening {text : Text} (unbroken : '\n' ∉ text) (opening : '\x7b' ∉ text)
    (closing : '\x7d' ∉ text) (single : ¬ "  ".toList <:+: text ++ " \x7b".toList) :
    flatten (text ++ " \x7b".toList) =
      (replacements.drop 7).foldl (fun text entry => Text.replace entry.1 entry.2 text)
        (text ++ [';']) := by
  have layout : ∀ entry ∈ replacements.take 4, '\n' ∈ entry.1 ∨
    "  ".toList <:+: entry.1 := by decide
  have kept : (replacements.take 4).foldl (fun text entry => Text.replace entry.1 entry.2 text)
    (text ++ " \x7b".toList) =
      text ++ " \x7b".toList := by
    apply Text.foldl_replace_of_not_infix
    intro entry listed found
    rcases layout entry listed with line | double
    · have absent : '\n' ∉ text ++ " \x7b".toList := by simp [unbroken]
      exact Text.not_infix_of_mem line absent found
    · exact single (double.trans found)
  have braces : replacements.drop 4 =
      ([' '] ++ ['\x7b'], [';']) :: (['\x7b'], [';']) :: (['\x7d'], Layout.closing ++ [';']) ::
      replacements.drop 7 := by decide
  have opened : Text.replace ([' '] ++ ['\x7b']) [';'] (text ++ " \x7b".toList) = text ++ [';'] :=
    Text.replace_at_end [';'] (by decide) text opening
  have noOpening : ¬ ['\x7b'] <:+: text ++ [';'] :=
    Text.not_infix_of_mem List.mem_cons_self (by simp [opening])
  have noClosing : ¬ ['\x7d'] <:+: text ++ [';'] :=
    Text.not_infix_of_mem List.mem_cons_self (by simp [closing])
  rw [flatten_eq_foldl_drop 4, kept, braces, List.foldl_cons, List.foldl_cons, List.foldl_cons,
    opened, Text.replace_of_not_infix _ noOpening, Text.replace_of_not_infix _ noClosing]

namespace Comparison

/-! ### How a conditional is written -/

def spaced (c : Comparison) : Text := ' ' :: (c.sign ++ [' '])

def written (c : Comparison) (isSpaced : Bool) : Text := if isSpaced then c.spaced else c.sign

def conditional (c : Comparison) (isSpaced : Bool) (a b : Text) : Text :=
  "if (".toList ++ (a ++ (c.written isSpaced ++ (b ++ [')'])))

/-- A character that a sign has more often than any other sign. -/
def mark : Comparison → Char
  | equal => '='
  | unequal => '!'
  | greater => '>'
  | less => '<'

private theorem mark_special (c : Comparison) : c.mark ∈ " \n()\x7b\x7d;=!<>".toList := by
  cases c <;> decide

private theorem count_mark_lt {c d : Comparison} (other : d ≠ c) :
    c.sign.count d.mark < d.sign.count d.mark := by
  revert other
  cases c <;> cases d <;> decide

private theorem sign_ne_nil (c : Comparison) : c.sign ≠ [] := by
  cases c <;> decide

variable (c : Comparison) {a b : Text} (first : Comparand a) (second : Comparand b)
include first second

private theorem count_conditional (isSpaced : Bool) {x : Char}
    (special : x ∈ " \n()\x7b\x7d;=!<>".toList) :
    (c.conditional isSpaced a b).count x =
      "if ()".toList.count x + (c.written isSpaced).count x := by
  have left : a.count x = 0 := List.count_eq_zero.mpr (first x special)
  have right : b.count x = 0 := List.count_eq_zero.mpr (second x special)
  have around : "if ()".toList = "if (".toList ++ [')'] := rfl
  simp only [conditional, around, List.count_append, left, right]
  omega

private theorem not_mem_conditional (isSpaced : Bool) {x : Char}
    (special : x ∈ ['\n', '\x7b', '\x7d', ';']) : x ∉ c.conditional isSpaced a b := by
  have listed : ∀ x ∈ ['\n', '\x7b', '\x7d', ';'], x ∈ " \n()\x7b\x7d;=!<>".toList := by simp
  have absent : ∀ x ∈ ['\n', '\x7b', '\x7d', ';'], "if ()".toList.count x = 0 ∧
      (c.written isSpaced).count x = 0 := by
    simp only [List.forall_mem_cons, List.not_mem_nil, false_implies, implies_true, and_true]
    cases c <;> cases isSpaced <;> decide
  obtain ⟨around, sign⟩ := absent x special
  rw [← List.count_eq_zero, c.count_conditional first second isSpaced (listed x special),
    around, sign]

private theorem words_conditional (isSpaced : Bool) :
    [] ∉ Text.words (c.conditional isSpaced a b ++ " \x7b".toList) := by
  have space : ' ' ∈ " \n()\x7b\x7d;=!<>".toList := by decide
  have sign : ' ' ∉ c.sign := by cases c <;> decide
  have left := first ' ' space
  have right := second ' ' space
  cases isSpaced with
  | false =>
    have shape : c.conditional false a b ++ " \x7b".toList =
        Text.unwords ["if".toList, '(' :: (a ++ (c.sign ++ (b ++ [')']))), ['\x7b']] := by
      simp [conditional, written, Text.unwords, List.intercalate]
    rw [shape, Text.words_unwords (by simp) (by simp [left, right, sign])]
    simp
  | true =>
    have shape : c.conditional true a b ++ " \x7b".toList =
        Text.unwords ["if".toList, '(' :: a, c.sign, b ++ [')'], ['\x7b']] := by
      simp [conditional, written, spaced, Text.unwords, List.intercalate]
    rw [shape, Text.words_unwords (by simp) (by simp [left, right, sign])]
    simp [c.sign_ne_nil.symm]

/-! ### What is read -/

private theorem not_spaced_tight (d : Comparison) :
    ¬ d.spaced <:+: c.conditional false a b ++ [';'] := by
  apply Text.not_infix_of_count ' '
  rw [List.count_append, c.count_conditional first second false (by decide)]
  cases c <;> cases d <;> decide

private theorem not_spaced_other {d : Comparison} (other : d ≠ c) :
    ¬ d.spaced <:+: c.conditional true a b ++ [';'] := by
  apply Text.not_infix_of_count d.mark
  rw [List.count_append, c.count_conditional first second true d.mark_special]
  revert other
  cases c <;> cases d <;> decide

private theorem replace_spaced :
    Text.replace c.spaced c.sign (c.conditional true a b ++ [';']) =
      c.conditional false a b ++ [';'] := by
  have nonempty : c.spaced ≠ [] := List.cons_ne_nil _ _
  have noParenthesis : '(' ∉ c.spaced := by cases c <;> decide
  have front : ¬ c.spaced <:+: "if ".toList := by cases c <;> decide
  have back : ¬ c.spaced <:+: b ++ [')', ';'] := by
    apply Text.not_infix_of_mem (List.mem_cons_self : ' ' ∈ c.spaced)
    simp [second ' ' (by decide)]
  have shape : ∀ isSpaced, c.conditional isSpaced a b ++ [';'] =
      "if ".toList ++ '(' :: (a ++ (c.written isSpaced ++ (b ++ [')', ';']))) := by
    simp [conditional]
  rw [shape, shape, Text.replace_append_cons _ nonempty noParenthesis,
    Text.replace_of_not_infix _ front, Text.replace_append_of_head _ rfl (first ' ' (by decide)),
    written, if_pos rfl, Text.replace_part_append _ nonempty, Text.replace_of_not_infix _ back]
  rfl

/-- Of all spaces around signs, only those around its own sign are taken off a conditional. -/
theorem foldl_signs (signs : List Comparison) :
    (signs.map fun d => (d.spaced, d.sign)).foldl
      (fun text entry => Text.replace entry.1 entry.2 text) (c.conditional true a b ++ [';']) =
      c.conditional (decide (c ∉ signs)) a b ++ [';'] := by
  induction signs with
  | nil => simp
  | cons d signs ih =>
    rw [List.map_cons, List.foldl_cons]
    by_cases same : d = c
    · subst same
      rw [d.replace_spaced first second, Text.foldl_replace_of_not_infix]
      · simp
      · intro entry listed
        obtain ⟨e, _, rfl⟩ := List.mem_map.mp listed
        exact d.not_spaced_tight first second e
    · rw [Text.replace_of_not_infix _ (c.not_spaced_other first second same), ih]
      simp [Ne.symm same]

/-- A conditional is flattened to the same segment with spaces around its sign and without. -/
theorem flatten_conditional (isSpaced : Bool) :
    Layout.flatten (c.conditional isSpaced a b ++ " \x7b".toList) =
      c.conditional false a b ++ [';'] := by
  have absent := fun x => c.not_mem_conditional (x := x) first second isSpaced
  have signs : Layout.replacements.drop 7 = [equal, unequal, greater, less].map fun d =>
    (d.spaced, d.sign) := by decide
  rw [Layout.flatten_opening (absent _ (by simp)) (absent _ (by simp)) (absent _ (by simp))
    (Text.not_double_of_words (c.words_conditional first second isSpaced)), signs]
  cases isSpaced with
  | false =>
    apply Text.foldl_replace_of_not_infix
    intro entry listed
    obtain ⟨d, _, rfl⟩ := List.mem_map.mp listed
    exact c.not_spaced_tight first second d
  | true =>
    rw [c.foldl_signs first second]
    cases c <;> simp

private theorem hasPart_sign (d : Comparison) :
    Text.hasPart d.sign (a ++ (c.sign ++ b)) = decide (d = c) := by
  by_cases same : d = c
  · subst same
    rw [decide_eq_true rfl, Text.hasPart_iff_infix]
    exact ⟨a, b, by simp⟩
  · rw [decide_eq_false same, ← Bool.not_eq_true, Text.hasPart_iff_infix]
    apply Text.not_infix_of_count d.mark
    have left : a.count d.mark = 0 := List.count_eq_zero.mpr (first _ d.mark_special)
    have right : b.count d.mark = 0 := List.count_eq_zero.mpr (second _ d.mark_special)
    rw [List.count_append, List.count_append, left, right, Nat.zero_add, Nat.add_zero]
    exact count_mark_lt same

/-- The comparison of a condition is the one whose sign is written in it. -/
theorem find?_compared : find? (a ++ (c.sign ++ b)) = some c := by
  simp only [find?, c.hasPart_sign first second]
  cases c <;> decide

private theorem operands_compared : c.operands (a ++ (c.sign ++ b)) = [a, b] := by
  obtain ⟨x, rest, begins⟩ := List.exists_cons_of_ne_nil c.sign_ne_nil
  have special : x ∈ " \n()\x7b\x7d;=!<>".toList := by cases c <;> cases begins <;> decide
  have absent : ¬ c.sign <:+: b :=
    Text.not_infix_of_mem (begins ▸ List.mem_cons_self) (second x special)
  rw [operands, Text.replace_append_of_head _ (by rw [begins]; rfl) (first x special),
    Text.replace_part_append _ c.sign_ne_nil, Text.replace_of_not_infix _ absent]
  exact (Text.splitOn_append_cons (first ' ' (by decide)) b).trans
    (congrArg _ (List.splitOn_eq_singleton (second ' ' (by decide))))

omit first second in
private theorem role_conditional (isSpaced : Bool) :
    Tree.Role.of (Spelled.dropSpaces (c.conditional isSpaced a b)) = .opens := by
  have flush : Spelled.dropSpaces (c.conditional isSpaced a b) =
    "if".toList ++ ' ' :: '(' :: (a ++ (c.written isSpaced ++ (b ++ [')']))) := rfl
  have word : Text.before ' ' (Spelled.dropSpaces (c.conditional isSpaced a b)) = "if".toList := by
    rw [flush]
    exact Text.before_append_self (by decide) _
  rw [Tree.Role.of, word]
  decide

private theorem commandOf_conditional :
    Tree.commandOf (Spelled.dropSpaces (c.conditional false a b)) = c.conditional false a b := by
  have flush : Spelled.dropSpaces (c.conditional false a b) = c.conditional false a b := rfl
  have double := Text.not_double_of_words (c.words_conditional first second false)
  rw [flush]
  exact Text.replace_of_not_infix _ fun found =>
    double (found.trans (List.prefix_append _ _).isInfix)

omit first second in
private theorem verb_conditional : (Command.of (c.conditional false a b)).verb? = some .ifTrue := by
  have plain : ∀ x ∈ "if".toList, x ∉ [' ', '=', '(', ')'] := by simp
  exact (Command.verb?_word plain ('(' :: (a ++ (c.written false ++ (b ++ [')']))))).trans
    (by decide)

/-- The condition is the second word when the parentheses are left out. -/
theorem bare_conditional :
    (Command.of (c.conditional false a b)).bare[1]? = some (a ++ (c.sign ++ b)) := by
  have kept : ∀ {text : Text}, '(' ∉ text → ')' ∉ text →
      text.filter (fun x => x != '(' && x != ')') = text := by
    intro text opening closing
    rw [List.filter_eq_self]
    intro x member
    simp only [Bool.and_eq_true, bne_iff_ne]
    exact ⟨fun same => opening (same ▸ member), fun same => closing (same ▸ member)⟩
  have sign : ' ' ∉ c.sign ∧ '(' ∉ c.sign ∧ ')' ∉ c.sign := by cases c <;> decide
  have left := kept (first '(' (by decide)) (first ')' (by decide))
  have right := kept (second '(' (by decide)) (second ')' (by decide))
  have bare : (c.conditional false a b).filter (fun x => x != '(' && x != ')') =
      "if".toList ++ ' ' :: (a ++ (c.sign ++ b)) := by
    have tight : c.written false = c.sign := rfl
    have parentheses : "if (".toList.filter (fun x => x != '(' && x != ')') = "if ".toList ∧
        [')'].filter (fun x => x != '(' && x != ')') = [] := by decide
    simp only [conditional, tight, List.filter_append, left, right, kept sign.2.1 sign.2.2,
      parentheses.1, parentheses.2]
    simp
  have oneWord : ' ' ∉ a ++ (c.sign ++ b) := by
    simp [first ' ' (by decide), second ' ' (by decide), sign.1]
  have words : Text.words ("if".toList ++ ' ' :: (a ++ (c.sign ++ b))) =
      ["if".toList, a ++ (c.sign ++ b)] := by
    rw [Text.words, Text.splitOn_append_cons (by decide), List.splitOn_eq_singleton oneWord]
  rw [Command.of, bare, words]
  rfl

/-! ### What is run -/

variable {ev : Evaluator} {w : World} {x y : Value} {truth : Bool}

private theorem exec_condition_compared {scope : Ref .scope}
    (left : (ev.valueOf scope a).exec w = (.ok x, w))
    (right : (ev.valueOf scope b).exec w = (.ok y, w))
    (holds : c.holds w.store ev.slack x y = .ok truth) :
    (condition ev scope (a ++ (c.sign ++ b))).exec w = (.ok (.bool truth), w) := by
  have compared : (Run.ofExcept (c.holds w.store ev.slack x y)).exec w = (.ok truth, w) := by
    rw [holds]
    rfl
  have one : (Run.nth [a, b] 0).exec w = (.ok a, w) := rfl
  have two : (Run.nth [a, b] 1).exec w = (.ok b, w) := rfl
  simp only [condition, c.find?_compared first second, c.operands_compared first second]
  rw [Run.exec_bind_ok w one, Run.exec_bind_ok w left, Run.exec_bind_ok w two,
    Run.exec_bind_ok w right, Run.exec_bind_ok w (Run.exec_getStore w), Run.exec_bind_ok w compared,
    Run.exec_pure]

/-- A conditional runs its statements if the values of its operands compare, and otherwise ends
normally. -/
theorem exec_conditional {r : Ref .node} {node : Node} (file : Text)
    (cell : w.store.node r = node) (command : node.command = c.conditional false a b)
    (left : (ev.valueOf node.scope a).exec w = (.ok x, w))
    (right : (ev.valueOf node.scope b).exec w = (.ok y, w))
    (holds : c.holds w.store ev.slack x y = .ok truth) :
    (runStep ev r file).exec w = if truth then (runAll ev file node.children).exec w
    else (.ok .done, w) := by
  subst cell
  have verb : (Command.of (w.store.node r).command).verb? = some .ifTrue := by
    rw [command, verb_conditional]
  have tested : (Site.ofNode ev w.store r file).test.exec w = (.ok truth, w) := by
    apply Site.exec_test (a ++ (c.sign ++ b)) (.bool truth)
    · change (Command.of (w.store.node r).command).bare[1]? = _
      rw [command, c.bare_conditional first second]
    · exact c.exec_condition_compared first second left right holds
  have split : (Site.ofNode ev w.store r file).ifTrue =
      (Site.ofNode ev w.store r file).test >>= fun b =>
        if b then (Site.ofNode ev w.store r file).body else pure .done := by
    simp only [Site.ifTrue, Site.test, bind_assoc]
  rw [runStep_verb verb, Site.runVerb, split, Run.exec_bind_ok w tested]
  cases truth <;> rfl

/-- A conditional in a scope that was made for it, in a store that has grown since: the values that
count are those that its operands had around it before. -/
theorem exec_conditional_newScope {rounds n : Nat} {scope : Ref .scope} {later : Store}
    {r : Ref .node} {node : Node} (file : Text)
    (extended : (w.store.newScope (some scope)).2.Extends later) (cell : later.node r = node)
    (command : node.command = c.conditional false a b)
    (place : node.scope = (w.store.newScope (some scope)).1) (closed : w.store.Closed)
    (rooted : w.store.Rooted) (held : w.store.Has scope.cell)
    (unread : ¬ Literal.inputWord <:+: a ∧ ¬ Literal.inputWord <:+: b)
    (left : (((Evaluator.ofRoom rounds n).valueOf scope a).exec w).1 = .ok x)
    (right : (((Evaluator.ofRoom rounds n).valueOf scope b).exec w).1 = .ok y)
    (holds : c.holds w.store (Evaluator.ofRoom rounds n).slack x y = .ok truth) :
    (runStep (.ofRoom rounds n) r file).exec { w with store := later } =
      if truth then (runAll (.ofRoom rounds n) file node.children).exec { w with store := later }
        else (.ok .done, { w with store := later }) := by
  obtain ⟨leftInside, leftCells⟩ :=
    exec_valueOf_newScope rounds n closed rooted held extended (first ')' (by decide)) unread.1 left
  obtain ⟨rightInside, rightCells⟩ :=
    exec_valueOf_newScope rounds n closed rooted held extended
      (second ')' (by decide)) unread.2 right
  have twins := ((Store.extends_newScope w.store (some scope)).trans extended).twins closed rooted
    held (.of_not_mem (first ')' (by decide)) _)
  rw [← place] at leftInside rightInside
  apply c.exec_conditional first second file cell command leftInside rightInside
  exact (twins.mirrors.holds _ leftCells rightCells c).trans holds

omit first second in
private theorem isCut_conditional (isSpaced : Bool) :
    Layout.IsCut (c.conditional isSpaced a b ++ " \x7b".toList) := by
  have shape : c.conditional isSpaced a b ++ " \x7b".toList = c.conditional isSpaced a b ++ [' '] ++
    ['\x7b'] := by simp
  rw [shape]
  exact Layout.isCut_stop _ (by simp [Layout.stops])

private theorem parse_conditional (isSpaced : Bool) {inside gap : Text} {trees : List Tree}
    {size : Nat} (body : Tree.IsBody inside trees size) (blank : Layout.IsGap gap) (rest : Text) :
    Tree.parse (Layout.flatten (c.conditional isSpaced a b ++ " \x7b".toList ++
      (inside ++ (gap ++ ['\x7d'] ++ rest)))) =
      (.block (c.conditional false a b) 0 (Tree.shiftAll 1 trees) ::
          Tree.shiftAll (size + 2) (Tree.parse (Layout.flatten rest)).1,
        size + 2 + (Tree.parse (Layout.flatten rest)).2) := by
  have closing : Layout.IsCut (gap ++ ['\x7d']) := Layout.isCut_stop gap (by simp [Layout.stops])
  have whole : ';' ∉ c.conditional false a b := c.not_mem_conditional first second false (by simp)
  have flat :
    Layout.flatten (c.conditional isSpaced a b ++ " \x7b".toList ++
      (inside ++ (gap ++ ['\x7d'] ++ rest))) =
      c.conditional false a b ++ ';' ::
        (Layout.flatten inside ++ (Layout.margin gap ++ Layout.closing ++ ';' ::
          Layout.flatten rest)) := by
    rw [Layout.flatten_append (c.isCut_conditional isSpaced), c.flatten_conditional first second,
      Layout.flatten_append body.cut, Layout.flatten_append closing, Layout.flatten_closing blank]
    simp only [List.append_assoc, List.singleton_append]
  rw [flat, Tree.parse_block (c.role_conditional false) whole body,
    c.commandOf_conditional first second]

end Comparison

private theorem runAll_singleton (ev : Evaluator) (file : Text) (r : Ref .node) :
    runAll ev file [r] = ev.run r file := by
  conv_rhs => rw [← bind_pure (ev.run r file)]
  rw [runAll]
  congr 1
  funext outcome
  cases outcome <;> rfl

/-- A program that begins with a block: the scope of the block is made first, then its statements,
and then what follows it. -/
theorem Program.exec_run_block (limits : Limits) {scope : Ref .scope} {interactive : Bool}
    (file : Text) {source head : Text} (w : World) {index last : Nat} {inner more : List Tree}
    (fits : isTooDeep (2 * limits.nesting) (Layout.flatten source) = false)
    (parsed : Tree.parse (Layout.flatten source) = (.block head index inner :: more, last)) :
    let opened := w.store.newScope (some scope)
    let body := Store.plantAll opened.1 interactive inner opened.2
    let block := body.2.newNode ⟨head, index, body.1, opened.1, interactive⟩
    let others := Store.plantAll scope interactive more block.2
    ∃ planted, (w.store.plantProgram scope interactive (Tree.parse (Layout.flatten source)).1).2 =
      planted ∧
      opened.2.Extends planted ∧ others.2.Extends planted ∧
      planted.node block.1 = ⟨head, index, body.1, opened.1, interactive⟩ ∧
      (run limits scope interactive file source).exec w =
        (runAll (.ofLimits limits) file ([block.1] ++ others.1)).exec
          { w with store := planted } := by
  have whole := exec_run limits scope interactive file source w
  rw [fits, if_neg Bool.false_ne_true] at whole
  rw [whole, parsed]
  intro opened body block others
  refine ⟨_, rfl, ?_, Store.extends_newNode _ _, ?_, rfl⟩
  · apply ((Store.extends_plantAll _ _ _ _).trans (Store.extends_newNode _ _)).trans
    exact (Store.extends_plantAll _ _ _ _).trans (Store.extends_newNode _ _)
  · exact Store.newNode_read ((Store.extends_plantAll _ _ _ _).trans (Store.extends_newNode _ _))

/-- With spaces around the sign of its comparison and without, a conditional is the same program. If
its operands have values in a state, and these can be compared, then its statements run exactly if
the comparison holds, and what follows the block runs if they end normally or are left out. The
operands neither call anything nor read input, so that nothing else is done. -/
theorem conditional_compares_values (rounds n : Nat) (scope : Ref .scope) (interactive : Bool)
    (file : Text) (c : Comparison) (a b : Text) (first : Comparand a) (second : Comparand b) :
    (∀ limits rest, Program.run limits scope interactive file
      (c.conditional true a b ++ " \x7b".toList ++ rest) =
      Program.run limits scope interactive file
        (c.conditional false a b ++ " \x7b".toList ++ rest)) ∧
    ∀ (isSpaced : Bool) (inside gap rest : Text) (trees : List Tree) (size : Nat) (w : World) (x
      y : Value) (truth : Bool),
      let ev := Evaluator.ofRoom rounds n
      let source := c.conditional isSpaced a b ++ " \x7b".toList ++
        (inside ++ (gap ++ ['\x7d'] ++ rest))
      let opened := w.store.newScope (some scope)
      let body := Store.plantAll opened.1 interactive (Tree.shiftAll 1 trees) opened.2
      let block := body.2.newNode ⟨c.conditional false a b, 0, body.1, opened.1, interactive⟩
      let others := Store.plantAll scope interactive
        (Tree.shiftAll (size + 2) (Tree.parse (Layout.flatten rest)).1) block.2
      let loaded : World :=
        { w with store := (w.store.plantProgram scope interactive
          (Tree.parse (Layout.flatten source)).1).2 }
      let ran := (Program.run ⟨n + 1, rounds⟩ scope interactive file source).exec w
      Tree.IsBody inside trees size → Layout.IsGap gap →
        Program.isTooDeep (2 * (n + 1)) (Layout.flatten source) = false →
      w.store.Closed → w.store.Rooted → w.store.Has scope.cell →
      ¬ Literal.inputWord <:+: a → ¬ Literal.inputWord <:+: b →
      ((ev.valueOf scope a).exec w).1 = .ok x → ((ev.valueOf scope b).exec w).1 = .ok y →
        c.holds w.store ev.slack x y = .ok truth →
      others.2.Extends loaded.store ∧
      ∀ outcome later, (if truth then (runAll ev file body.1).exec loaded
        else (.ok .done, loaded)) = (outcome, later) →
        (outcome = .ok .done → ran = (runAll (.ofRoom rounds (n + 1)) file others.1).exec later) ∧
        (outcome ≠ .ok .done → ran = (outcome, later)) := by
  refine ⟨fun limits rest => ?_, ?_⟩
  · have same : Layout.flatten (c.conditional true a b ++ " \x7b".toList ++ rest) =
        Layout.flatten (c.conditional false a b ++ " \x7b".toList ++ rest) := by
      rw [Layout.flatten_append (c.isCut_conditional true),
        Layout.flatten_append (c.isCut_conditional false), c.flatten_conditional first second,
        c.flatten_conditional first second]
    simp only [Program.run, Program.load, same]
  · intro isSpaced inside gap rest trees size w x y truth ev source opened body block others loaded
      ran inner blank fits closed rooted
      held unread unread' left right holds
    obtain ⟨planted, known, made, extended, cell, whole⟩ :=
      Program.exec_run_block ⟨n + 1, rounds⟩ file w fits
      (c.parse_conditional first second isSpaced inner blank rest)
    have same : loaded = { w with store := planted } := by rw [← known]
    rw [same]
    refine ⟨extended, fun outcome later ended => ?_⟩
    have stepped : (runAll (.ofRoom rounds (n + 1)) file [block.1]).exec
        { w with store := planted } = (outcome, later) := by
      rw [runAll_singleton, ← ended]
      exact c.exec_conditional_newScope first second file made cell rfl rfl closed rooted held
        ⟨unread, unread'⟩ left right holds
    exact ⟨fun done => whole.trans ((exec_runAll_append stepped).1 done),
      fun odd => whole.trans ((exec_runAll_append stepped).2 odd)⟩

/-- With `x` equal to one, a test for something else than two prints a letter, and a test for more
than two prints none. -/
theorem conditional_compares_values_number :
    let start : World := { store := Store.single (.int 1) .int }
    ∃ differs exceeds, (Program.run ⟨6, 0⟩ ⟨0⟩ false
      [] "if (x != 2) \x7b\n    print 'y';\n\x7d".toList).exec start = (.ok .done, differs) ∧
      (Program.run ⟨6, 0⟩ ⟨0⟩ false [] "if (x>2) \x7b\n    print 'y';\n\x7d".toList).exec start =
        (.ok .done, exceeds) ∧
      differs.output = ['y'] ∧ exceeds.output = [] := by
  intro start
  have first : Comparand ['x'] := by decide
  have second : Comparand ['2'] := by decide
  have closed : start.store.Closed := by decide
  have rooted : start.store.Rooted := by decide
  have ends : Layout.IsCut ("\n    print 'y'".toList ++ [';']) :=
    Layout.isCut_stop _ (by simp [Layout.stops])
  have body : Tree.IsBody ("\n    print 'y'".toList ++ [';']) [.leaf "print 'y'".toList 0] 1 :=
    ⟨ends, by decide, rfl⟩
  have blank : Layout.IsGap ['\n'] := by decide
  have fits : ∀ (c : Comparison) isSpaced,
    Program.isTooDeep 12 (Layout.flatten (c.conditional isSpaced ['x'] ['2'] ++ " \x7b".toList ++
      (("\n    print 'y'".toList ++ [';']) ++ (['\n'] ++ ['\x7d'] ++ [])))) = false := by
    intro c isSpaced
    have cut : (Layout.flatten (c.conditional isSpaced ['x'] ['2'] ++ " \x7b".toList ++
        (("\n    print 'y'".toList ++ [';']) ++ (['\n'] ++ ['\x7d'] ++ [])))).splitOn ';' =
          [c.conditional false ['x'] ['2'], "print 'y'".toList, "endblock".toList, []] := by
      cases c <;> cases isSpaced <;> rfl
    rw [Program.isTooDeep_eq, c.parse_conditional first second isSpaced body blank, cut]
    cases c <;> cases isSpaced <;> rfl
  obtain ⟨_, differs⟩ :=
    (conditional_compares_values 0 5 ⟨0⟩ false [] .unequal ['x'] ['2'] first second).2 true _ _
      [] _ _ start
    (.int 1) (.int 2) true body blank (fits _ _) closed rooted (by decide) (by decide)
      (by decide) rfl rfl rfl
  obtain ⟨_, exceeds⟩ :=
    (conditional_compares_values 0 5 ⟨0⟩ false [] .greater ['x'] ['2'] first second).2 false _ _
      [] _ _ start
    (.int 1) (.int 2) false body blank (fits _ _) closed rooted (by decide) (by decide)
      (by decide) rfl rfl rfl
  rw [Comparison.parse_conditional _ first second _ body blank] at differs exceeds
  let loaded (head : Text) : World :=
    { store := (start.store.plantProgram ⟨0⟩ false [.block head 0 [.leaf "print 'y'".toList 1],
      .leaf [] 3]).2 }
  let after : World := { loaded "if (x!=2)".toList with printed := [['y']] }
  have printed : (runAll (.ofRoom 0 5) [] [⟨0⟩]).exec (loaded "if (x!=2)".toList) =
      (.ok .done, after) := by
    rw [runAll_singleton]
    rfl
  -- the empty statement behind the block
  have passes : ∀ w : World, (w.store.node ⟨2⟩).command = [] → (w.store.node ⟨2⟩).children = [] →
      w.store.resolve (w.store.node ⟨2⟩).scope [] = none → (runAll (.ofRoom 0 6) [] [⟨2⟩]).exec w =
        (.ok .done, w) := by
    intro w command childless unnamed
    rw [runAll_singleton]
    change (runStep (.ofRoom 0 5) ⟨2⟩ []).exec w = _
    rw [runStep_exec]
    exact Site.exec_empty (congrArg Command.of command) childless unnamed
  have passed := passes after rfl rfl (by decide)
  have passed' := passes (loaded "if (x>2)".toList) rfl rfl (by decide)
  have ran := (differs (.ok .done) after ((if_pos rfl).trans printed)).1 rfl
  have ran' := (exceeds (.ok .done) (loaded "if (x>2)".toList) (if_neg Bool.false_ne_true)).1 rfl
  exact ⟨_, _, ran.trans passed, ran'.trans passed', rfl, rfl⟩

end CommandScript

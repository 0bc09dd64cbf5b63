import CommandScript.Proofs.FlatForm
import CommandScript.Proofs.Texts

/-! Texts in quotes in a program. Flattening a program knows nothing of quotes, so the text that a
literal means is what flattening leaves of it, and a semicolon or a brace in it cuts the literal
off. -/
namespace CommandScript

def quotation (s : Text) : Text := setting ['x'] s.encloseSingle ++ "; print x;".toList

private theorem flatten_quotation (s : Text) :
    Layout.flatten (quotation s) = quotation (Layout.flatten s) := by
  have outside : ∀ entry ∈ Layout.replacements, '\'' ∉ entry.1 := by decide
  have shape : ∀ t : Text, quotation t =
      "var x = ".toList ++ '\'' :: (t ++ '\'' :: "; print x;".toList) := by
    intro t
    simp [quotation, setting, Text.encloseSingle]
  have front : Layout.flatten "var x = ".toList = "var x = ".toList := by decide
  have back : Layout.flatten "; print x;".toList = "; print x;".toList := by decide
  rw [shape, Layout.flatten_append_cons outside, Layout.flatten_append_cons outside, front,
    back, ← shape]

section Quotation

variable {s : Text}

private theorem setting_role (name text : Text) : Tree.Role.of (setting name text) = .plain := by
  have word : (setting name text).before ' ' = "var".toList := Text.before_append_self (by decide) _
  unfold Tree.Role.of
  rw [word]
  decide

private theorem dropSpaces_setting (name text : Text) :
    Spelled.dropSpaces (setting name text) = setting name text :=
  rfl

private theorem not_double_quotation (s : Text) :
    ¬ "  ".toList <:+: setting ['x'] (Layout.flatten s).encloseSingle := by
  intro found
  apply Layout.not_double_flatten (quotation s)
  rw [flatten_quotation]
  exact found.trans (List.prefix_append _ _).isInfix

/-- A literal without stops is read as one command. -/
theorem parse_quotation (unstopped : Layout.Unstopped s) :
    (Tree.parse (Layout.flatten (quotation s))).1 =
      Tree.row 0 ([setting ['x'] (Layout.flatten s).encloseSingle, printing ['x']] ++ [[]]) ∧
      ∀ limit, 0 < limit → Program.isTooDeep limit (Layout.flatten (quotation s)) = false := by
  have whole : ';' ∉ setting ['x'] (Layout.flatten s).encloseSingle := by
    have clean : ';' ∉ Layout.flatten s :=
      fun member => Layout.semicolon_mem_flatten_iff.mp member unstopped
    simp [setting, Text.encloseSingle, clean]
  have segments : (Layout.flatten (quotation s)).splitOn ';' =
      [setting ['x'] (Layout.flatten s).encloseSingle, " print x".toList, []] := by
    have rest : (" print x;".toList).splitOn ';' = [" print x".toList, []] := by decide
    have cut : quotation (Layout.flatten s) = setting ['x'] (Layout.flatten s).encloseSingle ++
      ';' :: " print x;".toList := rfl
    rw [flatten_quotation, cut, Tree.splitOn_semicolon, List.splitOn_eq_singleton whole, rest]
    rfl
  have command : Tree.commandOf (setting ['x'] (Layout.flatten s).encloseSingle) =
      setting ['x'] (Layout.flatten s).encloseSingle :=
    Text.replace_of_not_infix _ (not_double_quotation s)
  have parsed : Tree.parse (Layout.flatten (quotation s)) =
      (Tree.row 0 [setting ['x'] (Layout.flatten s).encloseSingle, printing ['x'], []], 2) := by
    rw [Tree.parse, segments, Tree.readFrom, dropSpaces_setting, setting_role, command]
    rfl
  refine ⟨congrArg Prod.fst parsed, fun limit positive => ?_⟩
  have flush : ∀ segment ∈ (Layout.flatten (quotation s)).splitOn ';',
      Spelled.leadingSpaces segment ≤ 1 := by
    rw [segments]
    simp only [List.forall_mem_cons, List.not_mem_nil, false_imp_iff, implies_true, and_true]
    exact ⟨Nat.zero_le 1, Nat.le_refl 1, Nat.zero_le 1⟩
  exact Program.isTooDeep_row (by rw [parsed]) flush positive

/-- Running the source text of a literal without stops prints what flattening leaves of it. -/
theorem exec_quotation {limits : Limits} (room : 3 ≤ limits.nesting) {w : World}
    (closed : w.store.Closed) (interactive : Bool) (file : Text) (unstopped : Layout.Unstopped s) :
    ∃ last, (Program.run limits (w.store.newScope none).1 interactive file (quotation s)).exec
      { w with store := (w.store.newScope none).2 } =
      (.ok .done, last) ∧ last.output = w.output ++ Layout.flatten s := by
  obtain ⟨n, nesting⟩ := Nat.exists_eq_add_of_le' room
  have knows : (w.store.newScope none).2.Knows (w.store.newScope none).1 [] [['x'], []] :=
    .fresh closed _
  have identifier : Identifier ['x'] := ⟨by decide, by simp, by decide, by decide, by decide⟩
  have denotes : Denotes (Layout.flatten s).encloseSingle
      (.text (Layout.flatten s).encloseSingle) := by
    have quoted := Denotes.quoted (Spelled.isQuoted_encloseSingle (Layout.flatten s))
      (by simp [Text.encloseSingle])
    rwa [Spelled.inner_encloseSingle] at quoted
  refine Store.Knows.exec_run (w := { w with store := (w.store.newScope none).2 }) nesting
    interactive knows
    (parse_quotation unstopped) fun st knows => ?_
  obtain ⟨last, sets, knows, _⟩ :=
    Store.Knows.performs_setting limits.rounds n file (w := { w with store := st }) knows
      (by simp) identifier
    (by simp [Text.encloseSingle]) (by simp [Text.encloseSingle, List.getLast?_cons])
    (denotes.exec_valueOf limits.rounds n _ _) rfl
  have prints := (knows.texts _ List.mem_cons_self).performs_print limits.rounds n file
    (w := { w with store := last }) identifier
  refine ⟨_, sets.append prints, knows.free [] List.mem_cons_self, ?_⟩
  simp [World.output]

end Quotation

/-! ### Literals that are cut off -/

section Unknown

variable (rounds n : Nat) {scope : Ref .scope} {w : World} (blank : w.store.IsBlank scope)
include blank

omit n rounds in
private theorem isVisible_blank (name : Text) : w.store.isVisible scope name = false := by
  rw [Store.isVisible, blank.resolve]
  rfl

/-- Where no names are known, a text that is no literal and no condition has no value. -/
theorem exec_valueOf_unknown {t : Text} (quotes : Spelled.isQuoted t = false)
    (numeral : ¬ IsNumeral t) (noCondition : isCondition t = false)
    (noWord : t ∉ Literal.inputWord :: Literal.fixed.map (·.1)) :
    ((Evaluator.ofRoom rounds (n + 2)).valueOf scope t).exec w = (.ok .nothing, w) := by
  obtain ⟨noInt, noFloat⟩ : Number.readInt? t = none ∧ Number.readFloat? t = none := by
    simpa only [IsNumeral, not_or, not_not] using numeral
  have absent : Literal.fixed.lookup t = none := by
    rw [List.lookup_eq_none_iff]
    intro entry listed
    rw [bne_iff_ne]
    rintro rfl
    exact noWord (List.mem_cons_of_mem _ (List.mem_map_of_mem listed))
  have expanded : (Literal.expandValue (.text t)).exec w = (.ok (.text t), w) := by
    have notInput : t ≠ Literal.inputWord :=
      fun same => noWord (by rw [same]; exact List.mem_cons_self)
    simp only [Literal.expandValue, Literal.expand, if_neg notInput, absent]
    rfl
  have bound : (bindText (.ofRoom rounds n) (some scope) nameless true t).exec w =
      (.ok { name := some (Spelled.trimSpaces t), home := some scope, content := .nothing,
             tag := .unknown }, w) := by
    unfold bindText bindName
    simp only [quotes, noInt, noFloat, noCondition, Bool.false_eq_true, if_false]
    rw [Run.exec_bind_ok w (Run.exec_getStore w), isVisible_blank blank, if_neg Bool.false_ne_true]
    rfl
  change (valueStep (.ofRoom rounds (n + 1)) scope t).exec w = _
  unfold valueStep
  rw [Run.exec_bind_ok w (Run.exec_getStore w)]
  simp only [isVisible_blank blank, Bool.false_eq_true, and_false, if_false]
  rw [evaluate_eq, Run.exec_bind_ok w (Run.exec_readItem_bare w _), Run.exec_bind_ok w expanded]
  exact Run.exec_bind_ok w bound

/-- Nothing cannot be assigned to a new name. -/
theorem exec_assign_nothing (isGlobal : Bool) {name : Text} (new : NewName name) :
    ∃ fault last, (assign (.ofRoom rounds (n + 1)) scope isGlobal name (.bare .nothing)).exec w =
      (.error fault, last) := by
  have declares : ∀ target : Ref .scope,
      ∃ fault last, (declare (.ofRoom rounds (n + 1)) target name (.bare .nothing)).exec w =
        (.error fault, last) := by
    intro target
    have value : (evaluate (.ofRoom rounds (n + 1)) (some target) (.bare .nothing)).exec w =
      (.ok .nothing, w) := rfl
    have fails :
        ∃ fault last, ((Evaluator.ofRoom rounds (n + 1)).bind
          (some target) name false .nothing).exec w = (.error fault, last) := by
      change ∃ fault last, (bindName (.ofRoom rounds n) (some target) false none).exec w =
        (.error fault, last)
      unfold bindName
      rw [Run.exec_bind_ok w (Run.exec_getStore w)]
      simp only [bindName.unknown, Bool.false_eq_true, if_false]
      -- a notice is printed before the fault, unless there is no room left to show it
      cases Notice.unknownType w.store (Evaluator.ofRoom rounds n).slack .nothing with
      | error fault => exact ⟨fault, w, rfl⟩
      | ok text => exact ⟨.badValue, _, rfl⟩
    obtain ⟨fault, last, failed⟩ := fails
    refine ⟨fault, last, ?_⟩
    unfold declare
    rw [List.splitOn_eq_singleton new.single]
    change (declareFrom _ target name (.bare .nothing) []).exec w = _
    rw [declareFrom, Run.exec_bind_ok w value, Run.exec_bind_error w failed]
  unfold assign
  rw [Run.exec_bind_ok w (Run.exec_readItem_bare w _), Run.exec_bind_ok w (Run.exec_getStore w),
    isVisible_blank blank, if_neg Bool.false_ne_true]
  split
  · next empty => exact absurd (List.getLast?_eq_none_iff.mp empty) new.nonempty
  · next element => exact absurd element new.noElement
  · cases isGlobal with
    | false => exact declares scope
    | true =>
      rw [if_pos rfl, declareGlobal, Run.exec_bind_ok w (Run.exec_getStore w)]
      exact declares _

end Unknown

private theorem Spelled.trimSpaces_cons_visible {c : Char} (visible : c ≠ ' ') (text : Text) :
    ∃ rest j, trimSpaces (c :: text) = c :: rest ∧ text = rest ++ List.replicate j ' ' := by
  obtain ⟨i, j, padded⟩ := exists_padding (c :: text)
  have member : c ∈ trimSpaces (c :: text) := (mem_trimSpaces_iff visible).mpr List.mem_cons_self
  generalize trimSpaces (c :: text) = core at padded member ⊢
  cases i with
  | zero =>
    cases core with
    | nil => cases member
    | cons d rest =>
      obtain ⟨rfl, same⟩ := List.cons.inj padded
      exact ⟨rest, j, rfl, same⟩
  | succ i => exact absurd (List.cons.inj padded).1 visible

/-- What is left of a literal that is cut off: an opening quote and something behind it, but no
closing one. -/
structure CutOff (q : Text) : Prop where
  unclosed : '\'' ∉ q
  visible : ∃ c ∈ q, c ≠ ' '
  noCondition : isCondition q = false

/-- A literal that is cut off has no value where no names are known. -/
theorem CutOff.exec_valueOf {q : Text} (cut : CutOff q) (rounds n : Nat) {scope : Ref .scope}
    {w : World} (blank : w.store.IsBlank scope) :
    ((Evaluator.ofRoom rounds (n + 2)).valueOf scope (Spelled.trimSpaces ('\'' :: q))).exec w =
      (.ok .nothing, w) := by
  obtain ⟨rest, j, trimmed, rfl⟩ := Spelled.trimSpaces_cons_visible (by decide : '\'' ≠ ' ') q
  obtain ⟨c, member, visible⟩ := cut.visible
  have unclosed : '\'' ∉ rest := fun member => cut.unclosed (List.mem_append_left _ member)
  have nonempty : rest ≠ [] := by
    rintro rfl
    exact visible (List.eq_of_mem_replicate member)
  rw [trimmed]
  apply exec_valueOf_unknown rounds n blank
  · obtain ⟨front, last, rfl⟩ := (List.eq_nil_or_concat' rest).resolve_left nonempty
    have other : '\'' ≠ last := by
      rintro rfl
      exact unclosed (by simp)
    simp [Spelled.isQuoted, Spells.spells, List.getLast?_cons, other]
  · exact fun numeral => numeral.not_mem (by simp) List.mem_cons_self
  · have clear := cut.noCondition
    simp only [isCondition, Bool.or_eq_false_iff, List.contains_eq_mem, decide_eq_false_iff_not,
      List.mem_append, not_or] at clear
    simp [isCondition, clear]
  · have words : ∀ word ∈ Literal.inputWord :: Literal.fixed.map (·.1), word.head? = some '\'' →
      word.length = 1 := by decide
    intro listed
    have short := words _ listed rfl
    simp [nonempty] at short

private theorem Layout.Unstopped.flat_iff {s : Text} (unstopped : Unstopped s) :
    Layout.flatten s = s ↔ '\n' ∉ s ∧ Text.hasPart "  ".toList s = false ∧
    ∀ sign ∈ spacedSigns, Text.hasPart sign s = false := by
  have absent : ∀ part : Text, Text.hasPart part s = false ↔ ¬ part <:+: s := by
    intro part
    rw [← Bool.not_eq_true, Text.hasPart_iff_infix]
  have signs : spacedSigns = operators.map Text.spaced := rfl
  simp only [flatten_eq_self_iff, absent, signs, List.forall_mem_map]
  constructor
  · exact fun flat => ⟨flat.oneLine, flat.singleSpaces, flat.tight⟩
  · rintro ⟨unbroken, single, tight⟩
    exact ⟨unbroken, unstopped _ (by simp [stops]), unstopped _ (by simp [stops]), single, tight⟩

/-- A statement with a literal that is cut off fails. -/
theorem CutOff.exec_setting {q : Text} (cut : CutOff q) (rounds n : Nat) {scope : Ref .scope}
    {w : World} (blank : w.store.IsBlank scope) (file : Text) {r : Ref .node}
    (command : (w.store.node r).command = setting ['x'] ('\'' :: q))
    (place : (w.store.node r).scope = scope) :
    ∃ fault last, ((Evaluator.ofRoom rounds (n + 3)).run r file).exec w = (.error fault, last) := by
  have new : NewName ['x'] := by constructor <;> decide
  have sets : Sets (setting ['x'] ('\'' :: q)) ['x'] (Spelled.trimSpaces ('\'' :: q)) := by
    refine ⟨verb_setting new.oneWord,
      ⟨['x'], ?_, new.notLocal, Text.before_of_not_mem new.noSign⟩, rfl⟩
    rw [words_setting new.oneWord]
    rfl
  have site : Site.ofNode (.ofRoom rounds (n + 2)) w.store r file =
      ⟨.ofRoom rounds (n + 2), r, scope, file, .of (setting ['x'] ('\'' :: q))⟩ := by
    rw [Site.ofNode, command, place]
  obtain ⟨fault, last, failed⟩ := exec_assign_nothing rounds (n + 1) blank (!file.isEmpty) new
  refine ⟨fault, last, ?_⟩
  change (runStep (.ofRoom rounds (n + 2)) r file).exec w = _
  rw [runStep_exec, site, Site.exec_sets rfl sets, Site.valueOf,
    Run.exec_bind_ok w (cut.exec_valueOf rounds n blank)]
  exact Run.exec_bind_error w failed

private theorem Store.plantProgram_first (scope : Ref .scope) (interactive : Bool) (line : Text)
    (index : Nat) (trees : List Tree) (st : Store) :
    ∃ r more, (plantAll scope interactive (.leaf line index :: trees) st).1 = r :: more ∧
      (st.plantProgram scope interactive (.leaf line index :: trees)).2.node r =
        ⟨line, index, [], scope, interactive⟩ ∧
      st.Extends (st.plantProgram scope interactive (.leaf line index :: trees)).2 := by
  refine ⟨_, _, rfl, ?_, ?_⟩
  · exact newNode_read ((extends_plantAll scope interactive trees _).trans (extends_newNode _ _))
  · exact (extends_plantAll scope interactive (.leaf line index :: trees) st).trans
      (extends_newNode _ _)

/-- A program that begins with a literal that is cut off fails. -/
theorem CutOff.exec_run {q : Text} (cut : CutOff q) {limits : Limits} (room : 3 ≤ limits.nesting)
    {scope : Ref .scope} {w : World} (blank : w.store.IsBlank scope) (closed : w.store.Closed)
    (held : w.store.Has scope.cell) (interactive : Bool) (file : Text) {source rest : Text}
    (flat : Layout.flatten source = setting ['x'] ('\'' :: q) ++ ';' :: rest) (whole : ';' ∉ q) :
    ∃ fault last, (Program.run limits scope interactive file source).exec w =
      (.error fault, last) := by
  obtain ⟨n, nesting⟩ := Nat.exists_eq_add_of_le' room
  have single : Tree.commandOf (setting ['x'] ('\'' :: q)) = setting ['x'] ('\'' :: q) := by
    refine Text.replace_of_not_infix _ fun found => Layout.not_double_flatten source ?_
    rw [flat]
    exact found.trans (List.prefix_append _ _).isInfix
  obtain ⟨trees, first⟩ : ∃ trees, (Tree.parse (Layout.flatten source)).1 =
      .leaf (setting ['x'] ('\'' :: q)) 0 :: trees := by
    have unbroken : ';' ∉ setting ['x'] ('\'' :: q) := by
      simp [setting, whole]
    have behind := Tree.readFrom_behind [.leaf (setting ['x'] ('\'' :: q)) 0] 1 ⟨[], []⟩ 0
      (rest.splitOn ';') (.inl (List.splitOn_ne_nil _ _))
    rw [Tree.parse, flat, Tree.splitOn_semicolon, List.splitOn_eq_singleton unbroken,
      List.singleton_append, Tree.readFrom, dropSpaces_setting, setting_role, single]
    exact ⟨_, congrArg Prod.fst behind⟩
  rw [Program.exec_run, first]
  split
  · exact ⟨_, _, rfl⟩
  · obtain ⟨r, more, children, cell, extended⟩ :=
      Store.plantProgram_first scope interactive (setting ['x'] ('\'' :: q)) 0 trees w.store
    have level : Evaluator.ofLimits limits = .ofRoom limits.rounds (n + 3) := by
      rw [Evaluator.ofLimits, nesting]
    obtain ⟨fault, last, failed⟩ := cut.exec_setting limits.rounds n
      (w := { w with store := (w.store.plantProgram scope interactive
        (.leaf (setting ['x'] ('\'' :: q)) 0 :: trees)).2 })
      (blank.extends closed held extended) file (congrArg Node.command cell)
        (congrArg Node.scope cell)
    rw [children, level]
    exact ⟨fault, last, Run.exec_bind_error _ failed⟩

/-- A literal is set and printed in a new scope. Unless it has a semicolon or a brace, the program
comes to its end and prints what flattening leaves of the literal; that is the literal exactly if it
has no line break, no two spaces in a row and no comparison with spaces around it. A semicolon or a
brace cuts it off, and the program fails if what is left is not blank and no condition. -/
theorem literal_printed_flat (limits : Limits) (room : 3 ≤ limits.nesting) (w : World)
    (closed : w.store.Closed) (interactive : Bool) (file s : Text) :
    let start := { w with store := (w.store.newScope none).2 }
    let ran :=
      (Program.run limits (w.store.newScope none).1 interactive file (quotation s)).exec start
    (Layout.Unstopped s → (∃ last, ran = (.ok .done, last) ∧
      last.output = w.output ++ Layout.flatten s) ∧
      (Layout.flatten s = s ↔ '\n' ∉ s ∧ Text.hasPart "  ".toList s = false ∧
        ∀ sign ∈ Layout.spacedSigns, Text.hasPart sign s = false)) ∧
    (¬ Layout.Unstopped s → CutOff ((Layout.flatten s).before ';') → ∃ fault last, ran =
      (.error fault, last)) := by
  intro start ran
  refine ⟨fun unstopped => ⟨exec_quotation room closed interactive file unstopped,
    unstopped.flat_iff⟩, fun stopped cut => ?_⟩
  obtain ⟨front, rest, split, whole⟩ :=
    List.eq_append_cons_of_mem (Layout.semicolon_mem_flatten_iff.mpr stopped)
  rw [split, Text.before_append_self whole] at cut
  have flat : Layout.flatten (quotation s) = setting ['x'] ('\'' :: front) ++ ';' ::
      (rest ++ '\'' :: "; print x;".toList) := by
    rw [flatten_quotation, split]
    simp [quotation, setting, Text.encloseSingle]
  exact cut.exec_run room w.store.blank_newScope (closed.newScope (by simp))
    ((w.store.has_newScope none _).mpr (.inr rfl)) interactive file
    flat whole

/-- Two spaces in a literal are lost, and a semicolon makes the program fail. -/
theorem literal_printed_flat_spaces :
    let start : World := { store := (({} : Store).newScope none).2 }
    (∃ last, (Program.run .standard ⟨0⟩ false [] "var x = 'a  b'; print x;".toList).exec start =
      (.ok .done, last) ∧
      last.output = "ab".toList) ∧
    ∃ fault last, (Program.run .standard ⟨0⟩ false [] "var x = 'a;b'; print x;".toList).exec start =
      (.error fault, last) := by
  intro start
  have spaces := literal_printed_flat .standard (by decide) {} Store.closed_empty false
    [] "a  b".toList
  have semicolon := literal_printed_flat .standard (by decide) {} Store.closed_empty false
    [] "a;b".toList
  have cut : CutOff ((Layout.flatten "a;b".toList).before ';') :=
    ⟨by decide, ⟨'a', by decide, by decide⟩, by decide⟩
  obtain ⟨last, ran, printed⟩ := (spaces.1 (by decide)).1
  exact ⟨⟨last, ran, printed.trans (by decide)⟩, semicolon.2 (by decide) cut⟩

end CommandScript

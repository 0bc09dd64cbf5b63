import CommandScript.Program
import CommandScript.Proofs.Cutting
import CommandScript.Proofs.Flattening

/-! Programs that are written out as source texts and read back. Wherever lines are broken and
however far they are indented, reading gives the statements and blocks that were written, and after
them one empty statement. -/
namespace CommandScript

namespace Layout

def spacedSigns : List Text := [" == ".toList, " != ".toList, " > ".toList, " < ".toList]

def IsGap (text : Text) : Prop := ∀ c ∈ text, c = '\n' ∨ c = ' '

instance (text : Text) : Decidable (IsGap text) :=
  List.decidableBAll (fun c => c = '\n' ∨ c = ' ') text

/-- What flattening leaves of a gap: a space or nothing. -/
def margin (gap : Text) : Text := List.replicate (gap.count ' ' % 4 % 3 % 2) ' '

end Layout

/-- The text of a statement or the head of a block. It begins with a letter, or in fact with
anything but a space or a character of a comparison, and does not end in a space. Nothing in it is
taken for layout. -/
structure Phrase where
  text : Text
  begins : ∃ c ∈ text.head?, c ∉ [' ', '=', '!', '>', '<']
  ends : text.getLast? ≠ some ' '
  unbroken : '\n' ∉ text
  whole : ∀ c ∈ Layout.stops, c ∉ text
  single : Text.hasPart "  ".toList text = false
  tight : ∀ sign ∈ Layout.spacedSigns, Text.hasPart sign text = false

def Phrase.firstWord (p : Phrase) : Text := p.text.before ' '

inductive Outline where
  | statement (text : Phrase) (plain : text.firstWord ∉ Layout.closing :: Tree.blockWords)
  | block (head : Phrase) (opens : head.firstWord ∈ Tree.blockWords) (body : List Outline)

namespace Outline

mutual

def size : Outline → Nat
  | statement .. => 1
  | block _ _ body => sizeAll body + 2

def sizeAll : List Outline → Nat
  | [] => 0
  | o :: rest => size o + sizeAll rest

end

mutual

def tree (index : Nat) : Outline → Tree
  | statement text _ => .leaf text.text index
  | block head _ body => .block head.text index (trees (index + 1) body)

def trees (index : Nat) : List Outline → List Tree
  | [] => []
  | o :: rest => tree index o :: trees (index + size o) rest

end

end Outline

/-- A source text in which the given statements and blocks are written, each after a gap of its own.
-/
inductive Written : List Outline → Text → Prop where
  | nil : Written [] []
  | statement {gap source : Text} {rest : List Outline} (blank : Layout.IsGap gap) (text : Phrase)
      (plain : text.firstWord ∉ Layout.closing :: Tree.blockWords) (others : Written rest source) :
      Written (.statement text plain :: rest) (gap ++ text.text ++ [';'] ++ source)
  | block {gap inside last source : Text} {body rest : List Outline} (blank : Layout.IsGap gap)
      (head : Phrase)
      (opens : head.firstWord ∈ Tree.blockWords) (inner : Written body inside)
      (closing : Layout.IsGap last)
      (others : Written rest source) :
      Written (.block head opens body :: rest)
        (gap ++ head.text ++ " \x7b".toList ++ (inside ++ (last ++ ['\x7d'] ++ source)))

namespace Layout

private theorem margin_cases (gap : Text) : margin gap = [] ∨ margin gap = [' '] := by
  unfold margin
  rcases Nat.mod_two_eq_zero_or_one (gap.count ' ' % 4 % 3) with even | odd
  · rw [even]
    exact .inl rfl
  · rw [odd]
    exact .inr rfl

theorem eq_of_mem_margin {gap : Text} {c : Char} (member : c ∈ margin gap) : c = ' ' :=
  List.eq_of_mem_replicate member

/-- Line breaks go away, and of the spaces of a gap at most one is left. -/
private theorem dropIndent {gap : Text} (blank : IsGap gap) {text : Text} (unbroken : '\n' ∉ text)
    (begins : text.head? ≠ some ' ') (single : ¬ "  ".toList <:+: text) :
    Text.replace "  ".toList [] (Text.replace "   ".toList [] (Text.replace "    ".toList []
      (Text.replace "\n".toList [] (gap ++ text)))) = margin gap ++ text := by
  have lines : Text.replace "\n".toList [] (gap ++ text) =
      List.replicate (gap.count ' ') ' ' ++ text := by
    change Text.replace ['\n'] [] _ = _
    rw [Text.replace_singleton,
      List.flatMap_append, ← Text.replace_singleton, ← Text.replace_singleton,
      Text.replace_of_not_infix [] (Text.not_infix_of_mem (List.mem_singleton.mpr rfl) unbroken)]
    congr 1
    clear unbroken begins single
    induction gap with
    | nil => rfl
    | cons c rest ih =>
      have others : IsGap rest := fun d member => blank d (List.mem_cons_of_mem c member)
      have spaces := ih others
      rw [Text.replace_singleton] at spaces ⊢
      rcases blank c List.mem_cons_self with rfl | rfl
      · simpa using spaces
      · simpa [List.replicate_succ] using spaces
  have wider : ∀ k, 2 ≤ k → ¬ List.replicate k ' ' <:+: text := by
    intro k enough found
    apply single
    refine List.IsInfix.trans ?_ found
    exact ⟨[], List.replicate (k - 2) ' ', by rw [show "  ".toList = List.replicate 2 ' ' from rfl,
      List.nil_append, List.replicate_append_replicate, Nat.add_sub_cancel' enough]⟩
  have narrow : ∀ k n, 1 ≤ k → Text.replace (List.replicate (k + 1) ' ') []
    (List.replicate n ' ' ++ text) =
      List.replicate (n % (k + 1)) ' ' ++ text := by
    intro k n enough
    rw [Text.replace_replicate ' ' k n text begins,
      Text.replace_of_not_infix [] (wider (k + 1) (by omega))]
  have four := narrow 3 (gap.count ' ') (by decide)
  have three := narrow 2 (gap.count ' ' % 4) (by decide)
  have two := narrow 1 (gap.count ' ' % 4 % 3) (by decide)
  rw [lines]
  exact (congrArg (fun t => Text.replace "  ".toList [] (Text.replace "   ".toList [] t))
    four).trans
    ((congrArg (Text.replace "  ".toList []) three).trans two)

end Layout

namespace Phrase

variable (p : Phrase)

theorem nonempty : p.text ≠ [] := by
  obtain ⟨c, first, _⟩ := p.begins
  intro empty
  rw [empty] at first
  cases first

theorem head_ne_space : p.text.head? ≠ some ' ' := by
  obtain ⟨c, first, free⟩ := p.begins
  intro space
  rw [space] at first
  cases first
  exact free (by simp)

private theorem head_append (rest : Text) : (p.text ++ rest).head? ≠ some ' ' := by
  obtain ⟨c, text, same⟩ := List.exists_cons_of_ne_nil p.nonempty
  have first := p.head_ne_space
  rw [same] at first ⊢
  exact first

private theorem not_double : ¬ "  ".toList <:+: p.text := by
  rw [← Text.hasPart_iff_infix, p.single]
  exact Bool.false_ne_true

/-- With a space before it and a semicolon after it, a phrase is still without spaced comparisons.
-/
theorem not_sign {sign : Text} (known : sign ∈ Layout.spacedSigns) (gap : Text) :
    ¬ sign <:+: Layout.margin gap ++ (p.text ++ [';']) := by
  have shape : ∀ sign ∈ Layout.spacedSigns, ';' ∉ sign ∧ ∃ c ∈ [' ', '=', '!', '>', '<'], sign =
      ' ' :: c :: sign.drop 2 := by
    simp [Layout.spacedSigns]
  obtain ⟨plain, c, special, same⟩ := shape sign known
  have inside : ¬ sign <:+: p.text ++ [';'] := by
    apply Text.not_infix_concat (by rw [same]; exact List.cons_ne_nil _ _) plain
    rw [← Text.hasPart_iff_infix, p.tight _ known]
    exact Bool.false_ne_true
  rcases Layout.margin_cases gap with none | one
  · rw [none]
    exact inside
  · rw [one, List.singleton_append]
    intro found
    rcases List.infix_cons_iff.mp found with here | later
    · -- The phrase would begin with a character of a comparison.
      obtain ⟨d, first, free⟩ := p.begins
      obtain ⟨e, text, shown⟩ := List.exists_cons_of_ne_nil p.nonempty
      rw [shown] at first here
      cases first
      rw [same, List.cons_append, List.cons_prefix_cons, List.cons_prefix_cons] at here
      exact free (here.2.1 ▸ special)
    · exact inside later

/-- Nothing is replaced in a phrase that is indented and ended. -/
theorem untouched (gap : Text) :
    ∀ entry ∈ Layout.replacements.drop 4, ¬ entry.1 <:+: Layout.margin gap ++
    (p.text ++ [';']) := by
  have kinds : ∀ entry ∈ Layout.replacements.drop 4, '\x7b' ∈ entry.1 ∨ '\x7d' ∈ entry.1 ∨
    entry.1 ∈ Layout.spacedSigns := by decide
  have free : ∀ c ∈ Layout.stops, c ≠ ';' → c ∉ Layout.margin gap ++ (p.text ++ [';']) := by
    intro c stop other member
    rcases List.mem_append.mp member with indent | member
    · obtain rfl := Layout.eq_of_mem_margin indent
      exact absurd stop (by decide)
    · rcases List.mem_append.mp member with inside | last
      · exact p.whole c stop inside
      · exact other (List.mem_singleton.mp last)
  intro entry member
  rcases kinds entry member with opening | closing | sign
  · exact Text.not_infix_of_mem opening (free _ (by decide) (by decide))
  · exact Text.not_infix_of_mem closing (free _ (by decide) (by decide))
  · exact p.not_sign sign gap

end Phrase

namespace Layout

section Lines

variable {gap : Text} (blank : IsGap gap) (p : Phrase)
include blank

/-- After the indentation only braces and the signs of comparisons are replaced. -/
private theorem flatten_indented (text : Text) (unbroken : '\n' ∉ text)
    (begins : text.head? ≠ some ' ') (single : ¬ "  ".toList <:+: text) :
    flatten (gap ++ text) = (replacements.drop 4).foldl
      (fun text entry => Text.replace entry.1 entry.2 text) (margin gap ++ text) := by
  rw [← dropIndent blank unbroken begins single]
  rfl

private theorem flatten_gap : flatten gap = margin gap := by
  have indented := flatten_indented blank [] (by simp) (by simp) (by decide)
  rw [List.append_nil, List.append_nil] at indented
  rw [indented]
  rcases margin_cases gap with none | one
  · rw [none]
    decide
  · rw [one]
    decide

theorem flatten_closing : flatten (gap ++ ['\x7d']) = margin gap ++ closing ++ [';'] := by
  rw [flatten_indented blank ['\x7d'] (by decide) (by decide) (by decide)]
  rcases margin_cases gap with none | one
  · rw [none]
    decide
  · rw [one]
    decide

private theorem flatten_statement :
    flatten (gap ++ p.text ++ [';']) = margin gap ++ p.text ++ [';'] := by
  have unbroken : '\n' ∉ p.text ++ [';'] := by simp [p.unbroken]
  have single := Text.not_infix_concat (by decide) (by decide : ';' ∉ "  ".toList) p.not_double
  rw [List.append_assoc, flatten_indented blank _ unbroken (p.head_append _) single,
    Text.foldl_replace_of_not_infix _ (p.untouched gap), List.append_assoc]

private theorem flatten_head :
    flatten (gap ++ p.text ++ " \x7b".toList) = margin gap ++ p.text ++ [';'] := by
  have unbroken : '\n' ∉ p.text ++ " \x7b".toList := by
    rw [List.mem_append, not_or]
    exact ⟨p.unbroken, by decide⟩
  have single : ¬ "  ".toList <:+: p.text ++ " \x7b".toList := by
    have spaced : ¬ "  ".toList <:+: p.text ++ [' '] := by
      rw [List.infix_concat_iff, List.suffix_concat_iff]
      rintro ((empty | ⟨front, same, ⟨rest, ended⟩⟩) | found)
      · cases empty
      · obtain rfl : front = [' '] :=
          (List.append_inj' (same.symm.trans (by rfl : _ = [' '] ++ [' '])) rfl).1
        exact p.ends (by rw [← ended, List.getLast?_concat])
      · exact p.not_double found
    have ended := Text.not_infix_concat (by decide) (by decide : '\x7b' ∉ "  ".toList) spaced
    simpa using ended
  have absent : '\x7b' ∉ margin gap ++ p.text := by
    intro member
    rcases List.mem_append.mp member with indent | inside
    · exact absurd (eq_of_mem_margin indent) (by decide)
    · exact p.whole _ (by decide) inside
  have opened := Text.replace_at_end [';'] (by decide : '\x7b' ∉ [' ']) _ absent
  have others : replacements.drop 4 = ([' '] ++ ['\x7b'], [';']) :: replacements.drop 5 := by decide
  rw [List.append_assoc, flatten_indented blank _ unbroken (p.head_append _) single, others,
    List.foldl_cons, ← List.append_assoc]
  change List.foldl _ (Text.replace ([' '] ++ ['\x7b']) [';']
    (margin gap ++ p.text ++ ([' '] ++ ['\x7b']))) _ = _
  rw [opened, List.append_assoc]
  apply Text.foldl_replace_of_not_infix
  intro entry member
  exact p.untouched gap entry (List.mem_of_mem_tail (others ▸ member))

end Lines

end Layout

namespace Layout

private theorem not_spells {c : Char} {rest : Text} (begins : (c :: rest).head? ≠ some ' ') :
    Spells.spells ' ' c = false :=
  beq_false_of_ne fun same => begins (congrArg some same.symm)

theorem dropSpaces_margin (gap : Text) {text : Text} (begins : text.head? ≠ some ' ') :
    Spelled.dropSpaces (margin gap ++ text) = text := by
  have kept : Spelled.dropSpaces text = text := by
    cases text with
    | nil => rfl
    | cons c rest => exact List.dropWhile_cons_of_neg (Bool.eq_false_iff.mp (not_spells begins))
  rcases margin_cases gap with none | one
  · rw [none]
    exact kept
  · rw [one]
    exact kept

private theorem leadingSpaces_margin (gap : Text) {text : Text} (begins : text.head? ≠ some ' ') :
    Spelled.leadingSpaces (margin gap ++ text) ≤ 1 := by
  have flush : Spelled.leadingSpaces text = 0 := by
    cases text with
    | nil => rfl
    | cons c rest =>
      rw [Spelled.leadingSpaces, List.takeWhile_cons_of_neg
        (Bool.eq_false_iff.mp (not_spells begins)), List.length_nil]
  rcases margin_cases gap with none | one
  · rw [none, List.nil_append, flush]
    exact Nat.zero_le 1
  · rw [one]
    change Spelled.leadingSpaces text + 1 ≤ 1
    rw [flush]

/-- A segment that ends in a semicolon is the first one. -/
theorem splitOn_segment {segment : Text} (whole : ';' ∉ segment) (rest : Text) :
    (segment ++ [';'] ++ rest).splitOn ';' = segment :: rest.splitOn ';' := by
  rw [List.append_assoc, List.singleton_append, Text.splitOn_append_cons whole]

end Layout

/-- The segments of a program are hardly indented, and whatever was read before them and comes after
them, they are read as the trees of the program. -/
structure Outline.Segmented (program : List Outline) (segments : List Text) : Prop where
  flush : ∀ segment ∈ segments, Spelled.leadingSpaces segment ≤ 1
  read (r : Tree.Reading) (index : Nat) (rest : List Text) :
    Tree.readFrom r index (segments ++ rest) =
      Tree.readFrom ⟨(Outline.trees index program).reverse ++ r.current, r.pending⟩
        (index + Outline.sizeAll program) rest

namespace Phrase

variable (p : Phrase) (gap : Text)

theorem command : Tree.commandOf p.text = p.text := Text.replace_of_not_infix _ p.not_double

private theorem role_plain (plain : p.firstWord ∉ Layout.closing :: Tree.blockWords) :
    Tree.Role.of p.text = .plain := by
  rw [List.mem_cons, not_or] at plain
  change (if p.firstWord ∈ Tree.blockWords then _ else if p.firstWord =
    Layout.closing then _ else _) = _
  rw [if_neg plain.2, if_neg plain.1]

private theorem role_opens (opens : p.firstWord ∈ Tree.blockWords) : Tree.Role.of p.text = .opens :=
  if_pos opens

private theorem segment_whole : ';' ∉ Layout.margin gap ++ p.text := by
  intro member
  rcases List.mem_append.mp member with indent | inside
  · exact absurd (Layout.eq_of_mem_margin indent) (by decide)
  · exact p.whole _ (by decide) inside

end Phrase

theorem Outline.Segmented.nil : Segmented [] [] :=
  ⟨fun _ member => absurd member List.not_mem_nil, fun _ _ _ => rfl⟩

theorem Outline.Segmented.statement (gap : Text) (p : Phrase)
    (plain : p.firstWord ∉ Layout.closing :: Tree.blockWords) {rest : List Outline}
    {segments : List Text} (others : Segmented rest segments) :
    Segmented (.statement p plain :: rest) ((Layout.margin gap ++ p.text) :: segments) := by
  constructor
  · intro segment member
    rcases List.mem_cons.mp member with rfl | later
    · exact Layout.leadingSpaces_margin gap p.head_ne_space
    · exact others.flush segment later
  · intro r index more
    rw [List.cons_append, Tree.readFrom, Layout.dropSpaces_margin gap p.head_ne_space,
      p.role_plain plain, p.command]
    simp only [others.read, Outline.trees, Outline.tree, Outline.size, Outline.sizeAll,
      List.reverse_cons, List.append_assoc, List.singleton_append, Nat.add_assoc]

theorem Outline.Segmented.block (gap last : Text) (p : Phrase)
    (opens : p.firstWord ∈ Tree.blockWords) {body rest : List Outline}
    {inner segments : List Text} (inside : Segmented body inner)
    (others : Segmented rest segments) :
    Segmented (.block p opens body :: rest)
      ((Layout.margin gap ++ p.text) ::
        (inner ++ (Layout.margin last ++ Layout.closing) :: segments)) := by
  constructor
  · intro segment member
    rcases List.mem_cons.mp member with rfl | member
    · exact Layout.leadingSpaces_margin gap p.head_ne_space
    · rcases List.mem_append.mp member with within | member
      · exact inside.flush segment within
      · rcases List.mem_cons.mp member with rfl | later
        · exact Layout.leadingSpaces_margin last (by decide)
        · exact others.flush segment later
  · intro r index more
    have closes : Tree.Role.of Layout.closing = .closes := by decide
    rw [List.cons_append, Tree.readFrom, Layout.dropSpaces_margin gap p.head_ne_space,
      p.role_opens opens, p.command]
    simp only [List.append_assoc, inside.read, List.cons_append, List.append_nil]
    -- The head is still open when its body has been read; now it is closed.
    rw [Tree.readFrom, Layout.dropSpaces_margin last (by decide), closes]
    simp only [Tree.Reading.close?, List.reverse_reverse, others.read, Outline.trees, Outline.tree,
      Outline.size, Outline.sizeAll, List.reverse_cons, List.append_assoc, List.singleton_append]
    have next : index + 1 + Outline.sizeAll body + 1 =
      index + (Outline.sizeAll body + 2) := by omega
    rw [next, Nat.add_assoc]

/-- A written program is cut where it ends, and flattening it gives its segments. -/
theorem Written.segmented {program : List Outline} {source : Text}
    (written : Written program source) :
    Layout.IsCut source ∧ ∃ segments, Outline.Segmented program segments ∧
      ∀ rest, (Layout.flatten source ++ rest).splitOn ';' = segments ++ rest.splitOn ';' := by
  induction written with
  | nil => exact ⟨Layout.isCut_nil, [], .nil, fun _ => rfl⟩
  | @statement gap source rest blank p plain others ih =>
    obtain ⟨cut, segments, segmented, split⟩ := ih
    refine ⟨Layout.isCut_stop_append _ (by decide) cut, _, segmented.statement gap p plain, ?_⟩
    intro more
    rw [Layout.flatten_append (Layout.isCut_stop _ (by decide)), Layout.flatten_statement blank p,
      List.append_assoc _ _ more, Layout.splitOn_segment (p.segment_whole gap), split,
      List.cons_append]
  | @block gap inside last source body rest blank p opens inner closing others first second =>
    obtain ⟨cutInside, innerSegments, innerSegmented, innerSplit⟩ := first
    obtain ⟨cut, segments, segmented, split⟩ := second
    have opened : Layout.IsCut (gap ++ p.text ++ " \x7b".toList) := by
      have ended := Layout.isCut_stop (gap ++ p.text ++ [' ']) (by decide : '\x7b' ∈ Layout.stops)
      simpa using ended
    have closed : Layout.IsCut (last ++ ['\x7d']) := Layout.isCut_stop last (by decide)
    have tail : Layout.IsCut (inside ++ (last ++ ['\x7d'] ++ source)) := by
      rw [← List.append_assoc, ← List.append_assoc]
      exact Layout.isCut_stop_append (inside ++ last) (by decide) cut
    refine ⟨?_, _, innerSegmented.block gap last p opens segmented, ?_⟩
    · have whole := Layout.isCut_stop_append (gap ++ p.text ++ [' '])
        (by decide : '\x7b' ∈ Layout.stops) tail
      simpa using whole
    · intro more
      have ended : ';' ∉ Layout.margin last ++ Layout.closing := by
        intro member
        rcases List.mem_append.mp member with indent | inside
        · exact absurd (Layout.eq_of_mem_margin indent) (by decide)
        · exact absurd inside (by decide)
      rw [Layout.flatten_append opened, Layout.flatten_append cutInside,
        Layout.flatten_append closed, Layout.flatten_head blank p, Layout.flatten_closing closing]
      simp only [List.append_assoc]
      rw [← List.append_assoc, ← List.append_assoc,
        Layout.splitOn_segment (p.segment_whole gap), innerSplit]
      rw [← List.append_assoc, ← List.append_assoc, Layout.splitOn_segment ended, split,
        List.cons_append, List.append_assoc, List.cons_append]

private theorem Tree.depthAll_concat_leaf (trees : List Tree) (command : Text) (index : Nat) :
    depthAll (trees ++ [.leaf command index]) = depthAll trees := by
  induction trees with
  | nil => rfl
  | cons t rest ih => rw [List.cons_append, depthAll, depthAll, ih]

/-- A written program and a last gap are read as the trees of the program and an empty statement. -/
theorem Written.parse {program : List Outline} {source gap : Text}
    (written : Written program source) (blank : Layout.IsGap gap) :
    Tree.parse (Layout.flatten (source ++ gap)) =
        (Outline.trees 0 program ++ [.leaf [] (Outline.sizeAll program)], Outline.sizeAll program) ∧
      ∀ segment ∈ (Layout.flatten (source ++ gap)).splitOn ';',
        Spelled.leadingSpaces segment ≤ 1 := by
  obtain ⟨cut, segments, segmented, split⟩ := written.segmented
  have final : ';' ∉ Layout.margin gap :=
    fun member => absurd (Layout.eq_of_mem_margin member) (by decide)
  have last := Layout.dropSpaces_margin gap (by decide : ([] : Text).head? ≠ some ' ')
  have flush := Layout.leadingSpaces_margin gap (by decide : ([] : Text).head? ≠ some ' ')
  have plain : Tree.Role.of [] = .plain := by decide
  rw [List.append_nil] at last flush
  rw [Layout.flatten_append cut, Layout.flatten_gap blank, Tree.parse, split,
    List.splitOn_eq_singleton final]
  constructor
  · rw [segmented.read, Tree.readFrom, last, plain]
    simp [Tree.readFrom, Tree.Reading.closeAll, Tree.commandOf]
  · intro segment member
    rcases List.mem_append.mp member with inside | only
    · exact segmented.flush segment inside
    · rw [List.mem_singleton.mp only]
      exact flush

/-- A program is written out, with whatever line breaks and indentation, and flattened and read. The
result is the trees of the program and one empty statement, and so it is for every other way of
writing the program. Only nesting beyond a limit keeps it from being read. -/
theorem parse_flatten_written (program : List Outline) (source tail : Text)
    (written : Written program source) (blank : Layout.IsGap tail) :
    let flat := Layout.flatten (source ++ tail)
    Tree.parse flat = (Outline.trees 0 program ++ [.leaf [] (Outline.sizeAll program)],
      Outline.sizeAll program) ∧
      (∀ other gap, Written program other → Layout.IsGap gap →
        Tree.parse (Layout.flatten (other ++ gap)) = Tree.parse flat) ∧
      ∀ limit, 0 < limit → (Program.isTooDeep limit flat = true ↔
        limit < Tree.depthAll (Outline.trees 0 program)) := by
  intro flat
  obtain ⟨parsed, flush⟩ := written.parse blank
  refine ⟨parsed, fun other gap written blank => (written.parse blank).1.trans parsed.symm, ?_⟩
  intro limit positive
  have shallow : ∀ count, ((flat.splitOn ';').take count).any
      (fun segment => limit < Spelled.leadingSpaces segment) = false := by
    intro count
    simp only [List.any_eq_false, decide_eq_true_eq, Nat.not_lt]
    intro segment member
    exact Nat.le_trans (flush segment (List.mem_of_mem_take member)) positive
  unfold Program.isTooDeep
  rw [parsed]
  simp only
  rw [shallow, Tree.depthAll_concat_leaf, Bool.or_false, decide_eq_true_eq]

/-- A loop and a statement after it, whose lines are broken and indented by one, five and three
spaces. -/
theorem parse_flatten_written_loop :
    Tree.parse (Layout.flatten " while x<3 \x7b\n     add x x 1;\n   \x7dprint x;\n".toList) =
      ([.block "while x<3".toList 0 [.leaf "add x x 1".toList 1], .leaf "print x".toList 3,
        .leaf [] 4], 4) := by
  let head : Phrase :=
    ⟨"while x<3".toList, ⟨'w', rfl, by decide⟩, by decide, by decide, by simp [Layout.stops], by
      decide, by decide⟩
  let step : Phrase :=
    ⟨"add x x 1".toList, ⟨'a', rfl, by decide⟩, by decide, by decide, by simp [Layout.stops], by
      decide, by decide⟩
  let last : Phrase :=
    ⟨"print x".toList, ⟨'p', rfl, by decide⟩, by decide, by decide, by simp [Layout.stops], by
      decide, by decide⟩
  have inner : Written [.statement step (by decide)]
      ("\n     ".toList ++ step.text ++ [';'] ++ []) :=
    .statement (by decide) step (by decide) .nil
  have others : Written [.statement last (by decide)] ([] ++ last.text ++ [';'] ++ []) :=
    .statement (by decide) last (by decide) .nil
  have written := Written.block (by decide : Layout.IsGap [' ']) head (by decide) inner
    (by decide : Layout.IsGap "\n   ".toList) others
  exact (parse_flatten_written _ _ _ written (by decide : Layout.IsGap ['\n'])).1

end CommandScript

import CommandScript.Text.Blank
import Mathlib.Data.List.TakeWhile

/-! Cutting texts: at the first occurrence of a character, at all of them, and at the spaces around
a text. -/
namespace CommandScript

namespace Text

theorem forall_ne_of_not_mem {c : Char} {text : Text} (absent : c ∉ text) :
    ∀ d ∈ text, (d != c) = true := by
  intro d member
  apply bne_iff_ne.mpr
  intro same
  exact absent (same ▸ member)

theorem before_of_not_mem {c : Char} {text : Text} (absent : c ∉ text) : text.before c = text :=
  List.takeWhile_eq_self_iff.mpr (forall_ne_of_not_mem absent)

theorem before_append_self {c : Char} {front : Text} (absent : c ∉ front) (rest : Text) :
    before c (front ++ c :: rest) = front := by
  rw [before, List.takeWhile_append_of_pos (forall_ne_of_not_mem absent)]
  simp

theorem before_append_cons {c d : Char} {front : Text} (absent : c ∉ front) (other : d ≠ c)
    (rest : Text) : before c (front ++ d :: rest) = front ++ d :: before c rest := by
  rw [before, List.takeWhile_append_of_pos (forall_ne_of_not_mem absent)]
  simp [before, other]

theorem after_append_self {c : Char} {front : Text} (absent : c ∉ front) (rest : Text) :
    after c (front ++ c :: rest) = rest := by
  rw [after, List.dropWhile_append_of_pos (forall_ne_of_not_mem absent)]
  simp

theorem splitOn_append (c : Char) (first second : Text) :
    (first ++ c :: second).splitOn c = first.splitOn c ++ second.splitOn c :=
  List.splitOnP_append_cons first second (by simp)

theorem splitOn_append_cons {c : Char} {first : Text} (whole : c ∉ first) (rest : Text) :
    (first ++ c :: rest).splitOn c = first :: rest.splitOn c := by
  rw [splitOn_append, List.splitOn_eq_singleton whole, List.singleton_append]

private theorem not_mem_before (c : Char) (text : Text) : c ∉ text.before c := by
  intro member
  simpa using List.mem_takeWhile_imp member

theorem splitOn_eq_before (c : Char) (text : Text) :
    ∃ rest, text.splitOn c = text.before c :: rest := by
  have parts : text.before c ++ text.dropWhile (· != c) = text := List.takeWhile_append_dropWhile
  rcases known : text.dropWhile (· != c) with _ | ⟨d, rest⟩
  · rw [known, List.append_nil] at parts
    refine ⟨[], ?_⟩
    rw [← List.splitOn_eq_singleton (not_mem_before c text), parts]
  · have same : d = c := by
      have stops := List.head?_dropWhile_not (· != c) text
      simpa [known] using stops
    subst same
    rw [known] at parts
    refine ⟨rest.splitOn d, ?_⟩
    rw [← splitOn_append_cons (not_mem_before d text), parts]

theorem head?_words (text : Text) : text.words.head? = some (text.before ' ') := by
  obtain ⟨rest, parts⟩ := splitOn_eq_before ' ' text
  rw [words, parts, List.head?_cons]

theorem flatten_words (text : Text) : text.words.flatten = text.compact := by
  unfold words List.splitOn
  induction text with
  | nil => rfl
  | cons c rest ih =>
    rw [List.splitOnP_cons_eq_if_modifyHead]
    by_cases space : c = ' '
    · simp [space, ih, compact]
    · have pieces := List.splitOnP_ne_nil (· == ' ') rest
      cases split : List.splitOnP (· == ' ') rest with
      | nil => exact absurd split pieces
      | cons first more =>
        rw [split] at ih
        simp only [List.flatten_cons] at ih
        simp [space, ih, compact]

theorem mem_intercalate {c separator : Char} {parts : List Text}
    (member : c ∈ [separator].intercalate parts) : c = separator ∨ ∃ part ∈ parts, c ∈ part := by
  induction parts with
  | nil => simp at member
  | cons part rest ih =>
    cases rest with
    | nil => exact .inr ⟨part, List.mem_cons_self, by simpa using member⟩
    | cons next rest =>
      rw [List.intercalate_cons_cons] at member
      simp only [List.mem_append, List.mem_singleton] at member
      rcases member with (here | between) | later
      · exact .inr ⟨part, List.mem_cons_self, here⟩
      · exact .inl between
      · rcases ih later with between | ⟨other, listed, inside⟩
        · exact .inl between
        · exact .inr ⟨other, List.mem_cons_of_mem _ listed, inside⟩

theorem compact_of_not_mem {text : Text} (noSpace : ' ' ∉ text) : text.compact = text :=
  List.filter_eq_self.mpr (forall_ne_of_not_mem noSpace)

theorem compact_intercalate {separator : Char} (visible : separator ≠ ' ') (parts : List Text) :
    compact ([separator].intercalate parts) = [separator].intercalate (parts.map compact) := by
  induction parts with
  | nil => rfl
  | cons part rest ih =>
    cases rest with
    | nil => simp
    | cons next rest =>
      rw [List.intercalate_cons_cons, List.map_cons, List.map_cons,
        List.intercalate_cons_cons, ← List.map_cons, ← ih]
      simp [compact, visible]

theorem strip_padded {isOut : Char → Bool} {c : Char} (out : isOut c = true) (i j : Nat)
    (core : Text) :
    strip isOut (List.replicate i c ++ (core ++ List.replicate j c)) = strip isOut core := by
  have outs : ∀ k, ∀ d ∈ List.replicate k c, isOut d = true := by
    intro k d member
    rw [List.eq_of_mem_replicate member]
    exact out
  unfold strip
  rw [List.dropWhile_append_of_pos (outs i), List.dropWhile_append]
  by_cases empty : (core.dropWhile isOut).isEmpty
  · rw [if_pos empty, List.isEmpty_iff.mp empty, List.dropWhile_replicate, if_pos out]
  · rw [if_neg empty, List.reverse_append, List.reverse_replicate,
      List.dropWhile_append_of_pos (outs j)]

end Text

namespace Spelled

theorem dropWhile_spaces_flush {text : Text} (front : text.head? ≠ some ' ') :
    text.dropWhile (Spells.spells ' ') = text := by
  cases text with
  | nil => rfl
  | cons c rest =>
    have other : Spells.spells ' ' c = false := by
      simp only [Spells.spells, beq_eq_false_iff_ne]
      intro space
      exact front (by rw [← space, List.head?_cons])
    simp [other]

theorem trimSpaces_flush {text : Text} (front : text.head? ≠ some ' ')
    (back : text.getLast? ≠ some ' ') : trimSpaces text = text := by
  have turned : text.reverse.head? ≠ some ' ' := by
    rwa [List.head?_reverse]
  rw [trimSpaces, dropSpaces, dropWhile_spaces_flush front, dropWhile_spaces_flush turned,
    List.reverse_reverse]

theorem trimSpaces_cons (text : Text) : trimSpaces (' ' :: text) = trimSpaces text := rfl

theorem exists_padding (text : Text) :
    ∃ i j, text = List.replicate i ' ' ++ (trimSpaces text ++ List.replicate j ' ') := by
  have spaces : ∀ s : Text, ∃ k, s.takeWhile (Spells.spells ' ') = List.replicate k ' ' := by
    intro s
    refine ⟨_, List.eq_replicate_of_mem fun c member => ?_⟩
    have space := List.mem_takeWhile_imp member
    exact (beq_iff_eq.mp space).symm
  obtain ⟨i, front⟩ := spaces text
  obtain ⟨j, back⟩ := spaces (dropSpaces text).reverse
  have whole : (dropSpaces text).reverse =
      List.replicate j ' ' ++ (dropSpaces text).reverse.dropWhile (Spells.spells ' ') := by
    rw [← back, List.takeWhile_append_dropWhile]
  have turned := congrArg List.reverse whole
  rw [List.reverse_reverse, List.reverse_append, List.reverse_replicate] at turned
  refine ⟨i, j, ?_⟩
  rw [← List.append_assoc, List.append_assoc, trimSpaces, ← turned, ← front, dropSpaces,
    List.takeWhile_append_dropWhile]

theorem mem_trimSpaces_iff {text : Text} {c : Char} (other : c ≠ ' ') :
    c ∈ trimSpaces text ↔ c ∈ text := by
  obtain ⟨i, j, padded⟩ := exists_padding text
  generalize trimSpaces text = core at padded ⊢
  subst padded
  simp [other]

theorem compact_of_oneWord {text : Text} (oneWord : ' ' ∉ trimSpaces text) :
    text.compact = trimSpaces text := by
  obtain ⟨i, j, padded⟩ := exists_padding text
  generalize trimSpaces text = core at padded oneWord ⊢
  subst padded
  have kept : core.filter (· != ' ') = core := Text.compact_of_not_mem oneWord
  simp [Text.compact, kept]

theorem isQuoted_ends {text : Text} (quoted : isQuoted text = true) :
    text.head? ≠ some ' ' ∧ text.getLast? ≠ some ' ' := by
  unfold isQuoted at quoted
  split at quoted
  · next first last head tail =>
    rw [head, tail]
    constructor
    all_goals
      intro space
      cases space
      simp [Spells.spells] at quoted
  · cases quoted

end Spelled

end CommandScript

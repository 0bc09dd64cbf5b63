import CommandScript.Execution
import CommandScript.Proofs.Cutting
import CommandScript.Proofs.Flattening

/-! The flat form is a normal form: nothing is left in it to be replaced, so that flattening it
again changes nothing. A replacement deletes spaces and joins what was apart, and might so bring
about what an earlier one takes out. It does not: spaces never come to stand side by side, and what
comes to stand between two spaces when an operator is tightened has the operator in it with
something on either side, and is longer than any operator. -/
namespace CommandScript

namespace Text

def spaced (text : Text) : Text := ' ' :: (text ++ [' '])

private theorem spaced_ne_nil (text : Text) : spaced text ≠ [] := List.cons_ne_nil _ _

/-- A character that is neither in a text nor right behind it comes later than that. -/
theorem length_lt_of_prefix_append {c : Char} {a b x : Text} (clean : c ∉ a)
    (next : b.head? ≠ some c) (found : x ++ [c] <+: a ++ b) : a.length < x.length := by
  have place : (a ++ b)[x.length]? = some c := by
    obtain ⟨rest, same⟩ := found
    rw [← same]
    simp
  by_contra early
  rcases Nat.lt_or_eq_of_le (Nat.le_of_not_lt early) with inside | edge
  · rw [List.getElem?_append_left inside] at place
    exact clean (List.mem_of_getElem? place)
  · rw [edge, List.getElem?_append_right (Nat.le_refl _),
      Nat.sub_self, ← List.head?_eq_getElem?] at place
    exact next place

section Tightening

variable {op x text : Text} (filled : op ≠ []) (whole : ' ' ∉ op) (plain : ' ' ∉ x)
  (short : x.length ≤ op.length + 1)
include filled whole plain short

/-- What stands before the first space of a text that does not begin with one, if it is short, stood
there before an operator was tightened. -/
theorem prefix_of_prefix_replace (single : ¬ [' ', ' '] <:+: text) (first : text.head? ≠ some ' ')
    (found : x ++ [' '] <+: replace (spaced op) op text) : x ++ [' '] <+: text := by
  by_cases cut : ' ' ∈ text
  · obtain ⟨front, more, rfl, clean⟩ := List.eq_append_cons_of_mem cut
    rw [replace_append_of_head op rfl clean] at found
    by_cases here : spaced op <+: ' ' :: more
    · -- the operator is tightened at once, and a character stands on either side of it
      exfalso
      obtain ⟨last, same⟩ := here
      rw [← same, replace_part_append op (spaced_ne_nil op), ← List.append_assoc] at found
      have begun : 0 < front.length := by
        apply List.length_pos_iff.mpr
        rintro rfl
        exact first rfl
      have next : (replace (spaced op) op last).head? ≠ some ' ' := by
        intro space
        obtain ⟨tail, rfl⟩ := List.head?_eq_some_iff.mp
          (head?_of_head?_replace ' ' (spaced_ne_nil op) filled whole last space)
        apply single
        rw [← same]
        exact ⟨front ++ ' ' :: op, tail, by simp [spaced]⟩
      have unspaced : ' ' ∉ front ++ op := List.not_mem_append clean whole
      have later := length_lt_of_prefix_append unspaced next found
      rw [List.length_append] at later
      omega
    · rw [replace_cons op ' ' more here] at found
      obtain ⟨rest, same⟩ := found
      have equal := congrArg (before ' ') same
      rw [List.append_assoc, List.singleton_append, before_append_self plain,
        before_append_self clean] at equal
      subst equal
      exact ⟨more, by simp⟩
  · have absent : ¬ spaced op <:+: text := not_infix_of_mem (c := ' ') List.mem_cons_self cut
    rwa [Text.replace_of_not_infix op absent] at found

/-- Tightening an operator leaves it nowhere between spaces, and puts nothing else there that is as
short. -/
theorem spaced_of_spaced_replace (single : ¬ [' ', ' '] <:+: text)
    (found : spaced x <:+: replace (spaced op) op text) : spaced x <:+: text ∧ x ≠ op := by
  revert single found
  refine replace_induction (spaced_ne_nil op)
    (motive := fun text result => ¬ [' ', ' '] <:+: text → spaced x <:+: result →
      spaced x <:+: text ∧ x ≠ op) ?_ ?_ ?_ text
  · intro _ found
    exact absurd (List.eq_nil_of_infix_nil found) (spaced_ne_nil x)
  · intro rest ih single found
    have inner := (List.suffix_append (spaced op) rest).isInfix
    exact (ih (fun pair => single (pair.trans inner))
      (infix_of_infix_append rfl whole found)).imp_left (·.trans inner)
  · intro c rest absent ih single found
    have inner := (List.suffix_cons c rest).isInfix
    have singleRest : ¬ [' ', ' '] <:+: rest := fun pair => single (pair.trans inner)
    rcases List.infix_cons_iff.mp found with now | later
    · obtain ⟨rfl, behind⟩ := List.cons_prefix_cons.mp now
      have first : rest.head? ≠ some ' ' :=
        fun space => single ((pair_prefix_iff ' ' ' ' rest).mpr ⟨rfl, space⟩).isInfix
      have here : spaced x <+: ' ' :: rest :=
        (List.prefix_cons_inj ' ').mpr
          (prefix_of_prefix_replace filled whole plain short singleRest first behind)
      refine ⟨here.isInfix, ?_⟩
      rintro rfl
      exact absent here
    · exact (ih singleRest later).imp_left (·.trans inner)

end Tightening

end Text

namespace Layout

def operators : List Text := ["==".toList, "!=".toList, ">".toList, "<".toList]

/-- A text in which nothing is left to be replaced. -/
structure IsFlat (text : Text) : Prop where
  oneLine : '\n' ∉ text
  noOpening : '\x7b' ∉ text
  noClosing : '\x7d' ∉ text
  singleSpaces : ¬ [' ', ' '] <:+: text
  tight : ∀ op ∈ operators, ¬ Text.spaced op <:+: text

/-- Flattening ends with the operators, which lose the spaces around them one after the other. -/
theorem flatten_eq_tighten (source : Text) :
    flatten source = (operators.map fun op => (Text.spaced op, op)).foldl
      (fun text entry => Text.replace entry.1 entry.2 text)
      ((replacements.take 7).foldl (fun text entry => Text.replace entry.1 entry.2 text) source) :=
        flatten_eq_foldl_drop 7 source

/-- Of the short texts between spaces only those are left that were there at the start and are no
operators. -/
theorem spaced_of_spaced_foldl {x : Text} (plain : ' ' ∉ x) {ops : List Text}
    (known : ∀ op ∈ ops, op ≠ [] ∧ ' ' ∉ op ∧ x.length ≤ op.length + 1) {text : Text}
    (single : ¬ [' ', ' '] <:+: text)
    (found : Text.spaced x <:+: (ops.map fun op => (Text.spaced op, op)).foldl
      (fun text entry => Text.replace entry.1 entry.2 text) text) :
    Text.spaced x <:+: text ∧ x ∉ ops := by
  induction ops generalizing text with
  | nil => exact ⟨found, List.not_mem_nil⟩
  | cons op ops ih =>
    obtain ⟨⟨filled, whole, short⟩, others⟩ := List.forall_mem_cons.mp known
    have still := Text.not_pair_replace ' ' (Text.spaced_ne_nil op) filled whole text single
    obtain ⟨inside, rest⟩ := ih others still found
    obtain ⟨before, other⟩ := Text.spaced_of_spaced_replace filled whole plain short single inside
    exact ⟨before, List.not_mem_cons_of_ne_of_not_mem other rest⟩

private theorem newline_not_mem_flatten (source : Text) : '\n' ∉ flatten source := by
  have gone : '\n' ∉ Text.replace ['\n'] [] source := by
    rw [Text.replace_singleton, List.mem_flatMap]
    rintro ⟨c, _, member⟩
    split at member
    · exact List.not_mem_nil member
    · next other => exact other (List.mem_singleton.mp member).symm
  exact not_mem_foldl (replacements.drop 1) (by decide) gone

private theorem isFlat_flatten (source : Text) : IsFlat (flatten source) where
  oneLine := newline_not_mem_flatten source
  noOpening := (brace_not_mem_flatten source).1
  noClosing := (brace_not_mem_flatten source).2
  singleSpaces := not_double_flatten source
  tight op listed found := by
    have each : ∀ op ∈ operators, ' ' ∉ op ∧
        ∀ other ∈ operators, other ≠ [] ∧ ' ' ∉ other ∧ op.length ≤ other.length + 1 := by decide
    obtain ⟨plain, known⟩ := each op listed
    rw [flatten_eq_tighten] at found
    exact (spaced_of_spaced_foldl plain known (not_double_take (by decide) source) found).2 listed

/-- Whatever is replaced has a line break, a brace or two spaces in it, or is an operator with its
spaces. -/
theorem isFlat_iff {text : Text} : IsFlat text ↔ ∀ entry ∈ replacements, ¬ entry.1 <:+: text := by
  constructor
  · intro flat entry listed found
    have cases : ∀ entry ∈ replacements, '\n' ∈ entry.1 ∨ '\x7b' ∈ entry.1 ∨ '\x7d' ∈ entry.1 ∨
      [' ', ' '] <:+: entry.1 ∨
        ∃ op ∈ operators, entry.1 = Text.spaced op := by decide
    rcases cases entry listed with inside | inside | inside | inside | ⟨op, known, same⟩
    · exact flat.oneLine (found.subset inside)
    · exact flat.noOpening (found.subset inside)
    · exact flat.noClosing (found.subset inside)
    · exact flat.singleSpaces (inside.trans found)
    · exact flat.tight op known (same ▸ found)
  · intro absent
    have gone : ∀ c new, ([c], new) ∈ replacements → c ∉ text :=
      fun c new listed member => absent _ listed ((List.singleton_infix_iff c text).mpr member)
    have listed : ∀ op ∈ operators, (Text.spaced op, op) ∈ replacements := by decide
    exact
      { oneLine := gone '\n' [] (by decide)
        noOpening := gone '\x7b' [';'] (by decide)
        noClosing := gone '\x7d' (closing ++ [';']) (by decide)
        singleSpaces := absent ([' ', ' '], []) (by decide)
        tight := fun op known => absent (Text.spaced op, op) (listed op known) }

instance (text : Text) : Decidable (IsFlat text) := decidable_of_iff _ isFlat_iff.symm

theorem IsFlat.flatten {text : Text} (flat : IsFlat text) : Layout.flatten text = text :=
  Text.foldl_replace_of_not_infix _ (isFlat_iff.mp flat)

/-- A text is its own flat form exactly if it is flat. -/
theorem flatten_eq_self_iff {text : Text} : flatten text = text ↔ IsFlat text :=
  ⟨fun same => same ▸ isFlat_flatten text, IsFlat.flatten⟩

/-- Flattening gives a text on one line without braces, in which spaces stand alone and no operator
is between two of them. A text like that, and no other, is left alone by flattening. So flattening
twice is the same as flattening once, and a program that is run from its flat form runs as it does
from its source. -/
theorem flat_form_is_final (source : Text) :
    IsFlat (flatten source) ∧ flatten (flatten source) = flatten source ∧
    (flatten source = source ↔ IsFlat source) ∧
      ∀ limits scope interactive file,
        Program.run limits scope interactive file (flatten source) =
          Program.run limits scope interactive file source := by
  have flat := isFlat_flatten source
  refine ⟨flat, flat.flatten, flatten_eq_self_iff, fun limits scope interactive file => ?_⟩
  rw [Program.run, Program.run, Program.load, Program.load, flat.flatten]

example : flatten "if (a == == b)\n    \x7bx > > y\x7d".toList =
    "if (a==== b);x>> yendblock;".toList := by decide

example : IsFlat "x>> y;".toList ∧ ¬ IsFlat "x > y;".toList := by decide

end Layout

end CommandScript

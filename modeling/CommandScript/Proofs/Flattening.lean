import CommandScript.Source.Layout
import Mathlib.Data.List.Basic
import Mathlib.Data.List.Infix

/-! Replacing parts of a text. A text can be cut after a character that no part goes beyond: the
halves are replaced in one by one. Flattening replaces eleven parts in turn, and none of them goes
beyond a semicolon or a brace. -/
namespace CommandScript

namespace Text

variable {part : Text} (new : Text)

private theorem replaceFrom_eq_replace_drop (skip : Nat) (text : Text) :
    replaceFrom part new skip text = replace part new (text.drop skip) := by
  induction skip generalizing text with
  | zero => rfl
  | succ skip ih =>
    cases text with
    | nil => rfl
    | cons c rest =>
      rw [replaceFrom, List.drop_succ_cons]
      exact ih rest

variable {new} in
@[simp] theorem replace_nil : replace part new [] = [] := rfl

theorem replace_part_append (nonempty : part ≠ []) (rest : Text) :
    replace part new (part ++ rest) = new ++ replace part new rest := by
  obtain ⟨c, tail, rfl⟩ := List.exists_cons_of_ne_nil nonempty
  have found : (c :: tail).isPrefixOf (c :: (tail ++ rest)) = true :=
    List.isPrefixOf_iff_prefix.mpr (List.prefix_append (c :: tail) rest)
  have step : replace (c :: tail) new (c :: (tail ++ rest)) =
      new ++ replaceFrom (c :: tail) new tail.length (tail ++ rest) := by
    simp only [replace, replaceFrom, found, if_true, List.length_cons, Nat.add_sub_cancel]
  rw [List.cons_append, step, replaceFrom_eq_replace_drop, List.drop_left]

theorem replace_cons (c : Char) (rest : Text) (absent : ¬ part <+: c :: rest) :
    replace part new (c :: rest) = c :: replace part new rest := by
  have missed : part.isPrefixOf (c :: rest) = false := by
    rw [← Bool.not_eq_true, List.isPrefixOf_iff_prefix]
    exact absent
  simp [replace, replaceFrom, missed]

theorem hasPart_iff_infix (text : Text) : hasPart part text = true ↔ part <:+: text := by
  induction text with
  | nil => simp [hasPart]
  | cons c rest ih => simp [hasPart, List.infix_cons_iff, ih]

theorem replace_of_not_infix {text : Text} (absent : ¬ part <:+: text) :
    replace part new text = text := by
  induction text with
  | nil => rfl
  | cons c rest ih =>
    rw [List.infix_cons_iff, not_or] at absent
    rw [replace_cons new c rest absent.1, ih absent.2]

theorem not_infix_of_mem {c : Char} {text : Text} (inside : c ∈ part) (outside : c ∉ text) :
    ¬ part <:+: text :=
  fun found => outside (found.subset inside)

theorem not_infix_concat {c : Char} {text : Text} (nonempty : part ≠ []) (outside : c ∉ part)
    (absent : ¬ part <:+: text) : ¬ part <:+: text ++ [c] := by
  rw [List.infix_concat_iff, List.suffix_concat_iff]
  rintro ((empty | ⟨front, rfl, _⟩) | found)
  · exact nonempty empty
  · exact outside (by simp)
  · exact absent found

theorem foldl_replace_of_not_infix {text : Text} (entries : List (Text × Text))
    (absent : ∀ entry ∈ entries, ¬ entry.1 <:+: text) :
    entries.foldl (fun text entry => replace entry.1 entry.2 text) text = text := by
  induction entries with
  | nil => rfl
  | cons entry entries ih =>
    obtain ⟨here, others⟩ := List.forall_mem_cons.mp absent
    rw [List.foldl_cons, replace_of_not_infix entry.2 here, ih others]

/-- A part whose last character stands nowhere before is replaced at the end of a text. -/
theorem replace_at_end {front : Text} {c : Char} (outside : c ∉ front) (text : Text)
    (absent : c ∉ text) : replace (front ++ [c]) new (text ++ (front ++ [c])) = text ++ new := by
  induction text with
  | nil =>
    have nonempty : front ++ [c] ≠ [] := by simp
    simpa using replace_part_append new nonempty []
  | cons x rest ih =>
    obtain ⟨here, later⟩ := not_or.mp (List.mem_cons.not.mp absent)
    have early : ¬ front ++ [c] <+: x :: (rest ++ (front ++ [c])) := by
      intro found
      have shorter : front ++ [c] <+: x :: (rest ++ front) := by
        have within : x :: (rest ++ front) <+: x :: (rest ++ (front ++ [c])) := ⟨[c], by simp⟩
        apply List.prefix_of_prefix_length_le found within
        simp only [List.length_append, List.length_cons, List.length_nil]
        omega
      have inside : c ∈ x :: (rest ++ front) := shorter.subset (by simp)
      simp [here, later, outside] at inside
    rw [List.cons_append, replace_cons new _ _ early, ih later]
    rfl

/-- A text can be cut after a character that no part goes beyond. What comes of the first half ends
in this character, or in what replaces a part that ends in it. -/
theorem replace_cut (nonempty : part ≠ []) {c : Char} (stop : c ∉ part.dropLast) (text : Text) :
    ∃ front last, (∀ rest, replace part new (text ++ [c] ++ rest) =
      front ++ last ++ replace part new rest) ∧
      (last = [c] ∨ part.getLast? = some c ∧ last = new) := by
  induction size : text.length using Nat.strong_induction_on generalizing text with
  | _ n ih =>
    by_cases found : part <+: text ++ [c]
    · obtain ⟨after, same⟩ := found
      rcases List.eq_nil_or_concat' after with rfl | ⟨inner, last, rfl⟩
      · rw [List.append_nil] at same
        refine ⟨[], new, ?_, .inr ⟨by rw [same, List.getLast?_concat], rfl⟩⟩
        intro rest
        rw [← same, replace_part_append new nonempty, List.nil_append]
      · rw [← List.append_assoc] at same
        obtain ⟨rfl, single⟩ := List.append_inj' same rfl
        obtain rfl := List.singleton_inj.mp single
        have smaller : inner.length < n := by
          have positive := List.length_pos_iff.mpr nonempty
          rw [← size, List.length_append]
          omega
        obtain ⟨front, end_, cut, ended⟩ := ih inner.length smaller inner rfl
        refine ⟨new ++ front, end_, ?_, ended⟩
        intro rest
        have whole : part ++ inner ++ [last] ++ rest = part ++ (inner ++ [last] ++ rest) := by simp
        rw [whole, replace_part_append new nonempty, cut rest]
        simp
    · -- A part that begins here and ends later has the character before its end.
      have absent : ∀ rest, ¬ part <+: text ++ [c] ++ rest := by
        intro rest longer
        rcases List.prefix_or_prefix_of_prefix longer (List.prefix_append (text ++ [c]) rest)
          with within | beyond
        · exact found within
        · obtain ⟨more, same⟩ := beyond
          rcases List.eq_nil_or_concat' more with rfl | ⟨inner, last, rfl⟩
          · exact found (by rw [← same, List.append_nil])
          · apply stop
            rw [← same, ← List.append_assoc, List.dropLast_concat]
            simp
      cases text with
      | nil =>
        refine ⟨[], [c], ?_, .inl rfl⟩
        intro rest
        exact replace_cons new c rest (absent rest)
      | cons x text =>
        have smaller : text.length < n := by rw [← size, List.length_cons]; omega
        obtain ⟨front, end_, cut, ended⟩ := ih text.length smaller text rfl
        refine ⟨x :: front, end_, ?_, ended⟩
        intro rest
        have step := replace_cons new x _ (absent rest)
        simp only [List.cons_append]
        rw [← cut rest]
        exact step

/-- A text can be cut at a character that no part has: both sides are replaced in one by one. -/
theorem replace_append_cons (nonempty : part ≠ []) {c : Char} (outside : c ∉ part)
    (text rest : Text) :
    replace part new (text ++ c :: rest) = replace part new text ++ c :: replace part new rest := by
  induction size : text.length using Nat.strong_induction_on generalizing text with
  | _ n ih =>
    have within : part <+: text ++ c :: rest → part <+: text := by
      intro found
      rcases List.prefix_or_prefix_of_prefix found (List.prefix_append text (c :: rest))
        with here | ⟨more, rfl⟩
      · exact here
      · rw [List.prefix_append_right_inj] at found
        cases more with
        | nil => simp
        | cons d more =>
          obtain ⟨rfl, _⟩ := List.cons_prefix_cons.mp found
          simp at outside
    by_cases found : part <+: text
    · obtain ⟨after, rfl⟩ := found
      have smaller : after.length < n := by
        have positive := List.length_pos_iff.mpr nonempty
        rw [← size, List.length_append]
        omega
      rw [List.append_assoc, replace_part_append new nonempty, replace_part_append new nonempty,
        ih _ smaller after rfl, List.append_assoc]
    · cases text with
      | nil => exact replace_cons new c rest fun here => found (within here)
      | cons x text =>
        have smaller : text.length < n := by rw [← size, List.length_cons]; omega
        have step := replace_cons new x (text ++ c :: rest) fun here => found (within here)
        rw [List.cons_append, step, replace_cons new x text found, ih _ smaller text rfl,
          List.cons_append]

theorem replace_append_of_head {front : Text} {c : Char} (first : part.head? = some c)
    (absent : c ∉ front) (rest : Text) :
    replace part new (front ++ rest) = front ++ replace part new rest := by
  induction front with
  | nil => rfl
  | cons d front ih =>
    have other : ¬ part <+: d :: (front ++ rest) := by
      intro found
      obtain ⟨tail, rfl⟩ : ∃ tail, part = c :: tail := List.head?_eq_some_iff.mp first
      have same := (List.cons_prefix_cons.mp found).1
      exact absent (same ▸ List.mem_cons_self)
    rw [List.cons_append, replace_cons new d _ other,
      ih fun member => absent (List.mem_cons_of_mem d member), List.cons_append]

/-- The replacing of single characters, one by one. -/
theorem replace_singleton (c : Char) (text : Text) :
    replace [c] new text = text.flatMap fun x => if x = c then new else [x] := by
  induction text with
  | nil => rfl
  | cons x rest ih =>
    rw [List.flatMap_cons, ← ih]
    by_cases same : x = c
    · rw [same, if_pos rfl]
      exact replace_part_append new (List.cons_ne_nil c []) rest
    · rw [if_neg same]
      apply replace_cons
      rintro ⟨_, whole⟩
      exact same (List.cons.inj whole).1.symm

/-- A row of equal characters is taken off a longer row as often as it fits. -/
theorem replace_replicate (c : Char) (k n : Nat) (rest : Text) (other : rest.head? ≠ some c) :
    replace (List.replicate (k + 1) c) [] (List.replicate n c ++ rest) =
      List.replicate (n % (k + 1)) c ++ replace (List.replicate (k + 1) c) [] rest := by
  induction n using Nat.strong_induction_on with
  | _ n ih =>
    by_cases fits : k + 1 ≤ n
    · obtain ⟨m, rfl⟩ := Nat.exists_eq_add_of_le fits
      have split : List.replicate (k + 1 + m) c ++ rest =
          List.replicate (k + 1) c ++ (List.replicate m c ++ rest) := by
        rw [List.replicate_add, List.append_assoc]
      rw [split, replace_part_append [] (by simp), List.nil_append, ih m (by omega),
        Nat.add_mod_left]
    · rw [Nat.mod_eq_of_lt (Nat.lt_of_not_le fits)]
      cases n with
      | zero => rfl
      | succ n =>
        have absent : ¬ List.replicate (k + 1) c <+: c :: (List.replicate n c ++ rest) := by
          rintro ⟨after, same⟩
          apply other
          have next := congrArg (·[n + 1]?) same
          have within : n + 1 < k + 1 := by omega
          simpa [List.getElem?_append, within, List.head?_eq_getElem?] using next.symm
        have step := replace_cons [] c _ absent
        rw [ih n (by omega), Nat.mod_eq_of_lt (by omega)] at step
        exact step

section Induction

variable {part new : Text}

/-- Replacing goes over a text part by part and character by character. -/
theorem replace_induction (nonempty : part ≠ []) {motive : Text → Text → Prop}
    (nil : motive [] [])
    (found : ∀ rest, motive rest (replace part new rest) →
      motive (part ++ rest) (new ++ replace part new rest))
    (kept : ∀ c rest, ¬ part <+: c :: rest → motive rest (replace part new rest) →
      motive (c :: rest) (c :: replace part new rest))
    (text : Text) : motive text (replace part new text) := by
  induction size : text.length using Nat.strong_induction_on generalizing text with
  | _ n ih =>
    by_cases here : part <+: text
    · obtain ⟨rest, rfl⟩ := here
      have smaller : rest.length < n := by
        have positive := List.length_pos_iff.mpr nonempty
        rw [← size, List.length_append]
        omega
      rw [replace_part_append new nonempty]
      exact found rest (ih _ smaller rest rfl)
    · cases text with
      | nil => exact nil
      | cons c rest =>
        have smaller : rest.length < n := by rw [← size, List.length_cons]; omega
        rw [replace_cons new c rest here]
        exact kept c rest here (ih _ smaller rest rfl)

private theorem mem_replace (nonempty : part ≠ []) {c : Char} (text : Text)
    (member : c ∈ replace part new text) : c ∈ text ∨ c ∈ new ∧ part <:+: text := by
  revert member
  refine replace_induction nonempty (motive := fun text result => c ∈ result → c ∈ text ∨ c ∈ new ∧
    part <:+: text) ?_ ?_ ?_ text
  · exact .inl
  · intro rest ih member
    rcases List.mem_append.mp member with added | left
    · exact .inr ⟨added, List.infix_append [] part rest⟩
    · refine (ih left).imp (List.mem_append_right part) (And.imp_right fun inside => ?_)
      exact inside.trans (List.suffix_append part rest).isInfix
  · intro d rest _ ih member
    rcases List.mem_cons.mp member with same | left
    · exact .inl (List.mem_cons.mpr (.inl same))
    · exact (ih left).imp (List.mem_cons_of_mem d)
        (And.imp_right fun inside => inside.trans (List.suffix_cons d rest).isInfix)

variable (c : Char)

theorem pair_prefix_iff (d : Char) (text : Text) :
    [c, c] <+: d :: text ↔ d = c ∧ text.head? = some c := by
  cases text with
  | nil => simp
  | cons e rest => simp [List.cons_prefix_cons, eq_comm]

variable {c} in
/-- A part is found behind a text that does not have its first character. -/
theorem infix_of_infix_append {front rest : Text} (first : part.head? = some c)
    (other : c ∉ front) (found : part <:+: front ++ rest) : part <:+: rest := by
  induction front with
  | nil => exact found
  | cons d front ih =>
    obtain ⟨here, later⟩ := not_or.mp (List.mem_cons.not.mp other)
    rcases List.infix_cons_iff.mp found with now | after
    · obtain ⟨tail, rfl⟩ := List.head?_eq_some_iff.mp first
      exact absurd (List.cons_prefix_cons.mp now).1 here
    · exact ih later after

/-- A text begins with a character only if it did so before something else was put in. -/
theorem head?_of_head?_replace (nonempty : part ≠ []) (fills : new ≠ []) (other : c ∉ new)
    (text : Text) (first : (replace part new text).head? = some c) : text.head? = some c := by
  revert first
  refine replace_induction nonempty
    (motive := fun text result => result.head? = some c → text.head? = some c) id ?_ ?_ text
  · intro rest _ first
    rw [List.head?_append_of_ne_nil _ fills] at first
    exact absurd (List.mem_of_head? first) other
  · exact fun _ _ _ _ first => first

/-- Nothing but what replaces a part comes to stand between two characters. -/
theorem not_pair_replace (nonempty : part ≠ []) (fills : new ≠ []) (other : c ∉ new) (text : Text)
    (absent : ¬ [c, c] <:+: text) : ¬ [c, c] <:+: replace part new text := by
  revert absent
  refine replace_induction nonempty
    (motive := fun text result => ¬ [c, c] <:+: text → ¬ [c, c] <:+: result) id ?_ ?_ text
  · intro rest ih absent found
    exact ih (fun inside => absent (inside.trans (List.suffix_append part rest).isInfix))
      (infix_of_infix_append rfl other found)
  · intro d rest _ ih absent
    rw [List.infix_cons_iff, not_or, pair_prefix_iff] at absent ⊢
    exact ⟨fun pair => absent.1 ⟨pair.1, head?_of_head?_replace c nonempty fills other rest pair.2⟩,
      ih absent.2⟩

/-- No pair is left where pairs are taken out. -/
theorem not_pair_replace_pair (text : Text) : ¬ [c, c] <:+: replace [c, c] [] text := by
  have both : ((replace [c, c] [] text).head? = some c → text.head? = some c) ∧
      ¬ [c, c] <:+: replace [c, c] [] text := by
    refine replace_induction (List.cons_ne_nil c [c])
      (motive := fun text result => (result.head? = some c → text.head? = some c) ∧
        ¬ [c, c] <:+: result) ?_ ?_ ?_ text
    · exact ⟨id, by simp⟩
    · rintro rest ⟨_, absent⟩
      exact ⟨fun _ => rfl, absent⟩
    · rintro d rest single ⟨first, absent⟩
      refine ⟨id, ?_⟩
      rw [List.infix_cons_iff, not_or]
      rw [pair_prefix_iff] at single ⊢
      exact ⟨fun pair => single ⟨pair.1, first pair.2⟩, absent⟩
  exact both.2

end Induction

end Text

namespace Layout

def stops : List Char := [';', '\x7b', '\x7d']

def IsCut (text : Text) : Prop := ∀ c, text.getLast? = some c → c ∈ stops

theorem isCut_nil : IsCut [] := fun _ last => nomatch last

theorem isCut_stop_append (text : Text) {c : Char} (stop : c ∈ stops) {rest : Text}
    (cut : IsCut rest) : IsCut (text ++ [c] ++ rest) := by
  intro d last
  rw [List.getLast?_append, List.getLast?_concat] at last
  cases final : rest.getLast? with
  | none =>
    rw [final] at last
    exact Option.some.inj last ▸ stop
  | some e =>
    rw [final] at last
    exact cut d (final.trans last)

theorem isCut_stop (text : Text) {c : Char} (stop : c ∈ stops) : IsCut (text ++ [c]) := by
  have cut := isCut_stop_append text stop isCut_nil
  rwa [List.append_nil] at cut

/-- A replacement leaves a text cut, and replaces what follows apart from it. -/
private theorem replace_append {part new : Text} (nonempty : part ≠ [])
    (inner : ∀ c ∈ stops, c ∉ part.dropLast)
    (outer : ∀ c ∈ stops, part.getLast? = some c → ∃ d ∈ stops, new.getLast? = some d)
    {text : Text} (cut : IsCut text) (rest : Text) :
    IsCut (Text.replace part new text) ∧
      Text.replace part new (text ++ rest) =
        Text.replace part new text ++ Text.replace part new rest := by
  rcases List.eq_nil_or_concat' text with rfl | ⟨front, c, rfl⟩
  · exact ⟨isCut_nil, rfl⟩
  · have stop := cut c (by rw [List.getLast?_concat])
    obtain ⟨before, last, split, ended⟩ := Text.replace_cut new nonempty (inner c stop) front
    have alone := split []
    rw [List.append_nil, Text.replace_nil, List.append_nil] at alone
    refine ⟨?_, by rw [split rest, alone]⟩
    rw [alone]
    intro d final
    rcases ended with rfl | ⟨closes, rfl⟩
    · rw [List.getLast?_concat] at final
      exact Option.some.inj final ▸ stop
    · obtain ⟨e, known, last⟩ := outer c stop closes
      rw [List.getLast?_append, last] at final
      exact Option.some.inj final ▸ known

private theorem flatten_cut {text : Text} (cut : IsCut text) (rest : Text) :
    IsCut (flatten text) ∧ flatten (text ++ rest) = flatten text ++ flatten rest := by
  have each : ∀ entry ∈ replacements, entry.1 ≠ [] ∧ (∀ c ∈ stops, c ∉ entry.1.dropLast) ∧
      ∀ c ∈ stops, entry.1.getLast? = some c → ∃ d ∈ stops, entry.2.getLast? = some d := by
    simp [replacements, stops]
  unfold flatten
  generalize replacements = entries at each
  induction entries generalizing text rest with
  | nil => exact ⟨cut, rfl⟩
  | cons entry entries ih =>
    obtain ⟨⟨nonempty, inner, outer⟩, others⟩ := List.forall_mem_cons.mp each
    obtain ⟨still, split⟩ := replace_append nonempty inner outer cut rest
    simp only [List.foldl_cons]
    rw [split]
    exact ih still _ others

/-- A text that is cut is flattened apart from what follows it. -/
theorem flatten_append {text : Text} (cut : IsCut text) (rest : Text) :
    flatten (text ++ rest) = flatten text ++ flatten rest :=
  (flatten_cut cut rest).2

theorem IsCut.flatten {text : Text} (cut : IsCut text) : IsCut (flatten text) :=
  (flatten_cut cut []).1

/-- A source text can be cut at a character that no part has: both sides are flattened one by one.
-/
theorem flatten_append_cons {c : Char} (outside : ∀ entry ∈ replacements, c ∉ entry.1)
    (text rest : Text) : flatten (text ++ c :: rest) = flatten text ++ c :: flatten rest := by
  have nonempty : ∀ entry ∈ replacements, entry.1 ≠ [] := by simp [replacements]
  unfold flatten
  generalize replacements = entries at outside nonempty
  induction entries generalizing text rest with
  | nil => rfl
  | cons entry entries ih =>
    obtain ⟨here, others⟩ := List.forall_mem_cons.mp outside
    obtain ⟨some, more⟩ := List.forall_mem_cons.mp nonempty
    simp only [List.foldl_cons]
    rw [Text.replace_append_cons entry.2 some here, ih _ _ others more]

/-- The replacements in two parts. -/
theorem flatten_eq_foldl_drop (k : Nat) (text : Text) :
    flatten text = (replacements.drop k).foldl (fun text entry => Text.replace entry.1 entry.2 text)
      ((replacements.take k).foldl (fun text entry => Text.replace entry.1 entry.2 text) text) := by
  rw [← List.foldl_append, List.take_append_drop]
  rfl

/-- Once spaces are taken out in pairs, no two of them come to stand side by side again. -/
theorem not_double_foldl {entries : List (Text × Text)}
    (fills : ∀ entry ∈ entries, entry.1 ≠ [] ∧ entry.2 ≠ [] ∧ ' ' ∉ entry.2) (text : Text) :
    ¬ [' ', ' '] <:+: entries.foldl (fun text entry => Text.replace entry.1 entry.2 text)
      (Text.replace [' ', ' '] [] text) := by
  have start := Text.not_pair_replace_pair ' ' text
  generalize Text.replace [' ', ' '] [] text = text at start
  induction entries generalizing text with
  | nil => exact start
  | cons entry entries ih =>
    obtain ⟨⟨nonempty, fill, noSpace⟩, others⟩ := List.forall_mem_cons.mp fills
    exact ih others _ (Text.not_pair_replace ' ' nonempty fill noSpace text start)

/-- A text in the making has no two spaces in a row once they were taken out. -/
theorem not_double_take {k : Nat} (later : 4 ≤ k) (source : Text) :
    ¬ [' ', ' '] <:+: (replacements.take k).foldl
      (fun text entry => Text.replace entry.1 entry.2 text) source := by
  have fills : ∀ entry ∈ replacements.drop 4, entry.1 ≠ [] ∧ entry.2 ≠ [] ∧
    ' ' ∉ entry.2 := by decide
  have taken : replacements.take 4 = replacements.take 3 ++ [([' ', ' '], [])] := by decide
  obtain ⟨more, rfl⟩ := Nat.exists_eq_add_of_le later
  rw [List.take_add, taken, List.append_assoc, List.singleton_append, List.foldl_append,
    List.foldl_cons]
  exact not_double_foldl (fun entry listed => fills entry (List.mem_of_mem_take listed)) _

/-- A flat text has no two spaces in a row. -/
theorem not_double_flatten (source : Text) : ¬ "  ".toList <:+: flatten source :=
  not_double_take (k := 11) (by decide) source

def Unstopped (text : Text) : Prop := ∀ c ∈ stops, c ∉ text

instance (text : Text) : Decidable (Unstopped text) := List.decidableBAll (fun c => c ∉ text) stops

/-- A replacement has a stop in what it replaces, or it puts no stop into a text. -/
theorem replacement_cases (entry : Text × Text) (listed : entry ∈ replacements) :
    (∃ c ∈ stops, c ∈ entry.1) ∨ Unstopped entry.2 := by
  have checked : replacements.all
    (fun entry => stops.any entry.1.contains || !stops.any entry.2.contains) = true := by decide
  have here := List.all_eq_true.mp checked entry listed
  simp only [Bool.or_eq_true, Bool.not_eq_true', List.any_eq_true, List.any_eq_false,
    List.contains_iff_mem] at here
  exact here

private theorem replacement_nonempty : ∀ entry ∈ replacements, entry.1 ≠ [] := by decide

/-- A replacement puts no stop where there is none. -/
theorem Unstopped.replace {text : Text} (unstopped : Unstopped text) (entry : Text × Text)
    (listed : entry ∈ replacements) : Unstopped (Text.replace entry.1 entry.2 text) := by
  intro c stop member
  rcases Text.mem_replace (replacement_nonempty entry listed) text member with old | ⟨new, found⟩
  · exact unstopped c stop old
  · rcases replacement_cases entry listed with ⟨d, other, inside⟩ | clean
    · exact unstopped d other (found.subset inside)
    · exact clean c stop new

theorem Unstopped.foldl {text : Text} (unstopped : Unstopped text) {entries : List (Text × Text)}
    (known : entries ⊆ replacements) :
    Unstopped (entries.foldl (fun text entry => Text.replace entry.1 entry.2 text) text) := by
  induction entries generalizing text with
  | nil => exact unstopped
  | cons entry entries ih =>
    obtain ⟨here, others⟩ := List.cons_subset.mp known
    exact ih (unstopped.replace entry here) others

theorem Unstopped.flatten {text : Text} (unstopped : Unstopped text) : Unstopped (flatten text) :=
  unstopped.foldl (List.Subset.refl _)

private theorem unstopped_append (first second : Text) :
    Unstopped (first ++ second) ↔ Unstopped first ∧ Unstopped second := by
  simp only [Unstopped, List.mem_append, not_or, ← forall_and]

/-- A replacement of something with a stop puts a stop there. -/
theorem Unstopped.of_replace {text : Text} (entry : Text × Text) (listed : entry ∈ replacements)
    (unstopped : Unstopped (Text.replace entry.1 entry.2 text)) : Unstopped text := by
  have checked : replacements.all
    (fun entry => !stops.any entry.1.contains || stops.any entry.2.contains) = true := by decide
  have here := List.all_eq_true.mp checked entry listed
  simp only [Bool.or_eq_true, Bool.not_eq_true', List.any_eq_true, List.any_eq_false,
    List.contains_iff_mem] at here
  revert unstopped
  refine Text.replace_induction (replacement_nonempty entry listed)
    (motive := fun text result => Unstopped result → Unstopped text) ?_ ?_ ?_ text
  · exact id
  · intro rest ih unstopped
    obtain ⟨new, others⟩ := (unstopped_append _ _).mp unstopped
    refine (unstopped_append _ _).mpr ⟨?_, ih others⟩
    rcases here with clean | ⟨c, stop, inside⟩
    · exact clean
    · exact absurd inside (new c stop)
  · intro c rest _ ih unstopped
    obtain ⟨first, others⟩ := (unstopped_append [c] _).mp unstopped
    exact (unstopped_append [c] _).mpr ⟨first, ih others⟩

private theorem unstopped_flatten_iff {text : Text} :
    Unstopped (flatten text) ↔ Unstopped text := by
  have back : ∀ entries ⊆ replacements, ∀ text : Text,
      Unstopped (entries.foldl (fun text entry => Text.replace entry.1 entry.2 text) text) →
        Unstopped text := by
    intro entries known
    induction entries with
    | nil => exact fun _ => id
    | cons entry entries ih =>
      obtain ⟨here, others⟩ := List.cons_subset.mp known
      exact fun text unstopped => .of_replace entry here (ih others _ unstopped)
  exact ⟨back _ (List.Subset.refl _) text, Unstopped.flatten⟩

theorem not_mem_foldl {c : Char} {text : Text} (entries : List (Text × Text))
    (fills : ∀ entry ∈ entries, entry.1 ≠ [] ∧ c ∉ entry.2) (absent : c ∉ text) :
    c ∉ entries.foldl (fun text entry => Text.replace entry.1 entry.2 text) text := by
  induction entries generalizing text with
  | nil => exact absent
  | cons entry entries ih =>
    obtain ⟨⟨nonempty, fill⟩, others⟩ := List.forall_mem_cons.mp fills
    refine ih others fun member => ?_
    rcases Text.mem_replace nonempty text member with old | ⟨new, _⟩
    · exact absent old
    · exact fill new

/-- Braces are replaced for good. -/
theorem brace_not_mem_flatten (text : Text) : '\x7b' ∉ flatten text ∧ '\x7d' ∉ flatten text := by
  have gone : ∀ (c : Char) (new text : Text), c ∉ new → c ∉ Text.replace [c] new text := by
    intro c new text fill
    rw [Text.replace_singleton, List.mem_flatMap]
    rintro ⟨d, _, member⟩
    split at member
    · exact fill member
    · next other => exact other (List.mem_singleton.mp member).symm
  constructor
  · have taken : replacements.take 6 = replacements.take 5 ++ [(['\x7b'], [';'])] := by decide
    rw [flatten_eq_foldl_drop 6, taken, List.foldl_concat]
    exact not_mem_foldl (replacements.drop 6) (by decide) (gone '\x7b' [';'] _ (by decide))
  · have taken : replacements.take 7 =
      replacements.take 6 ++ [(['\x7d'], closing ++ [';'])] := by decide
    rw [flatten_eq_foldl_drop 7, taken, List.foldl_concat]
    exact not_mem_foldl (replacements.drop 7) (by decide)
      (gone '\x7d' (closing ++ [';']) _ (by decide))

/-- A text has a stop exactly if its flat form has a semicolon. -/
theorem semicolon_mem_flatten_iff {text : Text} : ';' ∈ flatten text ↔ ¬ Unstopped text := by
  rw [← unstopped_flatten_iff]
  constructor
  · exact fun member unstopped => unstopped ';' (by simp [stops]) member
  · intro stopped
    by_contra absent
    obtain ⟨opening, closing⟩ := brace_not_mem_flatten text
    apply stopped
    intro c stop
    simp only [stops, List.mem_cons, List.not_mem_nil, or_false] at stop
    rcases stop with rfl | rfl | rfl
    · exact absent
    · exact opening
    · exact closing

end Layout

end CommandScript

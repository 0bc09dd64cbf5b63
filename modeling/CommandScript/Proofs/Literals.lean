import CommandScript.Proofs.ReadAfterWrite

/-! Literals: quoted texts, numerals, and the words that stand for a text. A literal has the same
value in every scope and every world: it is no call, no element and no name, whatever names there
are. -/
namespace CommandScript

namespace Text

private theorem mem_dropWhile {p : Char → Bool} {c : Char} {text : Text} (member : c ∈ text)
    (stays : p c = false) : c ∈ text.dropWhile p := by
  rw [← List.takeWhile_append_dropWhile (p := p) (l := text)] at member
  rcases List.mem_append.mp member with front | rest
  · rw [List.mem_takeWhile_imp front] at stays
    cases stays
  · exact rest

private theorem mem_strip {isOut : Char → Bool} {c : Char} {text : Text} (member : c ∈ text)
    (stays : isOut c = false) : c ∈ strip isOut text := by
  have front := mem_dropWhile member stays
  exact List.mem_reverse.mpr (mem_dropWhile (List.mem_reverse.mpr front) stays)

end Text

namespace Number

/-! ### Characters that no numeral has -/

/-- A character that stands for itself in a numeral and has no place there. -/
structure Foreign (c : Char) : Prop where
  plain : plainChar c = c
  lower : c.toLower = c
  solid : Text.isNarrowBlank c = false
  digit : c.isDigit = false
  mark : c ∉ ['-', '+', '_', '.', 'e', 'E']
  letter : c ∉ "inf".toList ++ "infinity".toList ++ "nan".toList

/-- Brackets and quotes are foreign. -/
theorem foreign_of_mem {c : Char} (odd : c ∈ [')', ']', '\'', '"']) : Foreign c := by
  simp only [List.mem_cons, List.not_mem_nil, or_false] at odd
  rcases odd with rfl | rfl | rfl | rfl <;> constructor <;> decide

section Foreign

variable {c : Char} {text : Text} (foreign : Foreign c) (member : c ∈ text)
include foreign member

private theorem mem_plain : c ∈ plain text := by
  apply Text.mem_strip
  · rw [← foreign.plain]
    exact List.mem_map_of_mem member
  · exact foreign.solid

private theorem mem_splitSign : c ∈ (splitSign text).2 := by
  have mark := foreign.mark
  simp only [List.mem_cons, not_or] at mark
  unfold splitSign
  split
  · exact (List.mem_cons.mp member).resolve_left mark.1
  · exact (List.mem_cons.mp member).resolve_left mark.2.1
  · exact member

private theorem mem_filter_underscores : c ∈ text.filter (· != '_') := by
  have mark := foreign.mark
  simp only [List.mem_cons, not_or] at mark
  exact List.mem_filter.mpr ⟨member, by simp [mark]⟩

private theorem not_all_digits : text.all Char.isDigit = false := by
  rw [List.all_eq_false]
  exact ⟨c, member, by simp [foreign.digit]⟩

theorem readInt?_foreign : readInt? text = none := by
  have body := mem_splitSign foreign (mem_plain foreign member)
  have digits := not_all_digits foreign (mem_filter_underscores foreign body)
  simp [readInt?, digits]

private theorem readExponent?_foreign : readExponent? text = none := by
  have mark := foreign.mark
  simp only [List.mem_cons, not_or] at mark
  cases text with
  | nil => cases member
  | cons first rest =>
    rcases List.mem_cons.mp member with rfl | later
    · simp [readExponent?, mark]
    · have digits := not_all_digits foreign (mem_splitSign foreign later)
      simp [readExponent?, digits]

private theorem readDecimal?_foreign : readDecimal? text = none := by
  have mark := foreign.mark
  simp only [List.mem_cons, not_or] at mark
  have left := Text.mem_dropWhile member foreign.digit
  unfold readDecimal?
  generalize text.dropWhile Char.isDigit = rest at left ⊢
  dsimp only
  split
  · have fraction :=
      Text.mem_dropWhile ((List.mem_cons.mp left).resolve_left mark.2.2.2.1) foreign.digit
    simp [readExponent?_foreign foreign fraction]
  · simp [readExponent?_foreign foreign left]

theorem readFloat?_foreign : readFloat? text = none := by
  have size := mem_splitSign foreign (mem_filter_underscores foreign (mem_plain foreign member))
  have letter := foreign.letter
  simp only [List.mem_append, not_or] at letter
  have other : ∀ word : Text, c ∉ word →
      (splitSign ((plain text).filter (· != '_'))).2.map Char.toLower ≠ word := by
    rintro word absent rfl
    apply absent
    rw [← foreign.lower]
    exact List.mem_map_of_mem size
  simp only [readFloat?, readDecimal?_foreign foreign size, other _ letter.1.1, other _ letter.1.2,
    other _ letter.2, or_self, if_false, Option.map_none, ite_self]

end Foreign

end Number

/-! ### Literals -/

theorem Spelled.getLast?_of_isQuoted {text : Text} (quoted : isQuoted text = true) :
    text.getLast? = some '"' ∨ text.getLast? = some '\'' := by
  unfold isQuoted at quoted
  split at quoted
  · next first last head tail =>
    simp only [Spells.spells, Bool.or_eq_true, Bool.and_eq_true, beq_iff_eq] at quoted
    rw [tail]
    rcases quoted with ⟨_, rfl⟩ | ⟨_, rfl⟩
    · exact .inl rfl
    · exact .inr rfl
  · cases quoted

/-- A text is a literal with a value: a word that stands for a text, a text in quotes, or a numeral.
-/
inductive Denotes : Text → Value → Prop where
  | word {text t : Text} (known : Literal.fixed.lookup text = some t) :
      Denotes text (.text t.encloseSingle)
  | quoted {text : Text} (quoted : Spelled.isQuoted text = true) (two : 2 ≤ text.length) :
      Denotes text (.text (Text.encloseSingle (Spelled.inner text)))
  | int {text : Text} {n : Int} (numeral : Number.readInt? text = some n) : Denotes text (.int n)
  | float {text : Text} {x : Float} (noInt : Number.readInt? text = none)
      (numeral : Number.readFloat? text = some x) :
      Denotes text (.float x)

def IsNumeral (text : Text) : Prop := Number.readInt? text ≠ none ∨ Number.readFloat? text ≠ none

namespace IsNumeral

variable {text : Text} (numeral : IsNumeral text)
include numeral

theorem not_mem {c : Char} (odd : c ∈ [')', ']', '\'', '"']) : c ∉ text := by
  intro member
  have foreign := Number.foreign_of_mem odd
  rcases numeral with int | float
  · exact int (Number.readInt?_foreign foreign member)
  · exact float (Number.readFloat?_foreign foreign member)

theorem unquoted : Spelled.isQuoted text = false := by
  cases quoted : Spelled.isQuoted text with
  | false => rfl
  | true =>
    rcases Spelled.getLast?_of_isQuoted quoted with last | last
    · exact absurd (List.mem_of_getLast? last) (numeral.not_mem (by simp))
    · exact absurd (List.mem_of_getLast? last) (numeral.not_mem (by simp))

/-- No word that stands for a text is a numeral. -/
theorem expand (w : World) : (Literal.expand text).exec w = (.ok text, w) := by
  have words : ∀ word ∈ Literal.inputWord :: Literal.fixed.map (·.1),
      Number.readInt? word = none ∧ (Number.readFloat? word).isNone = true := by
    decide +kernel
  have other : ∀ word ∈ Literal.inputWord :: Literal.fixed.map (·.1), text ≠ word := by
    rintro word listed rfl
    obtain ⟨int, float⟩ := words text listed
    exact numeral.elim (absurd int) (absurd (Option.isNone_iff_eq_none.mp float))
  have absent : Literal.fixed.lookup text = none := by
    rw [List.lookup_eq_none_iff]
    intro entry member
    rw [bne_iff_ne]
    exact other entry.1 (List.mem_cons_of_mem _ (List.mem_map_of_mem member))
  rw [Literal.expand, if_neg (other _ List.mem_cons_self), absent]
  rfl

end IsNumeral

namespace Denotes

variable {text : Text} {v : Value} (denotes : Denotes text v)
include denotes

theorem scalar : v.IsScalar := by
  cases denotes with
  | word => exact .text _ (Spelled.isQuoted_encloseSingle _) (by simp [Text.encloseSingle])
  | quoted => exact .text _ (Spelled.isQuoted_encloseSingle _) (by simp [Text.encloseSingle])
  | int => exact .int _
  | float => exact .float _

theorem asRead : v.asRead = v := by
  cases denotes with
  | word | quoted => simp only [Value.asRead, Spelled.inner_encloseSingle]
  | int | float => rfl

theorem no_bracket {c : Char} (bracket : c ∈ [')', ']']) : text.getLast? ≠ some c := by
  intro last
  have odd : c ∈ [')', ']', '\'', '"'] := List.mem_append_left ['\'', '"'] bracket
  cases denotes with
  | @word t known =>
    have listed : (text, t) ∈ Literal.fixed := by
      obtain ⟨front, rest, fixed, _⟩ := List.lookup_eq_some_iff.mp known
      rw [fixed]
      exact List.mem_append_right front List.mem_cons_self
    have ends : ∀ entry ∈ Literal.fixed, entry.1.getLast? ≠ some ')' ∧
      entry.1.getLast? ≠ some ']' := by decide
    simp only [List.mem_cons, List.not_mem_nil, or_false] at bracket
    rcases bracket with rfl | rfl
    · exact (ends _ listed).1 last
    · exact (ends _ listed).2 last
  | quoted quoted =>
    rcases Spelled.getLast?_of_isQuoted quoted with quote | quote
    all_goals
      rw [quote] at last
      cases last
      simp at bracket
  | int numeral =>
    exact IsNumeral.not_mem (.inl (by simp [numeral])) odd (List.mem_of_getLast? last)
  | float _ numeral =>
    exact IsNumeral.not_mem (.inr (by simp [numeral])) odd (List.mem_of_getLast? last)

/-- A literal is expanded, and the variable that is made of it has the value. -/
theorem exec_expand (ev : Evaluator) (home : Option (Ref .scope)) (w : World) :
    ∃ s x, (Literal.expand text).exec w = (.ok s, w) ∧ bindText ev home nameless true s = pure x ∧
    x.reading = .ok v := by
  cases denotes with
  | @word t known =>
    have notInput : text ≠ Literal.inputWord := by
      rintro rfl
      cases known
    refine ⟨t.enclose, _, ?_, if_pos (Spelled.isQuoted_enclose t), ?_⟩
    · rw [Literal.expand, if_neg notInput, known]
      rfl
    · rw [Spelled.inner_enclose]
      rfl
  | quoted quoted two => exact ⟨text, _, Literal.expand_quoted quoted two w, if_pos quoted, rfl⟩
  | @int n given =>
    have numeral : IsNumeral text := .inl (by simp [given])
    refine ⟨text, { name := some nameless, home, content := .int n, tag := .int },
      numeral.expand w, ?_, rfl⟩
    simp [bindText, numeral.unquoted, given]
  | @float x noInt given =>
    have numeral : IsNumeral text := .inr (by simp [given])
    refine ⟨text, { name := some nameless, home, content := .float x, tag := .float },
      numeral.expand w, ?_, rfl⟩
    simp [bindText, numeral.unquoted, noInt, given]

/-- A literal has its value in every scope and every world. -/
theorem exec_valueOf (rounds n : Nat) (scope : Ref .scope) (w : World) :
    ((Evaluator.ofRoom rounds (n + 2)).valueOf scope text).exec w = (.ok v, w) := by
  obtain ⟨s, x, expanded, bound, reading⟩ := denotes.exec_expand (.ofRoom rounds n) (some scope) w
  have value : (Literal.expandValue (.text text)).exec w = (.ok (.text s), w) :=
    Run.exec_bind_ok w expanded
  have noCall := denotes.no_bracket (c := ')') (by simp)
  have noElement := denotes.no_bracket (c := ']') (by simp)
  change (valueStep (.ofRoom rounds (n + 1)) scope text).exec w = _
  unfold valueStep
  rw [Run.exec_bind_ok w (Run.exec_getStore w), if_neg fun both => noCall both.1,
    if_neg fun both => noElement both.1, evaluate_eq,
    Run.exec_bind_ok w (Run.exec_readItem_bare w _), Run.exec_bind_ok w value]
  change (bindText (.ofRoom rounds n) (some scope) nameless true s >>= Variable.read).exec w = _
  rw [bound, pure_bind, Variable.exec_read, reading]

end Denotes

end CommandScript

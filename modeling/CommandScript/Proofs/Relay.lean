import CommandScript.Proofs.Statements
import CommandScript.Proofs.Texts

/-! Lines of input that are joined, printed and sent through a file. Whatever characters they have,
quotes, digits and words with a meaning of their own included, what comes out is what was read. -/
namespace CommandScript

def additions (sum : Text) : List (Text × Text) → List Text
  | [] => []
  | (name, next) :: rest => summing next sum name :: additions next rest

def lastSum (sum : Text) : List (Text × Text) → Text
  | [] => sum
  | (_, next) :: rest => lastSum next rest

private theorem lastSum_mem (sum : Text) (parts : List (Text × Text)) :
    lastSum sum parts ∈ sum :: parts.map (·.2) := by
  induction parts generalizing sum with
  | nil => exact List.mem_cons_self
  | cons part parts ih => exact List.mem_cons_of_mem sum (ih part.2)

/-- A program that reads lines of input into variables and joins them. Each line but the first has
two names, one for the line and one for the sum up to it. -/
structure Relay where
  first : Text
  parts : List (Text × Text)
  identifiers : ∀ name ∈ first :: (parts.map (·.1) ++ parts.map (·.2)), Identifier name
  distinct : (first :: (parts.map (·.1) ++ parts.map (·.2))).Nodup

namespace Relay

variable (relay : Relay)

def inputs : List Text := relay.first :: relay.parts.map (·.1)

def names : List Text := relay.first :: (relay.parts.map (·.1) ++ relay.parts.map (·.2))

def result : Text := lastSum relay.first relay.parts

/-- All lines are read, then they are joined, and then the result is printed. -/
def lines : List Text :=
  relay.inputs.map (setting · Literal.inputWord) ++
  (additions relay.first relay.parts ++ [printing relay.result])

private theorem inputs_subset : relay.inputs ⊆ relay.names := by
  simp [inputs, names]

private theorem result_mem : relay.result ∈ relay.names := by
  rcases List.mem_cons.mp (lastSum_mem relay.first relay.parts) with first | sum
  · exact List.mem_cons.mpr (.inl first)
  · exact List.mem_cons_of_mem _ (List.mem_append_right _ sum)

end Relay

/-! ### Writing -/

theorem Identifier.isWord {name : Text} (identifier : Identifier name) : IsWord name where
  nonempty := identifier.nonempty
  oneWord := identifier.not_mem (by simp)
  unbroken := identifier.not_mem (by simp)
  whole := by
    intro c stop
    apply identifier.not_mem
    simp only [Layout.stops, List.mem_cons, List.not_mem_nil, or_false] at stop
    rcases stop with rfl | rfl | rfl <;> simp
  noSign := by
    rintro c rfl
    cases c
    · exact identifier.not_mem (c := '=') (by simp) (by decide)
    · exact identifier.not_mem (c := '=') (by simp) (by decide)
    · exact identifier.not_mem (c := '>') (by simp) (by decide)
    · exact identifier.not_mem (c := '<') (by simp) (by decide)

/-- The words of these commands that are no names. -/
theorem isWord_fixed :
    ∀ word ∈ ["var", "add", "print", "file", "write", "read", "=", "input"],
      IsWord word.toList := by
  intro word listed
  simp only [List.mem_cons, List.not_mem_nil, or_false] at listed
  rcases listed with rfl | rfl | rfl | rfl | rfl | rfl | rfl | rfl <;>
    exact ⟨by decide, by decide, by decide, by decide, fun c => by cases c <;> decide⟩

private theorem isStatement_command {first : String}
    (known : first ∈ ["var", "add", "print", "file"]) {more : List Text} (filled : more ≠ [])
    (others : ∀ part ∈ more, IsWord part) : IsStatement (Text.unwords (first.toList :: more)) := by
  have word : IsWord first.toList := isWord_fixed first (List.mem_of_mem_take (i := 4) known)
  apply isStatement_unwords filled word others
  · simp only [List.mem_cons, List.not_mem_nil, or_false] at known
    rcases known with rfl | rfl | rfl | rfl
    · exact ⟨'v', rfl, by simp⟩
    · exact ⟨'a', rfl, by simp⟩
    · exact ⟨'p', rfl, by simp⟩
    · exact ⟨'f', rfl, by simp⟩
  · simp only [List.mem_cons, List.not_mem_nil, or_false] at known
    rcases known with rfl | rfl | rfl | rfl <;> decide

private theorem isStatement_additions {sum : Text} {parts : List (Text × Text)}
    (identifier : Identifier sum)
    (identifiers : ∀ name ∈ parts.map (·.1) ++ parts.map (·.2), Identifier name) :
    ∀ line ∈ additions sum parts, IsStatement line := by
  induction parts generalizing sum with
  | nil => exact fun _ member => absurd member List.not_mem_nil
  | cons part parts ih =>
    simp only [List.map_cons, List.cons_append, List.forall_mem_cons, List.forall_mem_append]
      at identifiers
    obtain ⟨here, names, there, sums⟩ := identifiers
    refine List.forall_mem_cons.mpr ⟨?_, ih there (List.forall_mem_append.mpr ⟨names, sums⟩)⟩
    exact isStatement_command (by simp) (by simp)
      (by simp [there.isWord, identifier.isWord, here.isWord])

private theorem Relay.isStatement (relay : Relay) : ∀ line ∈ relay.lines, IsStatement line := by
  intro line member
  simp only [lines, List.mem_append, List.mem_map, List.mem_singleton] at member
  rcases member with ⟨name, listed, rfl⟩ | sum | rfl
  · have shape : setting name Literal.inputWord =
        Text.unwords ["var".toList, name, "=".toList, "input".toList] := by
      simp [setting, Text.unwords, Literal.inputWord]
    have identifier := relay.identifiers name (relay.inputs_subset listed)
    rw [shape]
    apply isStatement_command (by simp) (by simp)
    simp only [List.forall_mem_cons, List.not_mem_nil, false_imp_iff, implies_true, and_true]
    exact ⟨identifier.isWord, isWord_fixed "=" (by simp), isWord_fixed "input" (by simp)⟩
  · refine isStatement_additions (relay.identifiers _ List.mem_cons_self) ?_ line sum
    exact fun name member => relay.identifiers name (List.mem_cons_of_mem _ member)
  · exact isStatement_command (by simp) (by simp)
      (by simp [(relay.identifiers _ relay.result_mem).isWord])

/-! ### Running -/

section Running

variable (rounds n : Nat) {scope : Ref .scope} (file : Text) {w : World}
  {known : List (Text × Text)} {free : List Text}

/-- Names are set to the next lines of input, one after the other. -/
theorem Store.Knows.performs_inputs {names texts : List Text} {rest : List (Option Text)}
    (identifiers : ∀ name ∈ names, Identifier name) (distinct : (names ++ free).Nodup)
    (knows : w.store.Knows scope known (names ++ free)) (enough : texts.length = names.length)
    (lines : w.input.lines = texts.map some ++ rest) :
    ∃ st, Performs (.ofRoom rounds (n + 2)) scope file (names.map (setting · Literal.inputWord)) w
        { w with store := st, input := { w.input with lines := rest } } ∧
      st.Knows scope (names.zip texts ++ known) free ∧ st.nodes = w.store.nodes := by
  induction names generalizing w known texts with
  | nil =>
    obtain rfl := List.eq_nil_of_length_eq_zero enough
    obtain rfl : rest = w.input.lines := lines.symm
    exact ⟨w.store, .nil w, knows, rfl⟩
  | cons name names ih =>
    cases texts with
    | nil => cases enough
    | cons s texts =>
      obtain ⟨here, others⟩ := List.forall_mem_cons.mp identifiers
      obtain ⟨new, apart⟩ := List.nodup_cons.mp distinct
      obtain ⟨st, first, knows, kept⟩ :=
        knows.performs_setting rounds n file new here (by decide) (by decide)
        (exec_valueOf_input rounds n scope lines) rfl
      obtain ⟨last, performs, knows, same⟩ :=
        ih (w := { w with store := st, input := { w.input with lines := texts.map some ++ rest } })
        others apart knows (Nat.succ.inj enough) rfl
      refine ⟨last, first.append performs, knows.mono ?_ (List.Subset.refl _), same.trans kept⟩
      rw [List.zip_cons_cons, List.cons_append]
      exact List.perm_middle.symm.subset

/-- Known texts are joined from left to right. -/
theorem Store.Knows.performs_additions {sum s : Text} {parts : List (Text × Text)}
    {texts : List Text} (identifier : Identifier sum)
    (identifiers : ∀ name ∈ parts.map (·.1) ++ parts.map (·.2), Identifier name)
    (distinct : (parts.map (·.2) ++ free).Nodup)
    (knows : w.store.Knows scope ((sum, s) :: ((parts.map (·.1)).zip texts ++ known))
      (parts.map (·.2) ++ free))
    (enough : texts.length = parts.length) :
    ∃ st, Performs (.ofRoom rounds (n + 2)) scope file (additions sum parts) w
      { w with store := st } ∧
      st.Knows scope ((lastSum sum parts, s ++ texts.flatten) :: known) free ∧
      st.nodes = w.store.nodes := by
  induction parts generalizing w sum s texts with
  | nil =>
    obtain rfl := List.eq_nil_of_length_eq_zero enough
    refine ⟨w.store, .nil w, ?_, rfl⟩
    rw [List.flatten_nil, List.append_nil]
    exact knows
  | cons part parts ih =>
    cases texts with
    | nil => cases enough
    | cons t texts =>
      obtain ⟨name, next⟩ := part
      simp only [List.map_cons, List.cons_append, List.zip_cons_cons, List.forall_mem_cons,
        List.forall_mem_append] at identifiers knows distinct
      obtain ⟨here, names, there, sums⟩ := identifiers
      obtain ⟨new, apart⟩ := List.nodup_cons.mp distinct
      obtain ⟨st, first, knows, kept⟩ :=
        knows.performs_sum rounds n file new there identifier here List.mem_cons_self
        (List.mem_cons_of_mem _ List.mem_cons_self)
      have fewer : st.Knows scope ((next, s ++ t) :: ((parts.map (·.1)).zip texts ++ known))
          (parts.map (·.2) ++ free) := by
        apply knows.mono _ (List.Subset.refl _)
        intro entry member
        rcases List.mem_cons.mp member with rfl | other
        · exact List.mem_cons_self
        · exact List.mem_cons_of_mem _ (List.mem_cons_of_mem _ (List.mem_cons_of_mem _ other))
      obtain ⟨last, performs, knows, same⟩ :=
        ih (w := { w with store := st }) there
          (List.forall_mem_append.mpr ⟨names, sums⟩) apart fewer
        (Nat.succ.inj enough)
      refine ⟨last, first.append performs, ?_, same.trans kept⟩
      rw [List.flatten_cons, ← List.append_assoc]
      exact knows

/-- The lines are read and joined, and what is printed is the lines one after the other. -/
theorem Relay.performs (relay : Relay) {texts : List Text} {rest : List (Option Text)}
    (distinct : (relay.names ++ free).Nodup)
    (knows : w.store.Knows scope known (relay.names ++ free))
    (enough : texts.length = relay.inputs.length) (lines : w.input.lines = texts.map some ++ rest) :
    ∃ st, Performs (.ofRoom rounds (n + 2)) scope file relay.lines w
        { w with
          store := st, input := { w.input with lines := rest }
          printed := texts.flatten :: w.printed } ∧
      st.Knows scope ((relay.result, texts.flatten) :: known) free ∧ st.nodes = w.store.nodes := by
  cases texts with
  | nil => cases enough
  | cons s texts =>
    have grouped : relay.names ++ free = relay.inputs ++ (relay.parts.map (·.2) ++ free) := by
      simp [names, inputs]
    rw [grouped] at distinct knows
    obtain ⟨st, reads, knows, kept⟩ := knows.performs_inputs rounds n file
      (fun name member => relay.identifiers name (relay.inputs_subset member)) distinct enough lines
    obtain ⟨last, joins, knows, same⟩ := Store.Knows.performs_additions rounds n file
      (w := { w with store := st, input := { w.input with lines := rest } })
      (relay.identifiers _ List.mem_cons_self)
      (fun name member => relay.identifiers name (List.mem_cons_of_mem _ member))
      (List.Nodup.of_append_right distinct) knows
      (by simpa [inputs] using enough)
    have prints := (knows.texts _ List.mem_cons_self).performs_print rounds n file
      (w := { w with store := last, input := { w.input with lines := rest } })
      (relay.identifiers _ relay.result_mem)
    exact ⟨last, reads.append (joins.append prints), knows, same.trans kept⟩

end Running

/-- The name of a file stays one as long as known texts do. -/
theorem NamesFile.kept {st : Store} {scope : Ref .scope} {word path : Text}
    (names : NamesFile st scope word path) :
    ∃ texts : List (Text × Text), (∀ entry ∈ texts, st.HasText scope entry.1 entry.2) ∧
      ∀ later : Store, (∀ entry ∈ texts, later.HasText scope entry.1 entry.2) →
        NamesFile later scope word path := by
  cases names with
  | literal denotes => exact ⟨[], by simp, fun _ _ => .literal denotes⟩
  | held identifier has =>
    refine ⟨[(word, path)], by simpa using has, fun later kept => .held identifier (kept _
      List.mem_cons_self)⟩

/-- Lines of input are read into new variables, joined from left to right into new variables, and
the result is printed. The program comes to its end, and what it prints is the lines one after the
other, whatever they are. If the result is then written to a file and read from it, the variable has
the same text, with plain ends of lines. -/
theorem input_travels_unchanged (limits : Limits) (room : 3 ≤ limits.nesting) (relay : Relay)
    (scope : Ref .scope) (interactive : Bool) (file : Text) (w : World) (closed : w.store.Closed)
    (held : w.store.Has scope.cell)
    (new : ∀ name ∈ [] :: relay.names, w.store.resolve scope name = none) (texts : List Text)
    (rest : List (Option Text)) (enough : texts.length = relay.inputs.length)
    (lines : w.input.lines = texts.map some ++ rest) :
    (∀ source, Listed relay.lines source →
      ∃ last, (Program.run limits scope interactive file source).exec w = (.ok .done, last) ∧
        last.output = w.output ++ texts.flatten ∧ last.input = { w.input with lines := rest } ∧
        last.store.HasText scope relay.result texts.flatten) ∧
    ∀ word path name files source, NamesFile w.store scope word path → IsWord word →
      Identifier name →
      w.files.write path texts.flatten = .ok files →
      Listed (relay.lines ++ [writing word relay.result, fetching word name]) source →
      ∃ last, (Program.run limits scope interactive file source).exec w = (.ok .done, last) ∧
        last.output = w.output ++ texts.flatten ∧ last.files = files ∧
        last.store.HasText scope name (FileTree.plainLines texts.flatten) := by
  obtain ⟨n, nesting⟩ := Nat.exists_eq_add_of_le' room
  have distinct : (relay.names ++ [[]]).Nodup := by
    apply List.Nodup.append relay.distinct (List.nodup_singleton [])
    intro name member empty
    exact (relay.identifiers name member).nonempty (List.mem_singleton.mp empty)
  have free : ∀ name ∈ relay.names ++ [[]], w.store.resolve scope name = none := by
    intro name member
    exact new name (List.perm_append_comm.subset member)
  have output : (texts.flatten :: w.printed).reverse.flatten = w.output ++ texts.flatten := by
    simp [World.output]
  constructor
  · intro source listed
    have knows : w.store.Knows scope [] (relay.names ++ [[]]) := ⟨closed, held, by simp, free⟩
    refine knows.exec_run nesting interactive (listed.parse relay.isStatement) fun st knows => ?_
    obtain ⟨last, performs, knows, _⟩ :=
      relay.performs limits.rounds n file (w := { w with store := st }) distinct knows enough lines
    exact ⟨_, performs, knows.free [] List.mem_cons_self, output, rfl,
      knows.texts _ List.mem_cons_self⟩
  · intro word path name files source names single identifier written listed
    obtain ⟨known, has, kept⟩ := names.kept
    have knows : w.store.Knows scope known (relay.names ++ [[]]) := ⟨closed, held, has, free⟩
    have result := relay.identifiers _ relay.result_mem
    have statements : ∀ line ∈ relay.lines ++ [writing word relay.result, fetching word name],
        IsStatement line := by
      simp only [List.forall_mem_append, List.forall_mem_cons, List.not_mem_nil, false_imp_iff,
        implies_true, and_true]
      refine ⟨relay.isStatement, ?_, ?_⟩
      · exact isStatement_command (by simp) (by simp)
          (List.forall_mem_cons.mpr ⟨isWord_fixed "write" (by simp), by simp [single,
            result.isWord]⟩)
      · exact isStatement_command (by simp) (by simp)
          (List.forall_mem_cons.mpr ⟨isWord_fixed "read" (by simp), by simp [single,
            identifier.isWord]⟩)
    refine knows.exec_run nesting interactive (listed.parse statements) fun st knows => ?_
    obtain ⟨last, performs, knows, _⟩ :=
      relay.performs limits.rounds n file (w := { w with store := st }) distinct knows enough lines
    have place : NamesFile last scope word path :=
      kept last fun entry member => knows.texts entry (List.mem_cons_of_mem _ member)
    have writes := NamesFile.performs_write limits.rounds n file
      (w := { w with
        store := last, input := { w.input with lines := rest }
        printed := texts.flatten :: w.printed })
      place single.oneWord (knows.texts _ List.mem_cons_self) result written
    have fetches := NamesFile.performs_fetch limits.rounds n file
      (w := { w with
        store := last, input := { w.input with lines := rest }
        printed := texts.flatten :: w.printed, files })
      place single.oneWord identifier (FileTree.read_write written)
    refine ⟨_, performs.append (writes.append fetches), ?_, output, rfl, ?_⟩
    · exact (Store.resolve_bindName_other (Ne.symm identifier.nonempty) scope scope _).trans
        (knows.free [] List.mem_cons_self)
    · exact Store.hasText_fresh (Store.resolve_bindName_here knows.closed knows.held name _)

private theorem identifier_letter : ∀ c ∈ ['a', 'b', 'c', 'd'], Identifier [c] := by
  intro c listed
  simp only [List.mem_cons, List.not_mem_nil, or_false] at listed
  rcases listed with rfl | rfl | rfl |
    rfl <;> exact ⟨by decide, by simp, by decide, by decide, by decide⟩

def Relay.pair : Relay where
  first := ['a']
  parts := [(['b'], ['c'])]
  identifiers := by
    intro name member
    simp only [List.map_cons, List.map_nil, List.cons_append, List.nil_append, List.mem_cons,
      List.not_mem_nil, or_false] at member
    rcases member with rfl | rfl | rfl <;> exact identifier_letter _ (by simp)
  distinct := by decide

/-- A line that begins with a quote and one that begins with a word for a line of input go through a
file. -/
theorem input_travels_unchanged_quotes :
    let w : World :=
      { store := (({} : Store).newScope none).2
        input := { lines := [some "'5".toList, some "input\r".toList] } }
    ∃ last, (Program.run .standard ⟨0⟩ false []
        "var a = input;\nvar b = input;\n\nadd c a b;print c;\n  file write 'f' c;file read 'f' d;".toList).exec
          w = (.ok .done, last) ∧
      last.output = "'5input\r".toList ∧ last.store.HasText ⟨0⟩ ['d'] "'5input\n".toList := by
  intro w
  have closed : w.store.Closed := Store.closed_empty.newScope (by simp)
  obtain ⟨_, sent⟩ := input_travels_unchanged .standard (by decide) Relay.pair ⟨0⟩ false
    [] w closed (by decide)
    (fun name _ => rfl) ["'5".toList, "input\r".toList] [] rfl rfl
  have gap : Layout.IsGap [] := by decide
  have line : Layout.IsGap ['\n'] := by decide
  have listed :
      Listed (Relay.pair.lines ++ [writing "'f'".toList ['c'], fetching "'f'".toList ['d']]) _ :=
    .cons gap
      (.cons line (.cons (by decide : Layout.IsGap "\n\n".toList)
      (.cons gap (.cons (by decide : Layout.IsGap "\n  ".toList) (.cons gap (.nil gap))))))
  obtain ⟨last, ran, printed, _, held⟩ :=
    sent "'f'".toList ['f'] ['d'] _ _ (.literal (.quoted (by decide) (by decide)))
    ⟨by decide, by decide, by decide, by decide, fun c => by cases c <;> decide⟩
    (identifier_letter 'd' (by simp)) rfl listed
  exact ⟨last, ran, printed, held⟩

end CommandScript

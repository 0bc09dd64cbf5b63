import CommandScript.Proofs.Ending
import CommandScript.Proofs.Paths

/-! Statements that set a name to the value of an expression. They are read back into the name and
the expression, however the expression is spelled, as long as no spaces stand around it. -/
namespace CommandScript

structure Sets (line name text : Text) : Prop where
  verb : (Command.of line).verb? = some .var
  word : ∃ word : Text, line.words[1]? = some word ∧ word ≠ "local".toList ∧ word.before '=' = name
  value : Spelled.trimSpaces (Text.after '=' line) = text

theorem Run.exec_nth {α : Type} {row : List α} {i : Nat} {a : α} (there : row[i]? = some a)
    (w : World) : (Run.nth row i).exec w = (.ok a, w) := by
  rw [Run.nth, there]
  rfl

/-- Setting a name is evaluating the expression and assigning its value. -/
theorem Site.exec_sets {s : Site} {line name text : Text} (command : s.command = .of line)
    (sets : Sets line name text) (w : World) :
    s.act.exec w = (s.valueOf text >>= fun v =>
      assign s.ev s.scope (!s.file.isEmpty) name (.bare v) >>= fun _ =>
        pure Outcome.done).exec w := by
  obtain ⟨word, there, notLocal, named⟩ := sets.word
  have second : (s.word 1).exec w = (.ok word, w) := by
    rw [Site.word, command]
    exact Run.exec_nth there w
  have value : Spelled.trimSpaces (Text.after '=' s.command.text) = text := by
    rw [command]
    exact sets.value
  unfold Site.act
  rw [command, sets.verb]
  change s.var.exec w = _
  unfold Site.var
  rw [Run.exec_bind_ok w second, if_neg notLocal, value, named]

structure NewName (name : Text) : Prop where
  nonempty : name ≠ []
  single : '.' ∉ name
  oneWord : ' ' ∉ name
  noSign : '=' ∉ name
  noElement : name.getLast? ≠ some ']'
  notLocal : name ≠ "local".toList

def setting (name text : Text) : Text := "var".toList ++ ' ' :: (name ++ ' ' :: '=' :: ' ' :: text)

section Setting

variable {name text : Text}

theorem words_setting (oneWord : ' ' ∉ name) :
    (setting name text).words = "var".toList :: name :: ['='] :: text.words := by
  have first : ' ' ∉ "var".toList := by decide
  have sign : ' ' ∉ ['='] := by decide
  have shape : setting name text = "var".toList ++ ' ' :: (name ++ ' ' :: (['='] ++ ' ' :: text)) :=
    rfl
  rw [Text.words, shape, Text.splitOn_append_cons first, Text.splitOn_append_cons oneWord,
    Text.splitOn_append_cons sign]
  rfl

theorem verb_setting (oneWord : ' ' ∉ name) :
    (Command.of (setting name text)).verb? = some .var := by
  have whole : (Command.of (setting name text)).whole.head? = some "var".toList := by
    rw [Command.of, words_setting oneWord]
    rfl
  simp [Command.verb?, Command.verbs, Command.view, whole]

theorem trimSpaces_after_setting (noSign : '=' ∉ name) (front : text.head? ≠ some ' ')
    (back : text.getLast? ≠ some ' ') :
    Spelled.trimSpaces (Text.after '=' (setting name text)) = text := by
  have before : '=' ∉ "var".toList ++ ' ' :: (name ++ [' ']) := by
    simp [noSign]
  have shape : setting name text = ("var".toList ++ ' ' :: (name ++ [' '])) ++ '=' ::
      ' ' :: text := by
    simp only [setting, List.append_assoc, List.cons_append, List.nil_append]
  have after : Text.after '=' (setting name text) = ' ' :: text := by
    rw [shape]
    exact Text.after_append_self before _
  rw [after, Spelled.trimSpaces_cons, Spelled.trimSpaces_flush front back]

private theorem sets_setting (new : NewName name) (front : text.head? ≠ some ' ')
    (back : text.getLast? ≠ some ' ') : Sets (setting name text) name text where
  verb := verb_setting new.oneWord
  word :=
    ⟨name, by rw [words_setting new.oneWord]; rfl, new.notLocal, Text.before_of_not_mem new.noSign⟩
  value := trimSpaces_after_setting new.noSign front back

theorem Site.exec_setting {s : Site} (command : s.command = .of (setting name text))
    (new : NewName name) (front : text.head? ≠ some ' ') (back : text.getLast? ≠ some ' ')
    (w : World) :
    s.act.exec w = (s.valueOf text >>= fun v =>
      assign s.ev s.scope (!s.file.isEmpty) name (.bare v) >>= fun _ => pure Outcome.done).exec w :=
  s.exec_sets command (sets_setting new front back) w

end Setting

end CommandScript

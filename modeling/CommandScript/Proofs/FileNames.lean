import CommandScript.Proofs.Caution
import CommandScript.Proofs.Ending

/-! What the name of a program's file is for. Only three commands look at it: a name that is new is
declared locally where the program has no file, what is imported is looked for next to the file, and
a formula may ask for its name. A watchful evaluator runs a program that has a file and stops before
a command of these kinds that would do something else without it. Up to there the program does the
same with its file and without it. -/
namespace CommandScript

/-! ### The commands that look at the file -/

private theorem exec_assign_local {ev : Evaluator} {scope : Ref .scope} {name : Text} {v : Value}
    {w : World} (isGlobal : Bool)
    (alike : w.store.isVisible scope name = true ∨ w.store.globalOf scope = scope) :
    (assign ev scope isGlobal name (.bare v)).exec w =
      (assign ev scope false name (.bare v)).exec w := by
  cases isGlobal with
  | false => rfl
  | true =>
    unfold assign
    simp only [Run.exec_bind_ok w (Run.exec_readItem_bare w v),
      Run.exec_bind_ok w (Run.exec_getStore w)]
    by_cases visible : w.store.isVisible scope name = true
    · simp only [if_pos visible]
    · simp only [if_neg visible]
      have here : w.store.globalOf scope = scope := by
        simpa [visible] using alike
      split
      · rfl
      · rfl
      · simp only [declareGlobal, Run.exec_bind_ok w (Run.exec_getStore w), here, if_true,
          Bool.false_eq_true, if_false]

namespace Site

/-- What the command does depends on whether its program has a file: it declares a new name in a
scope that global declarations do not go to, it imports a file that is looked for in another place,
or it has a formula with another value. -/
inductive FileMatters (s : Site) (w : World) : Prop where
  | declares (first : Text) (v : Value) (u : World) (verb : s.command.verb? = some .var)
      (word : s.command.whole[1]? = some first) (notLocal : first ≠ "local".toList)
      (value : (s.valueOf (Spelled.trimSpaces (Text.after '=' s.command.text))).exec w = (.ok v, u))
      (new : u.store.isVisible s.scope (first.before '=') = false)
      (outer : u.store.globalOf s.scope ≠ s.scope)
  | imports (name : Text) (verb : s.command.verb? = some .importFile)
      (word : s.command.whole[1]? = some name)
      (elsewhere : Import.resolve w.host w.files s.file name ≠
        Import.resolve w.host w.files [] name)
  | computes (verb : s.command.verb? = some .formula)
      (differs : w.runtime.formula (s.scene w) s.file (s.command.whole.drop 2).flatten ≠
        w.runtime.formula (s.scene w) [] (s.command.whole.drop 2).flatten)

variable {s : Site} {w : World}

private theorem exec_word_bind_congr {i : Nat} {f g : Text → Run Outcome}
    (each : ∀ word, s.command.whole[i]? = some word → (f word).exec w = (g word).exec w) :
    (s.word i >>= f).exec w = (s.word i >>= g).exec w := by
  have known : (s.word i).exec w = (.error .badIndex, w) ∨
      ∃ word, s.command.whole[i]? = some word ∧ (s.word i).exec w = (.ok word, w) := by
    unfold word Run.nth
    cases s.command.whole[i]? with
    | none => exact .inl rfl
    | some word => exact .inr ⟨word, rfl, rfl⟩
  rcases known with absent | ⟨word, known, present⟩
  · rw [Run.exec_bind_error w absent, Run.exec_bind_error w absent]
  · rw [Run.exec_bind_ok w present, Run.exec_bind_ok w present]
    exact each word known

private theorem var_without_file (verb : s.command.verb? = some .var) (same : ¬ s.FileMatters w) :
    s.var.exec w = (s.inFile []).var.exec w := by
  apply exec_word_bind_congr
  intro first known
  by_cases notLocal : first = "local".toList
  · simp only [if_pos notLocal, valueOf, storeLocal, word]
  · simp only [if_neg notLocal]
    change (s.valueOf (Spelled.trimSpaces (Text.after '=' s.command.text)) >>= fun v =>
        assign s.ev s.scope (!s.file.isEmpty) (first.before '=') (.bare v) >>= fun _ =>
          pure Outcome.done).exec w =
      (s.valueOf (Spelled.trimSpaces (Text.after '=' s.command.text)) >>= fun v =>
        assign s.ev s.scope false (first.before '=') (.bare v) >>= fun _ =>
          pure Outcome.done).exec w
    rw [Run.exec_bind, Run.exec_bind]
    rcases value : (s.valueOf (Spelled.trimSpaces (Text.after '=' s.command.text))).exec w
      with ⟨fault | v, u⟩
    · rfl
    · have alike : u.store.isVisible s.scope (first.before '=') = true ∨
          u.store.globalOf s.scope = s.scope := by
        by_contra apart
        simp only [not_or, Bool.not_eq_true] at apart
        exact same (.declares first v u verb known notLocal value apart.1 apart.2)
      simp only [Run.exec_bind, exec_assign_local _ alike]

private theorem importFile_without_file (verb : s.command.verb? = some .importFile)
    (same : ¬ s.FileMatters w) : s.importFile.exec w = (s.inFile []).importFile.exec w := by
  apply exec_word_bind_congr
  intro name known
  have found : Import.resolve w.host w.files s.file name =
      Import.resolve w.host w.files [] name := by
    by_contra apart
    exact same (.imports name verb known apart)
  simp only [Run.exec_bind_ok w (Run.exec_get w), found]

private theorem formula_without_file (verb : s.command.verb? = some .formula)
    (same : ¬ s.FileMatters w) : s.formula.exec w = (s.inFile []).formula.exec w := by
  have computed : (s.answer (s.command.whole.drop 2).flatten).exec w =
      ((s.inFile []).answer (s.command.whole.drop 2).flatten).exec w := by
    have given : w.runtime.formula (s.scene w) s.file (s.command.whole.drop 2).flatten =
        w.runtime.formula (s.scene w) [] (s.command.whole.drop 2).flatten := by
      by_contra apart
      exact same (.computes verb apart)
    unfold answer
    rw [Run.exec_bind_ok w (Run.exec_get w), Run.exec_bind_ok w (Run.exec_get w), given]
    rfl
  apply exec_word_bind_congr
  intro name _
  rw [Run.exec_bind, Run.exec_bind, computed]
  rfl

def looksAtFile (s : Site) : Bool :=
  s.command.verb? = some .var || s.command.verb? = some .importFile || s.command.verb? =
    some .formula

private theorem act_without_file (looks : s.looksAtFile = true) (same : ¬ s.FileMatters w) :
    s.act.exec w = (s.inFile []).act.exec w := by
  unfold act
  simp only [looksAtFile, Bool.or_eq_true, decide_eq_true_eq] at looks
  rcases looks with (verb | verb) | verb
  · simp only [verb]
    exact var_without_file verb same
  · simp only [verb]
    exact importFile_without_file verb same
  · simp only [verb]
    exact formula_without_file verb same

/-- All other commands do the same in another file, if the statements below them do. -/
theorem act_elsewhere {stop : World → Prop} {watchful : Evaluator} {other : Text}
    (follows : watchful.Follows stop s.ev)
    (below : ∀ node, (watchful.run node s.file).Follows stop (s.ev.run node other))
    (blind : s.looksAtFile = false) : (s.under watchful).act.Follows stop (s.inFile other).act := by
  simp only [looksAtFile, Bool.or_eq_false_iff, decide_eq_false_iff_not] at blind
  unfold act
  rcases known : s.command.verb? with _ | verb
  · exact other_follows follows below
  · cases verb with
    | var => exact absurd known blind.1.1
    | importFile => exact absurd known blind.1.2
    | formula => exact absurd known blind.2
    | ifTrue => exact ifTrue_follows follows below
    | repeatTimes => exact repeatTimes_follows follows below
    | whileTrue => exact whileTrue_follows follows below
    | defClass => exact defClass_follows follows below
    | _ => exact runVerb_follows follows _

def fileVerbs : List Verb :=
  [.var, .importFile, .formula, .ifTrue, .repeatTimes, .whileTrue, .defClass]

private theorem act_inFile {verb : Verb} (known : s.command.verb? = some verb)
    (simple : verb ∉ fileVerbs) (other : Text) : (s.inFile other).act = s.act := by
  unfold act
  simp only [known]
  cases verb with
  | var | importFile | formula | ifTrue | repeatTimes | whileTrue | defClass =>
    simp [fileVerbs] at simple
  | _ => rfl

end Site

/-! ### Watchful evaluators -/

open Classical in
noncomputable def Run.agreeing (x y : Run Outcome) : Run Outcome := do
  let w ← get
  if x.exec w = y.exec w then x else throw .unfinished

private theorem Run.exec_agreeing (x y : Run Outcome) (w : World) :
    ((x.agreeing y).exec w = x.exec w ∧ x.exec w = y.exec w) ∨
      ((x.agreeing y).exec w = (.error .unfinished, w) ∧ x.exec w ≠ y.exec w) := by
  rw [agreeing, exec_bind_ok w (exec_get w)]
  by_cases same : x.exec w = y.exec w
  · exact .inl ⟨by rw [if_pos same], same⟩
  · exact .inr ⟨by rw [if_neg same]; rfl, same⟩

namespace Evaluator

/-- Runs a statement watchfully: a command that looks at the file must do the same without it. -/
noncomputable def watchStep (ev watchful : Evaluator) (node : Ref .node) (file : Text) :
    Run Outcome := do
  if (Site.ofNode ev (← Run.getStore) node file).looksAtFile then
    (runStep ev node file).agreeing (runStep ev node [])
  else
    runStep watchful node file

noncomputable def watchful (file : Text) (rounds : Nat) : Nat → Evaluator
  | 0 => exhausted rounds
  | n + 1 =>
    { ofRoom rounds (n + 1) with
      run := fun node program =>
        if program = file then watchStep (ofRoom rounds n) (watchful file rounds n) node file
        else runStep (ofRoom rounds n) node program }

def FileMattersIn (file : Text) (rounds : Nat) (w : World) : Prop :=
  ∃ n node, (Site.ofNode (ofRoom rounds n) w.store node file).FileMatters w

section Watch

variable {file : Text} {rounds n : Nat} (node : Ref .node)

private theorem fileMattersIn_of_ne {w : World}
    (looks : (Site.ofNode (ofRoom rounds n) w.store node file).looksAtFile = true)
    (apart : (runStep (ofRoom rounds n) node file).exec w ≠
      (runStep (ofRoom rounds n) node []).exec w) :
    FileMattersIn file rounds w := by
  refine ⟨n, node, ?_⟩
  by_contra same
  rw [runStep_exec, runStep_exec] at apart
  exact apart (Site.act_without_file looks same)

private theorem exec_watchStep_blind {w : World}
    (blind : (Site.ofNode (ofRoom rounds n) w.store node file).looksAtFile = false) :
    (watchStep (ofRoom rounds n) (watchful file rounds n) node file).exec w =
      ((Site.ofNode (ofRoom rounds n) w.store node file).under (watchful file rounds n)).act.exec
        w := by
  rw [watchStep, Run.exec_bind_ok w (Run.exec_getStore w), blind, if_neg Bool.false_ne_true,
    runStep_exec]
  rfl

private theorem exec_watchStep_looks {w : World}
    (looks : (Site.ofNode (ofRoom rounds n) w.store node file).looksAtFile = true) :
    (watchStep (ofRoom rounds n) (watchful file rounds n) node file).exec w =
      ((runStep (ofRoom rounds n) node file).agreeing (runStep (ofRoom rounds n) node [])).exec
        w := by
  rw [watchStep, Run.exec_bind_ok w (Run.exec_getStore w), looks, if_pos rfl]

/-- A watchful statement does what it does with its file and, if the statements below it do so too,
what it does without. -/
theorem watchStep_follows {other : Text} (either : other = file ∨ other = [])
    (follows : (watchful file rounds n).Follows (FileMattersIn file rounds) (ofRoom rounds n))
    (below : ∀ child, ((watchful file rounds n).run child file).Follows (FileMattersIn file rounds)
      ((ofRoom rounds n).run child other)) :
    (watchStep (ofRoom rounds n) (watchful file rounds n) node file).Follows
      (FileMattersIn file rounds)
      (runStep (ofRoom rounds n) node other) := by
  intro w
  cases looks : (Site.ofNode (ofRoom rounds n) w.store node file).looksAtFile with
  | false =>
    rw [exec_watchStep_blind node looks, runStep_exec]
    exact Site.act_elsewhere follows below looks w
  | true =>
    rw [exec_watchStep_looks node looks]
    rcases Run.exec_agreeing (runStep (ofRoom rounds n) node file)
      (runStep (ofRoom rounds n) node []) w with
      ⟨done, same⟩ | ⟨stopped, apart⟩
    · rcases either with rfl | rfl
      · exact .inl done
      · exact .inl (done.trans same)
    · exact .inr ⟨w, stopped, fileMattersIn_of_ne node looks apart⟩

end Watch

private theorem watchful_follows (file : Text) (rounds n : Nat) :
    (watchful file rounds n).Follows (FileMattersIn file rounds) (ofRoom rounds n) := by
  induction n with
  | zero => exact ⟨rfl, rfl, fun _ _ _ _ => .refl _, fun _ _ => .refl _, fun _ _ => .refl _⟩
  | succ n ih =>
    refine ⟨rfl, rfl, fun _ _ _ _ => .refl _, fun _ _ => .refl _, ?_⟩
    intro node program
    change (if program = file then _ else _ : Run Outcome).Follows _ _
    split
    · next same =>
      subst same
      exact watchStep_follows node (.inl rfl) ih fun child => ih.run child program
    · exact .refl _

private theorem watchful_run_follows (file : Text) (rounds n : Nat) (node : Ref .node) :
    ((watchful file rounds n).run node file).Follows (FileMattersIn file rounds)
      ((ofRoom rounds n).run node []) := by
  induction n generalizing node with
  | zero => exact .refl _
  | succ n ih =>
    change (if file = file then _ else _ : Run Outcome).Follows _ _
    rw [if_pos rfl]
    exact watchStep_follows node (.inr rfl) (watchful_follows file rounds n) ih

end Evaluator

/-- A body does the same with a file and without it, or comes to a statement to which the file
matters. -/
theorem runBody_without_file (file : Text) (rounds n : Nat) (node : Ref .node) (w : World) :
    (runBody (.ofRoom rounds n) node file).exec w = (runBody (.ofRoom rounds n) node []).exec w ∨
      ∃ stopped, (runBody (.watchful file rounds n) node file).exec w =
        (.error .unfinished, stopped) ∧
        Evaluator.FileMattersIn file rounds stopped := by
  have follows := Evaluator.watchful_follows file rounds n
  rcases runBody_follows (fun child => follows.run child file) node w with with_file | stops
  · rcases runBody_follows (Evaluator.watchful_run_follows file rounds n) node w
      with without | stops
    · exact .inl (with_file.symm.trans without)
    · exact .inr stops
  · exact .inr stops

theorem runBody_single {rounds n : Nat} {callee : Ref .node} {w : World} (child : Ref .node)
    (verb : Verb) (children : (w.store.node callee).children = [child])
    (known : (Command.of (w.store.node child).command).verb? = some verb)
    (simple : verb ∉ Site.fileVerbs) (file other : Text) :
    (runBody (.ofRoom rounds (n + 1)) callee file).exec w =
      (runBody (.ofRoom rounds (n + 1)) callee other).exec w := by
  have step : ((Evaluator.ofRoom rounds (n + 1)).run child file).exec w =
      ((Evaluator.ofRoom rounds (n + 1)).run child other).exec w := by
    change (runStep (.ofRoom rounds n) child file).exec w =
      (runStep (.ofRoom rounds n) child other).exec w
    rw [runStep_exec, runStep_exec]
    exact congrArg (Run.exec · w)
      (Site.act_inFile (s := .ofNode (.ofRoom rounds n) w.store child other) known simple file)
  unfold runBody
  rw [Run.exec_bind_ok w (Run.exec_getStore w), Run.exec_bind_ok w (Run.exec_getStore w), children]
  simp only [runAll, Run.exec_bind, step]

end CommandScript

import CommandScript.Proofs.Effects
import CommandScript.Proofs.Wrapping

/-! Expressions without calls. An expression none of whose parts calls anything leaves the store as
it is, even where it reads a line of input, and then it changes nothing but the input; where it
reads none it leaves the whole world as it is. So does the making of a variable of such a text, but
for a notice; and where a variable is made of a list, the variables that are there stay as they are.
-/
namespace CommandScript

/-! ### Runs from one store -/

namespace Run

variable {α β : Type} {st : Store} {x : Run α} {f : α → Run β}

def Still (st : Store) (x : Run α) : Prop := ∀ w, w.store = st → (x.exec w).2.store = st

theorem Silent.still (silent : x.Silent) : x.Still st := fun w same => (silent w).trans same

def Looks (x : Run α) : Prop := ∀ w, (x.exec w).2 = w

namespace Looks

theorem pure (a : α) : (Pure.pure a : Run α).Looks := fun _ => rfl

theorem throw (e : Fault) : (MonadExcept.throw e : Run α).Looks := fun _ => rfl

theorem getStore : Run.getStore.Looks := fun _ => rfl

theorem bind (first : x.Looks) (next : ∀ a, (f a).Looks) : (x >>= f).Looks := by
  intro w
  have before := first w
  rw [exec_bind]
  rcases ran : x.exec w with ⟨fault | a, later⟩
  · rw [ran] at before
    exact before
  · rw [ran] at before
    exact (next a later).trans before

theorem ofExcept (e : Except Fault α) : (Run.ofExcept e).Looks := by
  cases e with
  | ok a => exact pure a
  | error fault => exact throw fault

theorem readVariable (r : Ref .variable) : (CommandScript.readVariable r).Looks := by
  intro w
  rw [exec_readVariable]

theorem heldItem (item : Item) : (CommandScript.heldItem item).Looks := by
  cases item with
  | bare v => exact throw _
  | held r => exact pure r

theorem read (x : Variable) : x.read.Looks := by
  intro w
  rw [Variable.exec_read]

theorem silent (looks : x.Looks) : x.Silent := fun w => congrArg World.store (looks w)

end Looks

theorem Silent.readVariable (r : Ref .variable) : (CommandScript.readVariable r).Silent :=
  (Looks.readVariable r).silent

theorem Silent.heldItem (item : Item) : (CommandScript.heldItem item).Silent :=
  (Looks.heldItem item).silent

theorem Silent.read (x : Variable) : x.read.Silent := (Looks.read x).silent

structure Mild (R : World → World → Prop) : Prop where
  refl : ∀ w, R w w
  trans : ∀ {w v u}, R w v → R v u → R w u
  store : ∀ {w v}, R w v → v.store = w.store

theorem mild_eq : Mild fun w v => v = w where
  refl _ := rfl
  trans first second := second.trans first
  store same := congrArg World.store same

def Stays (R : World → World → Prop) (st : Store) (x : Run α) : Prop :=
  ∀ w, w.store = st → R w (x.exec w).2

namespace Stays

variable {R : World → World → Prop} (mild : Mild R)
include mild

theorem looks (looks : x.Looks) : x.Stays R st := by
  intro w _
  rw [looks w]
  exact mild.refl w

theorem bind (first : x.Stays R st)
    (next : ∀ w a later, x.exec w = (.ok a, later) → (f a).Stays R st) : (x >>= f).Stays R st := by
  intro w same
  have before := first w same
  rw [exec_bind]
  rcases ran : x.exec w with ⟨fault | a, later⟩
  · rw [ran] at before
    exact before
  · rw [ran] at before
    exact mild.trans before (next w a later ran later ((mild.store before).trans same))

theorem before (first : x.Stays R st) (rest : ∀ a, (f a).Looks) : (x >>= f).Stays R st :=
  bind mild first fun _ a _ _ => looks mild (rest a)

omit mild in
theorem getStore_bind {f : Store → Run β} (next : (f st).Stays R st) :
    (getStore >>= f).Stays R st := by
  intro w same
  subst same
  exact next w rfl

theorem nth_bind {xs : List α} {i : Nat} (next : ∀ a, xs[i]? = some a → (f a).Stays R st) :
    (nth xs i >>= f).Stays R st := by
  unfold nth
  rcases there : xs[i]? with _ | a
  · exact looks mild (.throw _)
  · exact next a there

end Stays

end Run

/-- A text comes to itself or to a text in quotes when its words are expanded. -/
theorem Literal.expandValue_inv {s : Text} {v : Value} {w later : World}
    (ok : (expandValue (.text s)).exec w = (.ok v, later)) :
    ∃ t, v = .text t ∧ (t = s ∨ Spelled.isQuoted t = true) := by
  by_cases input : s = inputWord
  · obtain ⟨t, middle, expanded, given⟩ := Run.exec_bind_inv w ok
    cases given
    refine ⟨t, rfl, ?_⟩
    rw [expand, if_pos input, Run.exec_tryCatch] at expanded
    rcases read : (Run.readLine >>= fun line => (pure line.enclose : Run Text)).exec w
      with ⟨fault | line, after⟩
    · rw [read] at expanded
      cases fault with
      | endOfInput =>
        cases expanded
        exact .inl rfl
      | _ => cases expanded
    · obtain ⟨_, _, _, enclosed⟩ := Run.exec_bind_inv w read
      rw [read] at expanded
      cases expanded
      cases enclosed
      exact .inr (Spelled.isQuoted_enclose _)
  · obtain ⟨t, expanded, known⟩ := exec_expandValue_other input
    rw [expanded w] at ok
    cases ok
    exact ⟨t, rfl, known⟩

/-! ### Texts without calls -/

namespace Store

/-- No part of a text calls what is visible under a name anywhere. -/
def CallFree (st : Store) (text : Text) : Prop :=
  ∀ s scope, text.Part s → s.getLast? = some ')' → st.isVisible scope (s.before '(') = false

theorem CallFree.of_not_mem {text : Text} (absent : ')' ∉ text) (st : Store) : st.CallFree text :=
  fun _ _ inside ends => absurd (inside.isInfix.subset (List.mem_of_getLast? ends)) absent

/-- A text in quotes has no parts but itself. -/
theorem CallFree.of_isQuoted {text : Text} (quoted : Spelled.isQuoted text = true) (st : Store) :
    st.CallFree text := by
  have last : ∀ c, text.getLast? = some c → c = '\'' ∨ c = '"' := by
    intro c ends
    rcases Spelled.getLast?_of_isQuoted quoted with mark | mark
    · exact .inr (Option.some.inj (ends.symm.trans mark))
    · exact .inl (Option.some.inj (ends.symm.trans mark))
  have whole : ∀ s, text.Part s → s = text := by
    intro s inside
    induction inside with
    | self => rfl
    | operand _ isOpen _ _ same =>
      rw [same] at isOpen
      exact absurd isOpen.unquoted (by simp [quoted])
    | index _ ends _ same =>
      rw [same] at ends
      rcases last _ ends with mark | mark <;> cases mark
    | piece _ names _ same =>
      rw [same] at names
      cases names with
      | called ends => rcases last _ ends with mark | mark <;> cases mark
      | indexed ends => rcases last _ ends with mark | mark <;> cases mark
      | tested isOpen _ => exact absurd isOpen.unquoted (by simp [quoted])
      | named isOpen _ => exact absurd isOpen.unquoted (by simp [quoted])
  intro s scope inside ends
  rw [whole s inside] at ends
  rcases last _ ends with mark | mark <;> cases mark

theorem CallFree.congr {st later : Store} {text : Text} (free : st.CallFree text)
    (scopes : later.scopes = st.scopes) (tables : later.tables = st.tables) :
    later.CallFree text := by
  intro s scope inside ends
  rw [← free s scope inside ends]
  unfold isVisible
  rw [resolve_congr scopes tables]

end Store

structure Evaluator.Still (ev : Evaluator) (st : Store) (text : Text) : Prop where
  valueOf : ∀ scope s, text.Part s → (ev.valueOf scope s).Still st
  bind : ∀ home name lenient s, text.Part s ∨ Spelled.isQuoted s = true →
    (ev.bind home name lenient (.text s)).Still st

/-- The parts of a text are evaluated, and variables made of them and of texts in quotes, with
nothing done to the world but what may be done. A variable for a name that means nothing needs a
notice, unless that is to be no fault. -/
structure Evaluator.Stays (R : World → World → Prop) (ev : Evaluator) (st : Store)
    (text : Text) : Prop where
  valueOf : ∀ scope s, text.Part s → (ev.valueOf scope s).Stays R st
  bind : ∀ home name lenient s, (lenient = true ∨ ∀ w printed, R w { w with printed }) →
    text.Part s ∨ Spelled.isQuoted s = true →
    (ev.bind home name lenient (.text s)).Stays R st

section Parts

open Run (Mild Stays Looks Silent)

variable {R : World → World → Prop} {st : Store} {text s : Text} {ev : Evaluator}
  {home : Option (Ref .scope)} {scope : Ref .scope}

/-- Words are expanded without a change to anything but the input, and the word for a line of input
is the only one that changes it. -/
theorem Literal.expandValue_stays (mild : Mild R)
    (listens : s = inputWord → ∀ w input, R w { w with input }) :
    (expandValue (.text s)).Stays R st := by
  by_cases input : s = inputWord
  · rintro ⟨store, ⟨lines, hangsUp⟩, printed, files, draws, host, clones⟩ -
    have reads := listens input
    subst input
    rcases lines with _ | ⟨_ | line, rest⟩
    · cases hangsUp with
      | true => exact mild.refl _
      | false => exact mild.refl _
    · exact reads _ ⟨rest, hangsUp⟩
    · exact reads _ ⟨rest, hangsUp⟩
  · obtain ⟨t, expanded, _⟩ := exec_expandValue_other input
    intro w _
    rw [expanded w]
    exact mild.refl w

variable (mild : Mild R) (listens : text.Part Literal.inputWord → ∀ w input, R w { w with input })
  (stays : ev.Stays R st text)
include mild

section

include listens stays

theorem evaluate_stays (inside : text.Part s) :
    (evaluate ev home (.bare (.text s))).Stays R st := by
  rw [evaluate_eq]
  refine .bind mild (.looks mild (.pure (Value.text s))) fun w v later given => ?_
  cases given
  refine .bind mild (Literal.expandValue_stays mild fun same => listens (same ▸ inside))
    fun w v later expanded => ?_
  obtain ⟨t, rfl, known⟩ := Literal.expandValue_inv expanded
  have covered : text.Part t ∨ Spelled.isQuoted t = true :=
    known.imp_left fun (same : t = s) => same ▸ inside
  exact .before mild (stays.bind home nameless true t (.inl rfl) covered) fun x => .read x

end

/-- A name is followed without more than it takes to evaluate one of its pieces. -/
theorem lookupFrom_stays {name : Text} {rest : List Text}
    (pieces : ∀ p ∈ name :: rest, ∀ home, (evaluate ev home (.bare (.text p))).Stays R st) :
    (lookupFrom ev scope name rest).Stays R st := by
  induction rest generalizing scope name with
  | nil =>
    refine Stays.getStore_bind ?_
    split
    · exact .looks mild (.pure _)
    · exact .before mild (pieces name List.mem_cons_self _) fun _ => .pure _
  | cons member rest ih =>
    refine Stays.getStore_bind ?_
    split
    · split
      · exact ih fun p listed => pieces p (List.mem_cons_of_mem _ listed)
      · exact .looks mild (.throw _)
    · exact .before mild (pieces name List.mem_cons_self _) fun _ => .pure _

theorem lookup_stays {name : Text}
    (pieces : ∀ p ∈ name.splitOn '.', ∀ home, (evaluate ev home (.bare (.text p))).Stays R st) :
    (lookup ev scope name).Stays R st := by
  unfold lookup
  split
  · next parts => exact lookupFrom_stays mild fun p listed => pieces p (parts ▸ listed)
  · exact .looks mild (.throw _)

/-- A condition takes no more than its operands, or the pieces of the name that it is. -/
theorem condition_stays
    (operands : ∀ c i o, Comparison.find? s = some c → i < 2 → (c.operands s)[i]? = some o →
      (ev.valueOf scope o).Stays R st)
    (pieces : Comparison.find? s = none → ∀ p ∈ s.splitOn '.', ∀ home,
      (evaluate ev home (.bare (.text p))).Stays R st) :
    (condition ev scope s).Stays R st := by
  unfold condition
  split
  · next c found =>
    refine .nth_bind mild fun o first =>
      .bind mild (operands c 0 o found (by decide) first) fun _ a _ _ => ?_
    refine .nth_bind mild fun o second =>
      .before mild (operands c 1 o found (by decide) second) fun b => ?_
    exact Looks.getStore.bind fun _ => (Looks.ofExcept _).bind fun _ => .pure _
  · next absent =>
    refine Stays.getStore_bind ?_
    split
    · exact .before mild (lookup_stays mild (pieces absent)) fun item =>
        (Looks.heldItem item).bind fun r => .readVariable r
    · exact .looks mild (.pure _)

omit mild in
theorem unknown_silent (lenient : Bool) (name : Option Text) (st : Store) :
    (bindName.unknown ev home lenient name st).Silent := by
  unfold bindName.unknown
  split
  · exact .pure _
  · exact (Silent.ofExcept _).bind fun _ => (Silent.print _).bind fun _ => .throw _

private theorem unknown_stays {lenient : Bool}
    (tells : lenient = true ∨ ∀ w printed, R w { w with printed }) (name : Option Text)
    (now : Store) : (bindName.unknown ev home lenient name now).Stays R st := by
  unfold bindName.unknown
  split
  · exact .looks mild (.pure _)
  · next strict =>
    have prints := tells.resolve_left strict
    refine .bind mild (.looks mild (.ofExcept _)) fun _ line _ _ => ?_
    exact .before mild (fun w _ => prints w _) fun _ => .throw _

include listens stays

private theorem bindText_stays (name : Text) {lenient : Bool}
    (tells : lenient = true ∨ ∀ w printed, R w { w with printed })
    (known : text.Part s ∨ Spelled.isQuoted s = true) :
    (bindText ev home name lenient s).Stays R st := by
  unfold bindText
  split
  · exact .looks mild (.pure _)
  · next unquoted =>
    have inside : text.Part s := known.resolve_right unquoted
    split
    · exact .looks mild (.pure _)
    · next noInt =>
      split
      · exact .looks mild (.pure _)
      · next noFloat =>
        have isOpen : s.IsOpen := Text.IsOpen.of_branches unquoted noInt noFloat
        split
        · split
          · refine .before mild (condition_stays mild ?_ ?_) fun _ => .pure _
            · intro c i o found bound there
              exact stays.valueOf _ o (inside.operand_at isOpen found bound there)
            · intro absent p listed home
              exact evaluate_stays mild listens stays (inside.piece (.tested isOpen absent) listed)
          · exact .looks mild (.throw _)
        · next plain =>
          unfold bindName
          split
          · refine Stays.getStore_bind ?_
            dsimp only
            split
            · refine .before mild (lookup_stays mild fun p listed home => ?_) fun item =>
                (Looks.heldItem item).bind fun r => Looks.getStore.bind fun _ => .pure _
              exact evaluate_stays mild listens stays
                (inside.piece (.named isOpen (Bool.eq_false_iff.mpr plain)) listed)
            · exact unknown_stays mild tells _ _
          · exact .looks mild (.throw _)

omit mild listens stays in
theorem element_looks (r : Ref .variable) (index : Value) : (element ev r index).Looks := by
  unfold element
  refine (Looks.readVariable r).bind fun v => (Looks.ofExcept _).bind fun i =>
    Looks.getStore.bind fun st => ?_
  refine (Looks.ofExcept _).bind fun n => (Looks.ofExcept _).bind fun i =>
    (Looks.ofExcept _).bind fun item => ?_
  cases item with
  | bare u => exact .pure u
  | held q => exact .readVariable q

private theorem valueStep_stays (free : st.CallFree text) (inside : text.Part s) :
    (valueStep ev scope s).Stays R st := by
  unfold valueStep
  refine Stays.getStore_bind ?_
  split
  · next call =>
    rw [free s scope inside call.1] at call
    cases call.2
  · split
    · next element =>
      refine .bind mild (lookup_stays mild fun p listed home => ?_) fun _ item _ _ => ?_
      · exact evaluate_stays mild listens stays (inside.piece (.indexed element.1) listed)
      unfold bracketed
      simp only [bind_assoc, pure_bind]
      refine .nth_bind mild fun i there =>
        .before mild (stays.valueOf scope _ (inside.index element.1 there)) fun v => ?_
      exact (Looks.heldItem item).bind fun r => element_looks r v
    · exact evaluate_stays mild listens stays inside

end Parts

namespace Evaluator

variable {st : Store} {text : Text}

/-- Evaluation without calls does no more to the world than to read lines of input and to tell of
unknown names. -/
theorem ofRoom_stays (rounds n : Nat) {R : World → World → Prop} (mild : Run.Mild R)
    (listens : text.Part Literal.inputWord → ∀ w input, R w { w with input })
    (free : st.CallFree text) : (ofRoom rounds n).Stays R st text := by
  induction n with
  | zero => exact ⟨fun _ _ _ => .looks mild (.throw _), fun _ _ _ _ _ _ => .looks mild (.throw _)⟩
  | succ n ih =>
    refine ⟨fun scope s inside => ?_, fun home name lenient s tells known => ?_⟩
    · exact valueStep_stays mild listens ih free inside
    · exact bindText_stays mild listens ih name tells known

/-- Evaluation without calls leaves the store as it is. -/
theorem ofRoom_still (rounds n : Nat) (free : st.CallFree text) :
    (ofRoom rounds n).Still st text := by
  have mild : Run.Mild fun w v : World => v.store = w.store :=
    ⟨fun _ => rfl, fun first second => second.trans first, id⟩
  have stays := ofRoom_stays rounds n mild (fun _ _ _ => rfl) free
  refine ⟨fun scope s inside w same => ?_, fun home name lenient s known w same => ?_⟩
  · exact (stays.valueOf scope s inside w same).trans same
  · exact (stays.bind home name lenient s (.inr fun _ _ => rfl) known w same).trans same

end Evaluator

/-! ### Variables that stay as they are -/

namespace Store

variable {st middle later : Store} {v : Value}

/-- The variables that were there are as they were and are bound as they were. Bare elements of
lists may have become variables. -/
structure Retains (st later : Store) : Prop where
  scopes : later.scopes = st.scopes
  tables : later.tables = st.tables
  vars : st.vars.Extends later.vars
  bare : ∀ (l : Ref .list) (i : Nat) (v : Value), (later.list l)[i]? = some (.bare v) →
    (st.list l)[i]? = some (.bare v)

namespace Retains

theorem refl (st : Store) : st.Retains st := ⟨rfl, rfl, .refl _, fun _ _ _ => id⟩

theorem trans (first : st.Retains middle) (second : middle.Retains later) : st.Retains later where
  scopes := second.scopes.trans first.scopes
  tables := second.tables.trans first.tables
  vars := first.vars.trans second.vars
  bare l i v there := first.bare l i v (second.bare l i v there)

theorem wrapAt (st : Store) (l : Ref .list) (i : Nat) (x : Variable) :
    st.Retains (st.wrapAt l i x) where
  scopes := rfl
  tables := rfl
  vars := (st.extends_newVariable x).vars
  bare k j v there := by
    rcases Arena.read_update_cases st.lists l k (·.setIfInBounds i (.held (st.newVariable x).1))
      with same | ⟨_, _, changed⟩
    · exact (congrArg (·[j]?) same).symm.trans there
    · have there := (congrArg (·[j]?) changed).symm.trans there
      simp only [Array.getElem?_setIfInBounds] at there
      split at there
      · split at there <;> cases there
      · exact there

end Retains

def Inert (st : Store) : Value → Prop
  | .text s => st.CallFree s
  | _ => True

def InertElements (st : Store) : Prop :=
  ∀ (l : Ref .list) (i : Nat) (v : Value), (st.list l)[i]? = some (.bare v) → st.Inert v

/-- No text in the store spells a call: no bare element of a list, and nothing that a bound variable
reads as. -/
structure Passive (st : Store) : Prop where
  elements : st.InertElements
  bound : ∀ r v, st.IsBound r → (st.var r).reading = .ok v → st.Inert v

theorem Inert.congr (inert : st.Inert v) (scopes : later.scopes = st.scopes)
    (tables : later.tables = st.tables) : later.Inert v := by
  cases v with
  | text s => exact CallFree.congr inert scopes tables
  | _ => trivial

theorem InertElements.retained (elements : st.InertElements) (retains : st.Retains later) :
    later.InertElements :=
  fun l i v there => (elements l i v (retains.bare l i v there)).congr retains.scopes retains.tables

/-- A variable reads as its content or as a text in quotes. -/
theorem Inert.of_reading {x : Variable} (inert : st.Inert x.content) (read : x.reading = .ok v) :
    st.Inert v := by
  unfold Variable.reading at read
  split at read
  · split at read
    · cases read
      exact CallFree.of_isQuoted (Spelled.isQuoted_encloseSingle _) st
    · cases read
  · cases read
    exact inert

/-- The store stays passive when one variable changes and reads as something that calls nothing. -/
theorem Passive.changed (passive : st.Passive) {r : Ref .variable}
    (scopes : later.scopes = st.scopes) (tables : later.tables = st.tables)
    (lists : later.lists = st.lists) (others : ∀ q, q ≠ r → later.var q = st.var q)
    (inert : ∀ u, (later.var r).reading = .ok u → st.Inert u) : later.Passive where
  elements l i v there := by
    rw [list, lists] at there
    exact (passive.elements l i v there).congr scopes tables
  bound q v bound read := by
    by_cases same : q = r
    · subst same
      exact (inert v read).congr scopes tables
    · obtain ⟨t, name, member⟩ := bound
      rw [table, tables] at member
      rw [others q same] at read
      exact (passive.bound q v ⟨t, name, member⟩ read).congr scopes tables

end Store

namespace Run

variable {α β : Type} {st : Store} {x : Run α} {f : α → Run β}

def Retains (st : Store) (x : Run α) : Prop := ∀ w, w.store = st → st.Retains (x.exec w).2.store

theorem Still.retains (still : x.Still st) : x.Retains st :=
  fun w same => (still w same).symm ▸ .refl st

namespace Retains

theorem bind (first : x.Retains st)
    (next : ∀ w a later, w.store = st → x.exec w = (.ok a, later) → (f a).Retains later.store) :
    (x >>= f).Retains st := by
  intro w same
  have before := first w same
  rw [exec_bind]
  rcases ran : x.exec w with ⟨fault | a, later⟩
  · rw [ran] at before
    exact before
  · rw [ran] at before
    exact before.trans (next w a later same ran later rfl)

theorem after (first : x.Retains st) {w later : World} {e : Except Fault α} (same : w.store = st)
    (ran : x.exec w = (e, later)) : st.Retains later.store := by
  have kept := first w same
  rwa [ran] at kept

theorem getStore_bind {f : Store → Run β} (next : (f st).Retains st) :
    (getStore >>= f).Retains st := by
  intro w same
  subst same
  exact next w rfl

end Retains

end Run

section Storing

open Run (Still Silent)

variable {ev : Evaluator} {home : Option (Ref .scope)} {st : Store}

def Evaluator.Retains (ev : Evaluator) : Prop :=
  ∀ home name lenient v st, st.InertElements → st.Inert v → (ev.bind home name lenient v).Retains st

private theorem settleAt_retains (retains : ev.Retains) (elements : st.InertElements)
    (l : Ref .list) (i : Nat) : (settleAt ev home l i).Retains st := by
  refine Run.Retains.getStore_bind ?_
  split
  · next v bare =>
    refine (retains home nameless false v st elements (elements l i v bare)).bind
      fun w x later _ _ => ?_
    intro m same
    rw [← same]
    exact .wrapAt m.store l i x
  · exact (Silent.pure _).still.retains

private theorem settle_retains (retains : ev.Retains) (elements : st.InertElements)
    (l : Ref .list) : (settle ev home l).Retains st := by
  refine Run.Retains.getStore_bind ?_
  generalize List.range (st.list l).size = places
  induction places generalizing st with
  | nil => exact (Silent.pure _).still.retains
  | cons i rest ih =>
    have here : (settleAt ev home l i).Retains st := settleAt_retains retains elements l i
    exact here.bind fun w _ later same ran => ih (elements.retained (here.after same ran))

theorem Evaluator.ofRoom_retains (rounds n : Nat) : (ofRoom rounds n).Retains := by
  induction n with
  | zero => exact fun _ _ _ _ _ _ _ => (Silent.throw _).still.retains
  | succ n ih =>
    intro home name lenient v st elements inert
    cases v with
    | nothing =>
      change (bindName _ home lenient none).Retains st
      unfold bindName
      split
      · exact Run.Retains.getStore_bind (unknown_silent _ _ _).still.retains
      · exact (Silent.throw _).still.retains
    | text s =>
      exact ((ofRoom_still rounds (n + 1) inert).bind home name lenient s (.inl .self)).retains
    | list l =>
      refine Run.Retains.getStore_bind ?_
      split
      · exact (Silent.pure _).still.retains
      · exact (settle_retains ih elements l).bind fun _ _ _ _ _ => (Silent.pure _).still.retains
    | record q => exact Run.Retains.getStore_bind (Silent.pure _).still.retains
    | _ => exact (Silent.pure _).still.retains

theorem evaluate_retains (rounds n : Nat) {u : Value} (elements : st.InertElements)
    (inert : st.Inert u) : (evaluate (.ofRoom rounds n) home (.bare u)).Retains st := by
  rw [evaluate_eq]
  have expanded : ∀ w v later, (Literal.expandValue u).exec w = (.ok v, later) → st.Inert v := by
    intro w v later ok
    cases u with
    | text s =>
      obtain ⟨t, rfl, rfl | quoted⟩ := Literal.expandValue_inv ok
      · exact inert
      · exact Store.CallFree.of_isQuoted quoted st
    | _ =>
      cases ok
      trivial
  refine (Silent.pure u).still.retains.bind fun w v later same given => ?_
  cases given
  rw [same]
  refine (Literal.expandValue_silent u).still.retains.bind fun w v later same ok => ?_
  rw [(Literal.expandValue_silent u).same ok, same]
  refine (Evaluator.ofRoom_retains rounds n home nameless true v st elements
    (expanded w v later ok)).bind fun _ x _ _ _ => ?_
  exact (Silent.read x).still.retains

/-- What a variable made of a value reads as calls nothing, if nothing in the store does. -/
theorem inert_of_bind {rounds n : Nat} {name : Text} {lenient : Bool} {v u : Value} {x : Variable}
    {w later : World} (passive : w.store.Passive)
    (made : ((Evaluator.ofRoom rounds n).bind home name lenient v).exec w = (.ok x, later))
    (read : x.reading = .ok u) : w.store.Inert u := by
  cases n with
  | zero => cases made
  | succ n =>
    cases (bindStep_inv made).2 u read with
    | plain plain =>
      cases u with
      | text s =>
        obtain ⟨t, rfl⟩ := plain
        exact Store.CallFree.of_isQuoted (Spelled.isQuoted_encloseSingle t) _
      | _ => trivial
    | named s r bound read _ => exact passive.bound r u bound read
    | settled l => trivial

end Storing

end CommandScript

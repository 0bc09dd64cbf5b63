import CommandScript.Proofs.Expressions
import CommandScript.Proofs.Planting

/-! What statements keep. With a sound evaluator for what is nested in it, every command is tame,
and all commands are sound but those that store a value under a name or convert a variable. -/
namespace CommandScript

open Run (Sound Tame Silent)

variable {st : Store} {scope : Ref .scope}

/-! ### Loading -/

namespace Store

mutual

/-- A planted tree leaves a closed store closed and a described one described, and its statement is
there. -/
theorem plant_kept (interactive : Bool) (t : Tree) {scope : Ref .scope} {st : Store}
    (closed : st.Closed) (inside : st.Has scope.cell) :
    (plant scope interactive t st).2.Closed ∧
    (st.Described → (plant scope interactive t st).2.Described) ∧
      (plant scope interactive t st).2.Has (plant scope interactive t st).1.cell := by
  cases t with
  | leaf command index =>
    have known : st.HasAll ({ command, index, children := [], scope, interactive } : Node).cells :=
      fun c member => List.mem_singleton.mp member ▸ inside
    exact ⟨closed.newNode known, fun described => described.newNode closed _,
      Arena.holds_alloc_fresh _ _⟩
  | block command index body =>
    simp only [plant]
    have closedScope := closed.newScope (someHome inside)
    have inner := (st.has_newScope (some scope) _).mpr (.inr rfl)
    obtain ⟨closedAll, describedAll, children⟩ := plantAll_kept interactive body closedScope inner
    have scopeLater :=
      inner.mono (extends_plantAll (st.newScope (some scope)).1 interactive body _).grows
    refine ⟨closedAll.newNode ?_,
      fun described => (describedAll (described.newScope closed _)).newNode closedAll _,
      Arena.holds_alloc_fresh _ _⟩
    refine hasAll_append.mpr ⟨fun c member => ?_,
      fun c member => List.mem_singleton.mp member ▸ scopeLater⟩
    obtain ⟨child, below, rfl⟩ := List.mem_map.mp member
    exact children child below

private theorem plantAll_kept (interactive : Bool) (trees : List Tree) {scope : Ref .scope}
    {st : Store} (closed : st.Closed) (inside : st.Has scope.cell) :
    (plantAll scope interactive trees st).2.Closed ∧
    (st.Described → (plantAll scope interactive trees st).2.Described) ∧
      ∀ r ∈ (plantAll scope interactive trees st).1,
        (plantAll scope interactive trees st).2.Has r.cell := by
  cases trees with
  | nil => exact ⟨closed, id, fun _ member => absurd member List.not_mem_nil⟩
  | cons t rest =>
    simp only [plantAll]
    obtain ⟨closedFirst, describedFirst, here⟩ := plant_kept interactive t closed inside
    obtain ⟨closedRest, describedRest, others⟩ :=
      plantAll_kept interactive rest closedFirst
        (inside.mono (extends_plant scope interactive t st).grows)
    refine ⟨closedRest, fun described => describedRest (describedFirst described),
      fun r member => ?_⟩
    rcases List.mem_cons.mp member with rfl | later
    · exact here.mono (extends_plantAll _ _ _ _).grows
    · exact others r later

end

end Store

theorem plantProgram_sound (interactive : Bool) (trees : List Tree) (closed : st.Closed)
    (inside : st.Has scope.cell) :
    (Run.alloc (·.plantProgram scope interactive trees)).Sound st fun program later =>
      later.Has program.cell := by
  obtain ⟨closedAll, describedAll, children⟩ := Store.plantAll_kept interactive trees closed inside
  have grows := (Store.extends_plantAll scope interactive trees st).grows
  refine Sound.alloc (grows.trans (Store.extends_newNode _ _).grows) (closedAll.newNode ?_)
    (fun described => (describedAll described).newNode closedAll _) (Arena.holds_alloc_fresh _ _)
  refine Store.hasAll_append.mpr
    ⟨fun c member => ?_, fun c member => List.mem_singleton.mp member ▸ inside.mono grows⟩
  obtain ⟨child, below, rfl⟩ := List.mem_map.mp member
  exact children child below

theorem load_sound (limit : Nat) (interactive : Bool) (source : Text) (closed : st.Closed)
    (inside : st.Has scope.cell) :
    (Program.load limit scope interactive source).Sound st fun program later =>
      later.Has program.cell := by
  have flat : (Program.loadFlat limit scope interactive (Layout.flatten source)).Sound st
      fun loaded later => later.Has loaded.1.cell := by
    unfold Program.loadFlat
    split
    dsimp only
    split
    · exact Sound.throw_bind _
    · refine (plantProgram_sound interactive _ closed inside).bind ?_
      intro program later closed _ held
      exact Sound.pure closed held
  refine flat.bind ?_
  intro loaded later closed _ held
  exact Sound.pure closed held

/-! ### Commands -/

def Outcome.Kept (outcome : Outcome) (later : Store) : Prop := later.HasAll outcome.value.cells

private theorem done_sound (closed : st.Closed) :
    (pure .done : Run Outcome).Sound st Outcome.Kept :=
  Sound.pure closed (Store.hasAll_nil st)

private theorem then_done_sound {x : Run Unit} {post : Unit → Store → Prop}
    (sound : x.Sound st post) : (do x; return .done : Run Outcome).Sound st Outcome.Kept :=
  sound.bind fun _ _ closed _ _ => done_sound closed

private theorem then_done_tame {x : Run Unit} {post : Unit → Store → Prop} (tame : x.Tame st post) :
    (do x; return .done : Run Outcome).Tame st Outcome.Kept :=
  tame.bind fun _ _ closed _ _ => (done_sound closed).tame

private theorem loopTimes_sound {body : Run Outcome} (times : Nat) (closed : st.Closed)
    (each : ∀ later, later.Closed → st.Grows later → body.Sound later Outcome.Kept) :
    (loopTimes body times).Sound st Outcome.Kept := by
  induction times generalizing st with
  | zero => exact done_sound closed
  | succ times ih =>
    refine (each st closed (.refl _)).bind ?_
    intro outcome later closed grows kept
    split
    · exact ih closed fun last closed further => each last closed (grows.trans further)
    · exact Sound.pure closed kept

private theorem loopWhile_sound {test : Run Bool} {body : Run Outcome} (rounds : Nat)
    (closed : st.Closed)
    (tests : ∀ later, later.Closed → st.Grows later → test.Sound later fun _ _ => True)
    (each : ∀ later, later.Closed → st.Grows later → body.Sound later Outcome.Kept) :
    (loopWhile test body rounds).Sound st Outcome.Kept := by
  induction rounds generalizing st with
  | zero => exact Sound.throw _
  | succ rounds ih =>
    refine (tests st closed (.refl _)).bind ?_
    intro holds middle closed grows _
    split
    · refine (each middle closed grows).bind ?_
      intro outcome later closed further kept
      have grown := grows.trans further
      split
      · exact ih closed (fun last closed more => tests last closed (grown.trans more))
          fun last closed more => each last closed (grown.trans more)
      · exact Sound.pure closed kept
    · exact done_sound closed

def Verb.rewrites : Verb → Bool
  | var | length | array | add | arithmetic _ | wave _ | formula | convert | screen => true
  | _ => false

namespace Screen

private theorem mem_of_sharedRecord {x : Variable} {r : Ref .record}
    (given : sharedRecord x = .ok r) : r.cell ∈ x.content.cells := by
  unfold sharedRecord at given
  split at given
  · next found =>
    cases given
    rw [found]
    exact List.mem_singleton.mpr rfl
  · cases given

private theorem mem_of_entry {record : Ref .record} {key : Key} {item : Item}
    (given : entry st record key = .ok item) : (key, item) ∈ (st.record record).entries := by
  unfold entry at given
  split at given
  · next found =>
    cases given
    obtain ⟨front, back, entries, -⟩ := List.lookup_eq_some_iff.mp found
    rw [entries]
    exact List.mem_append_right _ List.mem_cons_self
  · cases given

private theorem cells_eventValues {event : Event} {v : Value} (member : v ∈ eventValues event) :
    v.cells = [] := by
  obtain ⟨kind, key⟩ := event
  rcases List.mem_cons.mp member with rfl | last
  · rfl
  · rw [List.mem_singleton.mp last]
    cases key <;> rfl

end Screen

private theorem values_stay (v : Value) (st later : Store) (grows : st.Grows later)
    (known : st.HasAll v.cells) :
    later.HasAll v.cells := known.mono grows

structure Site.In (s : Site) (st : Store) : Prop where
  scope : st.Has s.scope.cell
  node : st.Has s.node.cell

theorem Site.In.mono {s : Site} {later : Store} (placed : s.In st) (grows : st.Grows later) :
    s.In later :=
  ⟨placed.scope.mono grows, placed.node.mono grows⟩

namespace Site

variable {s : Site} (sound : s.ev.Sound) (closed : st.Closed) (placed : s.In st)
include sound closed placed

private theorem valueOf_sound (text : Text) :
    (s.valueOf text).Sound st fun v later => later.HasAll v.cells :=
  sound.valueOf text closed placed.scope

private theorem variableOf_sound (name : Text) :
    (s.variableOf name).Sound st fun r later => later.Has r.cell ∧ later.Binds r :=
  lookup_held_sound sound name closed placed.scope

private theorem store_tame (name : Text) {v : Value} (known : st.HasAll v.cells) :
    (s.store name v).Tame st fun _ _ => True :=
  have item : st.HasAll (Item.bare v).cells := known
  assign_tame sound true name closed placed.scope item

private theorem storeItem_tame (name : Text) {item : Item} (known : st.HasAll item.cells) :
    (s.storeItem name item).Tame st fun _ _ => True :=
  assign_tame sound true name closed placed.scope known

private theorem storeLocal_tame (name : Text) {v : Value} (known : st.HasAll v.cells) :
    (s.storeLocal name v).Tame st fun _ _ => True :=
  have item : st.HasAll (Item.bare v).cells := known
  assign_tame sound false name closed placed.scope item

private theorem shown_sound (text : Text) : (s.shown text).Sound st fun _ _ => True := by
  refine (valueOf_sound sound closed placed text).bind ?_
  intro v later closed _ _
  exact Sound.getStore_bind (Sound.ofExcept_bind fun _ _ => Sound.pure closed trivial)

private theorem shownAll_sound (texts : List Text) :
    (texts.mapM s.shown).Sound st fun _ _ => True := by
  refine (Sound.mapM (fun _ _ _ _ _ => trivial) texts closed ?_).mono fun _ _ _ _ => trivial
  intro text later closed grows
  exact shown_sound sound closed (placed.mono grows) text

private theorem print_sound : s.print.Sound st Outcome.Kept := by
  refine (shownAll_sound sound closed placed _).bind ?_
  intro texts later closed _ _
  exact Sound.after_silent closed (Silent.print _) fun _ => done_sound closed

private theorem putchar_sound : s.putchar.Sound st Outcome.Kept := by
  refine (valueOf_sound sound closed placed _).bind ?_
  intro v later closed _ _
  refine Sound.ofExcept_bind fun code _ => Sound.ofExcept_bind fun c _ => ?_
  exact Sound.after_silent closed (Silent.print _) fun _ => done_sound closed

private theorem var_tame : s.var.Tame st Outcome.Kept := by
  unfold var
  refine Tame.after_silent closed (Silent.nth _ _) fun first => ?_
  split
  · refine Tame.after_silent closed (Silent.nth _ _) fun name => ?_
    refine (valueOf_sound sound closed placed _).tame.bind ?_
    intro v later closed grows known
    exact then_done_tame (storeLocal_tame sound closed (placed.mono grows) _ known)
  · refine (valueOf_sound sound closed placed _).tame.bind ?_
    intro v later closed grows known
    have item : later.HasAll (Item.bare v).cells := known
    exact then_done_tame (assign_tame sound _ _ closed (placed.mono grows).scope item)

private theorem length_tame : s.length.Tame st Outcome.Kept := by
  unfold length
  refine Tame.after_silent closed (Silent.nth _ _) fun name => ?_
  refine Tame.after_silent closed (Silent.nth _ _) fun source => ?_
  refine (variableOf_sound sound closed placed source).tame.bind ?_
  intro r later closed grows _
  refine Tame.readVariable_bind fun v _ => Tame.getStore_bind (Tame.ofExcept_bind fun n _ => ?_)
  exact then_done_tame (store_tame sound closed (placed.mono grows) name (Store.hasAll_nil later))

theorem newList_sound (texts : List Text) :
    (s.newList texts).Sound st fun v later => later.HasAll v.cells := by
  refine (Sound.mapM values_stay texts closed ?_).bind ?_
  · intro text later closed grows
    exact valueOf_sound sound closed (placed.mono grows) text
  · intro vs later closed _ known
    exact listOf_sound closed known

private theorem array_tame : s.array.Tame st Outcome.Kept := by
  unfold array
  dsimp only
  refine Tame.after_silent closed (Silent.nth _ _) fun second => ?_
  refine Tame.after_silent closed (Silent.nth _ _) fun first => ?_
  refine (newList_sound sound closed placed _).tame.bind ?_
  intro v later closed grows known
  split
  · exact then_done_tame (storeLocal_tame sound closed (placed.mono grows) _ known)
  · exact then_done_tame (store_tame sound closed (placed.mono grows) _ known)

private theorem append_sound : s.append.Sound st Outcome.Kept := by
  unfold append
  refine Sound.after_silent closed (Silent.nth _ _) fun element => ?_
  refine (valueOf_sound sound closed placed element).bind ?_
  intro v middle closed grows known
  refine Sound.after_silent closed (Silent.nth _ _) fun name => ?_
  refine (variableOf_sound sound closed (placed.mono grows) name).bind ?_
  intro r later closed further held
  refine Sound.getStore_bind ?_
  dsimp only
  split
  · next l content =>
    have closedLater : (later.updateList l (·.push (.bare v))).Closed := by
      refine closed.updateList l _ fun has c member => ?_
      rw [Item.cellsOf, Array.toList_push, List.flatMap_append] at member
      rcases List.mem_append.mp member with old | new
      · exact closed.lists l has c old
      · obtain ⟨item, single, edge⟩ := List.mem_flatMap.mp new
        obtain rfl := List.mem_singleton.mp single
        exact (known.mono further) c edge
    exact Sound.changeStore_bind (later.grows_updateList l _) closedLater
      (fun described => described.updateList l _)
      (done_sound closedLater)
  · exact Sound.throw_bind _

private theorem retag_tame (tag : Tag) {convert : Value → Run Value}
    (converts : ∀ v (later : Store), later.Closed → (convert v).Tame later fun u last =>
      last.HasAll u.cells) :
    (s.retag tag convert).Tame st fun _ _ => True := by
  refine Tame.after_silent closed (Silent.nth _ _) fun name => ?_
  refine (variableOf_sound sound closed placed name).tame.bind ?_
  intro r middle closed grows held
  refine Tame.readVariable_bind fun v _ => ?_
  have retagged := middle.grows_updateVariable r fun x => { x with tag }
  have closedRetagged : (middle.updateVariable r fun x => { x with tag }).Closed :=
    closed.updateVariable r _ fun has => closed.vars r has
  refine Tame.changeStore_bind retagged closedRetagged ((converts v _ closedRetagged).bind ?_)
  intro u later closed further known
  have item : later.HasAll (Item.bare u).cells := known
  exact assignVariable_tame sound closed ((held.1.mono retagged).mono further) item

private theorem convert_tame : s.convert.Tame st Outcome.Kept := by
  have plain : ∀ {α : Type} {last : Store} (e : Except Fault α) (f : α → Value), last.Closed →
    (∀ a, (f a).cells = []) →
      (do return f (← Run.ofExcept e) : Run Value).Tame last fun u last => last.HasAll u.cells :=
    fun e f closed none => Tame.ofExcept_bind fun a _ =>
      Tame.pure closed (none a ▸ Store.hasAll_nil _)
  unfold convert
  refine Tame.after_silent closed (Silent.nth _ _) fun target => ?_
  dsimp only
  split
  · exact then_done_tame (retag_tame sound closed placed .int fun v _ closed =>
      plain _ _ closed fun _ => rfl)
  · split
    · exact then_done_tame (retag_tame sound closed placed .float fun v _ closed =>
        plain _ _ closed fun _ => rfl)
    · split
      · exact then_done_tame (retag_tame sound closed placed .text fun v _ closed =>
          Tame.getStore_bind (plain _ _ closed fun _ => rfl))
      · exact (done_sound closed).tame

private theorem tagOf_sound : s.tagOf.Sound st Outcome.Kept := by
  unfold tagOf
  refine Sound.after_silent closed (Silent.nth _ _) fun source => ?_
  refine (variableOf_sound sound closed placed source).bind ?_
  intro r later closed grows _
  refine Sound.getStore_bind (Sound.after_silent closed (Silent.nth _ _) fun name => ?_)
  exact then_done_sound (declare_sound sound name closed (placed.mono grows).scope
    (Store.hasAll_nil later))

private theorem random_sound : s.random.Sound st Outcome.Kept := by
  unfold random
  refine Sound.after_silent closed (Silent.nth _ _) fun name =>
    Sound.after_silent closed Silent.draw fun x => ?_
  exact then_done_sound (declare_sound sound name closed placed.scope (Store.hasAll_nil st))

omit sound placed in
private theorem answer_tame (text : Text) :
    (s.answer text).Tame st fun item later => later.HasAll item.cells := by
  refine Tame.get_bind fun w same => Tame.ofExcept_bind fun answer _ => ?_
  subst same
  have closedLater := answer.closed closed
  exact Tame.changeStore_bind (w.store.grows_addAll _ _) closedLater
    (Tame.pure closedLater answer.has_value)

private theorem formula_tame : s.formula.Tame st Outcome.Kept := by
  unfold formula
  refine Tame.after_silent closed (Silent.nth _ _) fun name => (answer_tame closed _).bind ?_
  intro item later closed grows known
  exact then_done_tame (storeItem_tame sound closed (placed.mono grows) name known)

/-! ### Arithmetic -/

omit sound placed in
private theorem sum_sound {a b : Value} (first : st.HasAll a.cells) (second : st.HasAll b.cells) :
    (sum a b).Sound st fun v later => later.HasAll v.cells := by
  unfold sum
  split
  · exact Sound.ofExcept_bind fun n _ => Sound.pure closed (st.hasAll_ofNumber n)
  · split
    · exact Sound.pure closed (Store.hasAll_nil st)
    · exact Sound.getStore_bind (joined_sound closed (first _ (List.mem_singleton.mpr rfl))
        (second _ (List.mem_singleton.mpr rfl)))
    · exact Sound.throw _

private theorem operand_sound (i : Nat) :
    (do Sequence.dropQuotes (← s.valueOf (← s.word i)) : Run Value).Sound st fun v later =>
      later.HasAll v.cells := by
  refine Sound.after_silent closed (Silent.nth _ _) fun text => ?_
  refine (valueOf_sound sound closed placed text).bind ?_
  intro v later closed _ known
  exact shorten_sound Spelled.dropQuotes_subset closed known

private theorem add_tame : s.add.Tame st Outcome.Kept := by
  have split : s.add = (do
      let a ← (do Sequence.dropQuotes (← s.valueOf (← s.word 2)))
      let b ← (do Sequence.dropQuotes (← s.valueOf (← s.word 3)))
      s.store (← s.word 1) (← sum a b)
      return .done : Run Outcome) := by
    simp only [add, bind_assoc]
  rw [split]
  refine (operand_sound sound closed placed 2).tame.bind ?_
  intro a middle closed grows first
  refine (operand_sound sound closed (placed.mono grows) 3).tame.bind ?_
  intro b later closed further second
  refine Tame.after_silent closed (Silent.nth _ _) fun name => ?_
  refine (sum_sound closed (first.mono further) second).tame.bind ?_
  intro v last closed more known
  exact then_done_tame (store_tame sound closed
    (((placed.mono grows).mono further).mono more) name known)

omit sound placed in
private theorem reportOperands_sound (a b : Value) (operation : Text) :
    (s.reportOperands a b operation).Sound st Outcome.Kept := by
  refine Sound.getStore_bind (Sound.ofExcept_bind fun _ _ => Sound.after_silent closed
    (Silent.print _) fun _ => ?_)
  exact Sound.pure closed (Store.hasAll_nil st)

private theorem storeResult_tame (result : Except Fault Number) :
    (do
      let n ← Run.ofExcept result
      s.store (← s.word 1) (.ofNumber n)
      return .done : Run Outcome).Tame st Outcome.Kept := by
  refine Tame.ofExcept_bind fun n _ => Tame.after_silent closed (Silent.nth _ _) fun name => ?_
  exact then_done_tame (store_tame sound closed placed name (st.hasAll_ofNumber n))

private theorem arithmetic_tame (op : Arithmetic) : (s.arithmetic op).Tame st Outcome.Kept := by
  unfold arithmetic
  refine Tame.after_silent closed (Silent.nth _ _) fun left => ?_
  refine (valueOf_sound sound closed placed left).tame.bind ?_
  intro a middle closed grows _
  refine Tame.after_silent closed (Silent.nth _ _) fun right => ?_
  refine (valueOf_sound sound closed (placed.mono grows) right).tame.bind ?_
  intro b later closed further _
  split
  · exact storeResult_tame sound closed ((placed.mono grows).mono further) _
  · exact (reportOperands_sound closed a b _).tame

private theorem wave_tame (w : Wave) : (s.wave w).Tame st Outcome.Kept := by
  unfold wave
  refine Tame.after_silent closed (Silent.nth _ _) fun operand => ?_
  refine (valueOf_sound sound closed placed operand).tame.bind ?_
  intro a later closed grows _
  split
  · exact storeResult_tame sound closed (placed.mono grows) _
  · exact (reportOperands_sound closed a .nothing _).tame

/-! ### Control -/

private theorem body_sound : s.body.Sound st Outcome.Kept :=
  runBody_sound sound s.file closed placed.node

private theorem holds_sound (text : Text) : (s.holds text).Sound st fun _ _ => True := by
  refine (condition_sound sound text closed placed.scope).bind ?_
  intro v later closed _ _
  exact Sound.getStore_bind (Sound.pure closed trivial)

private theorem ifTrue_sound : s.ifTrue.Sound st Outcome.Kept := by
  unfold ifTrue
  refine Sound.after_silent closed (Silent.nth _ _) fun text => ?_
  refine (holds_sound sound closed placed text).bind ?_
  intro holds later closed grows _
  split
  · exact body_sound sound closed (placed.mono grows)
  · exact done_sound closed

private theorem repeatTimes_sound : s.repeatTimes.Sound st Outcome.Kept := by
  unfold repeatTimes
  refine Sound.after_silent closed (Silent.nth _ _) fun text => ?_
  refine (valueOf_sound sound closed placed text).bind ?_
  intro v later closed grows _
  refine Sound.ofExcept_bind fun times _ => loopTimes_sound _ closed fun last closed further => ?_
  exact body_sound sound closed ((placed.mono grows).mono further)

private theorem whileTrue_sound : s.whileTrue.Sound st Outcome.Kept := by
  unfold whileTrue
  refine loopWhile_sound _ closed (fun later closed grows => ?_) fun later closed grows => ?_
  · refine Sound.after_silent closed (Silent.nth _ _) fun text => ?_
    exact holds_sound sound closed (placed.mono grows) text
  · exact body_sound sound closed (placed.mono grows)

omit sound closed placed in
theorem definedName_silent : s.definedName.Silent := (Silent.nth _ _).bind fun _ => Silent.pure _

private theorem defFunction_sound : s.defFunction.Sound st Outcome.Kept := by
  unfold defFunction
  refine Sound.after_silent closed definedName_silent fun name => ?_
  have known : st.HasAll (Item.bare (.node s.node)).cells :=
    fun c member => List.mem_singleton.mp member ▸ placed.node
  exact then_done_sound (declareGlobal_sound sound name closed placed.scope known)

omit sound placed in
private theorem closed_sealing (target : Ref .scope) (isSealed : Bool) :
    (st.updateScope target fun x => { x with isSealed }).Closed :=
  closed.updateScope target _ fun held => closed.scopes target held

/-- The last part of a definition: the class is made and declared. -/
private theorem declareClass_sound (name : Text) {made : Record} (known : st.HasAll made.cells) :
    (do
      let r ← Run.alloc (·.newRecord made)
      Run.changeStore (·.updateScope s.scope fun x => { x with isSealed := false })
      declareGlobal s.ev s.scope name (.bare (.record r))
      return .done : Run Outcome).Sound st Outcome.Kept := by
  have grows := (st.extends_newRecord made).grows
  have closedMade := closed.newRecord known
  have fresh : (st.newRecord made).2.Has (st.newRecord made).1.cell := Arena.holds_alloc_fresh _ _
  refine Sound.alloc_bind grows closedMade (fun described => described.newRecord closed made) ?_
  have unsealing := (st.newRecord made).2.grows_updateScope s.scope fun x =>
    { x with isSealed := false }
  have closedUnsealed := closed_sealing closedMade s.scope false
  refine Sound.changeStore_bind unsealing closedUnsealed
    (fun described => described.updateScope _ _ fun _ => rfl) ?_
  refine then_done_sound (declareGlobal_sound sound name closedUnsealed
    ((placed.mono grows).mono unsealing).scope ?_)
  exact fun c member => List.mem_singleton.mp member ▸ fresh.mono unsealing

private theorem defClass_sound : s.defClass.Sound st Outcome.Kept := by
  unfold defClass
  refine Sound.after_silent closed definedName_silent fun name => ?_
  have sealing := st.grows_updateScope s.scope fun x => { x with isSealed := true }
  have closedSealed := closed_sealing closed s.scope true
  refine Sound.changeStore_bind sealing closedSealed
    (fun described => described.updateScope _ _ fun _ => rfl) ?_
  refine (body_sound sound closedSealed (placed.mono sealing)).bind ?_
  intro _ middle closed grows _
  have here := (placed.mono sealing).mono grows
  refine Sound.getStore_bind (declareClass_sound sound closed here name ?_)
  refine Store.hasAll_append.mpr ⟨?_, middle.hasAll_nil⟩
  exact Store.hasAll_cons.mpr ⟨closed.table here.scope,
    Store.hasAll_cons.mpr ⟨here.node, middle.hasAll_nil⟩⟩

private theorem returnValue_sound : s.returnValue.Sound st Outcome.Kept := by
  refine (valueOf_sound sound closed placed _).bind ?_
  intro v later closed _ known
  exact Sound.pure closed known

private theorem passArguments_sound {callee : Ref .scope} (arguments names : List Text)
    (target : st.Has callee.cell) :
    (s.passArguments callee arguments names).Sound st fun _ _ => True := by
  induction arguments generalizing st names with
  | nil => exact Sound.pure closed trivial
  | cons argument rest ih =>
    rw [passArguments]
    refine (valueOf_sound sound closed placed argument).bind ?_
    intro v middle closed grows known
    have item : middle.HasAll (Item.bare v).cells := known
    cases names with
    | nil => exact Sound.throw _
    | cons name names =>
      refine (declare_sound sound name closed (target.mono grows) item).bind ?_
      intro _ later closed further _
      exact ih closed ((placed.mono grows).mono further) names ((target.mono grows).mono further)

private theorem callAlone_sound {x : Variable} (known : st.HasAll x.content.cells) :
    (do
      let .node callee ← x.read | throw .missingPart
      let node := (← Run.getStore).node callee
      let names ← parameters node.command
      s.passArguments node.scope s.callArguments names
      let _ ← runBody s.ev callee s.file
      return .done : Run Outcome).Sound st Outcome.Kept := by
  refine (read_sound closed known).bind ?_
  rintro v _ _ _ ⟨rfl, known, _⟩
  split
  · next callee =>
    have called := known _ (List.mem_singleton.mpr rfl)
    refine Sound.getStore_bind (Sound.after_silent closed (parameters_silent _) fun names => ?_)
    refine (passArguments_sound sound closed placed _ names (closed.nodeScope called)).bind ?_
    intro _ last closed further _
    refine (runBody_sound sound s.file closed (called.mono further)).bind ?_
    intro _ _ closed _ _
    exact done_sound closed
  · exact Sound.throw _

private theorem callOrAssign_tame (first : Text) : (s.callOrAssign first).Tame st Outcome.Kept := by
  refine (variableOf_sound sound closed placed _).tame.bind ?_
  intro r later closed grows held
  have here := placed.mono grows
  refine Tame.getStore_bind ?_
  dsimp only
  split
  · exact (callAlone_sound sound closed here (closed.content held.1)).tame
  · refine (valueOf_sound sound closed here _).tame.bind ?_
    intro v last closed further known
    exact then_done_tame (store_tame sound closed (here.mono further) first known)

def Calls (s : Site) (st : Store) : Prop :=
  ∀ first, s.command.whole[0]? = some first → st.isVisible s.scope (first.before '(') = true →
    ∀ w r later, w.store = st → (s.variableOf (first.before '(')).exec w = (.ok r, later) →
      (later.store.var r).tag = .function

private theorem callOrAssign_sound (first : Text)
    (calls : ∀ w r later, w.store = st → (s.variableOf (first.before '(')).exec w = (.ok r, later) →
      (later.store.var r).tag = .function) :
    (s.callOrAssign first).Sound st Outcome.Kept := by
  have found : (s.variableOf (first.before '(')).Sound st fun r later =>
      (later.Has r.cell ∧ later.Binds r) ∧ (later.var r).tag = .function :=
        (variableOf_sound sound closed placed _).and calls
  refine found.bind ?_
  rintro r later closed grows ⟨held, function⟩
  refine Sound.getStore_bind ?_
  dsimp only
  rw [if_pos function]
  exact callAlone_sound sound closed (placed.mono grows) (closed.content held.1)

private theorem echo_sound : s.echo.Sound st Outcome.Kept := by
  unfold echo
  dsimp only
  refine (shownAll_sound sound closed placed _).bind ?_
  intro texts later closed _ _
  split
  · exact Sound.after_silent closed (Silent.print _) fun _ => done_sound closed
  · exact done_sound closed

private theorem other_tame : s.other.Tame st Outcome.Kept := by
  refine Tame.getStore_bind (Tame.after_silent closed (Silent.nth _ _) fun first => ?_)
  split
  · exact callOrAssign_tame sound closed placed first
  · split
    · exact (echo_sound sound closed placed).tame
    · exact (body_sound sound closed placed).tame

private theorem other_sound (calls : s.Calls st) : s.other.Sound st Outcome.Kept := by
  have begins : (Run.nth s.command.whole 0).Sound st fun first later => later = st ∧
      s.command.whole[0]? = some first := by
    refine (Sound.silent closed (Silent.nth _ _)).and fun w first later _ ok => ?_
    unfold Run.nth at ok
    split at ok
    · next found =>
      cases ok
      exact found
    · cases ok
  refine Sound.getStore_bind (begins.bind ?_)
  rintro first _ closed _ ⟨rfl, found⟩
  split
  · next visible => exact callOrAssign_sound sound closed placed first (calls first found visible)
  · split
    · exact echo_sound sound closed placed
    · exact body_sound sound closed placed

/-! ### Files -/

private theorem importFile_sound : s.importFile.Sound st Outcome.Kept := by
  unfold importFile
  refine Sound.after_silent closed (Silent.nth _ _) fun name =>
    Sound.after_silent closed Silent.get fun w => ?_
  refine Sound.ofExcept_bind fun path _ =>
    Sound.after_silent closed (Silent.readFile path) fun source => ?_
  refine (load_sound _ false source closed placed.scope).bind ?_
  intro program later closed _ held
  refine (sound.run path closed held).bind ?_
  intro _ _ closed _ _
  exact done_sound closed

omit sound closed placed in
theorem innerText_silent (v : Value) : (innerText v).Silent := by
  cases v <;> first | exact Silent.pure _ | exact Silent.throw _

omit sound closed placed in
theorem textOf_silent (t : Option Text) : (textOf t).Silent := by
  cases t with
  | none => exact Silent.throw _
  | some t => exact Silent.pure t

private theorem useFile_sound : s.useFile.Sound st Outcome.Kept := by
  unfold useFile
  refine Sound.after_silent closed (Silent.nth _ _) fun action => ?_
  dsimp only
  split
  · refine Sound.after_silent closed (Silent.nth _ _) fun source => ?_
    refine (valueOf_sound sound closed placed source).bind ?_
    intro v later closed grows _
    refine Sound.after_silent closed (innerText_silent v) fun path => ?_
    refine Sound.after_silent closed (Silent.nth _ _) fun name => ?_
    refine Sound.after_silent closed (textOf_silent path) fun path => ?_
    refine Sound.after_silent closed (Silent.readFile path) fun content => ?_
    exact then_done_sound (declare_sound sound name closed (placed.mono grows).scope
      (Store.hasAll_nil later))
  · split
    · refine Sound.after_silent closed (Silent.nth _ _) fun target => ?_
      refine (valueOf_sound sound closed placed target).bind ?_
      intro v middle closed grows _
      refine Sound.after_silent closed (innerText_silent v) fun path => ?_
      refine Sound.after_silent closed (Silent.nth _ _) fun source => ?_
      refine (valueOf_sound sound closed (placed.mono grows) source).bind ?_
      intro u later closed _ _
      refine Sound.after_silent closed (innerText_silent u) fun content => ?_
      refine Sound.after_silent closed (textOf_silent path) fun path => ?_
      refine Sound.after_silent closed (Silent.writeFile _ _) fun _ => ?_
      exact Sound.after_silent closed (textOf_silent content) fun _ => done_sound closed
    · exact done_sound closed

/-! ### The screen -/

omit sound closed placed in
theorem request_silent (ask : Request) : (s.request ask).Silent := by
  intro w
  exact Silent.ofExcept (w.runtime.screen (s.scene w) ask) { w with requests := ask :: w.requests }

omit sound placed in
private theorem discard_request_tame (ask : Request) :
    (discard (s.request ask)).Tame st fun _ _ => True := by
  refine (Tame.silent closed ?_).mono fun _ _ _ _ => trivial
  exact (request_silent ask).bind fun _ => Silent.pure ()

omit sound in
private theorem shareRecord_tame : s.shareRecord.Tame st fun r later => later.Has r.cell := by
  refine Tame.getStore_bind ?_
  split
  · next r bound =>
    have outermost := closed.table (closed.ancestors placed.scope (Store.root_mem_ancestors _))
    have held := closed.bound outermost (Table.mem_of_find? bound)
    refine Tame.ofExcept closed fun record given => ?_
    exact closed.content held _ (Screen.mem_of_sharedRecord given)
  · let made := st.newRecord { body := none }
    have closedMade : made.2.Closed := closed.newRecord st.hasAll_nil
    have fresh : made.2.Has made.1.cell := Arena.holds_alloc_fresh _ _
    refine Tame.alloc_bind (st.extends_newRecord _).grows closedMade ?_
    have bound := made.2.grows_bindName (st.root s.scope) sharedName (Screen.sharedVariable made.1)
    have closedBound :
        (made.2.bindName (st.root s.scope) sharedName (Screen.sharedVariable made.1)).Closed :=
      closedMade.bindName fun c member => List.mem_singleton.mp member ▸ fresh
    exact Tame.changeStore_bind bound closedBound (Tame.pure closedBound (fresh.mono bound))

omit sound in
private theorem startScreen_tame : s.startScreen.Tame st fun _ _ => True := by
  refine Tame.after_silent closed (request_silent _) fun _ =>
    (shareRecord_tame closed placed).bind ?_
  intro shared later closed _ held
  let made := later.newRecord { body := none }
  have closedMade : made.2.Closed := closed.newRecord later.hasAll_nil
  have fresh : made.2.Has made.1.cell := Arena.holds_alloc_fresh _ _
  refine Tame.alloc_bind (later.extends_newRecord _).grows closedMade ?_
  refine Tame.changeStore (Store.grows_updateRecord _ _ _) (closedMade.put shared _ ?_) trivial
  exact fun c member => List.mem_singleton.mp member ▸ fresh

omit sound placed in
private theorem keep_tame (key : Key) {v : Value} (known : st.HasAll v.cells) :
    (s.keep key v).Tame st fun _ _ => True := by
  have item : st.HasAll (Item.bare v).cells := known
  refine Tame.getStore_bind (Tame.ofExcept_bind fun state _ => ?_)
  exact Tame.changeStore (st.grows_updateRecord state _) (closed.put state key item) trivial

omit sound placed in
private theorem kept_tame (key : Key) :
    (s.kept key).Tame st fun item later => later = st ∧ st.HasAll item.cells := by
  refine Tame.getStore_bind (Tame.ofExcept closed fun item given => ⟨rfl, ?_⟩)
  cases found : Screen.state st s.scope with
  | error fault =>
    rw [found] at given
    cases given
  | ok record =>
    rw [found] at given
    have entry := Screen.mem_of_entry given
    exact closed.entry (Store.has_of_mem_entries entry) entry

private theorem valuesAt_tame (places : List Nat) :
    (s.valuesAt places).Tame st fun _ _ => True := by
  refine (Sound.mapM values_stay places closed fun i later closed grows => ?_).tame.mono
    fun _ _ _ _ => trivial
  exact Sound.after_silent closed (Silent.nth _ _) fun text =>
    valueOf_sound sound closed (placed.mono grows) text

private theorem setMode_tame : s.setMode.Tame st fun _ _ => True := by
  refine Tame.after_silent closed (Silent.nth _ _) fun width => ?_
  refine (valueOf_sound sound closed placed width).tame.bind ?_
  intro a middle closed grows _
  refine Tame.after_silent closed (Silent.nth _ _) fun height => ?_
  refine (valueOf_sound sound closed (placed.mono grows) height).tame.bind ?_
  intro b later closed _ _
  exact Tame.after_silent closed (request_silent _) fun _ => keep_tame closed _ later.hasAll_nil

private theorem setCaption_tame : s.setCaption.Tame st fun _ _ => True := by
  refine (valueOf_sound sound closed placed _).tame.bind ?_
  intro v later closed _ _
  refine Tame.after_silent closed (innerText_silent v) fun caption => ?_
  exact Tame.after_silent closed (textOf_silent caption) fun text => discard_request_tame closed _

private theorem useDisplay_tame : s.useDisplay.Tame st fun _ _ => True := by
  refine Tame.after_silent closed (Silent.nth _ _) fun action => ?_
  split
  · exact discard_request_tame closed _
  · split
    · exact setMode_tame sound closed placed
    · split
      · exact setCaption_tame sound closed placed
      · split
        · exact discard_request_tame closed _
        · exact Tame.pure closed trivial

private theorem drawShape_tame : s.drawShape.Tame st fun _ _ => True := by
  refine Tame.after_silent closed (Silent.nth _ _) fun shape => ?_
  split
  · refine (valuesAt_tame sound closed placed _).bind ?_
    intro color middle closed grows _
    refine (valuesAt_tame sound closed (placed.mono grows) _).bind ?_
    intro box later closed _ _
    refine (kept_tame closed _).bind ?_
    rintro _ _ closed _ ⟨rfl, _⟩
    exact discard_request_tame closed _
  · exact Tame.pure closed trivial

private theorem takeEvents_tame : s.takeEvents.Tame st fun _ _ => True := by
  refine Tame.after_silent closed (request_silent _) fun events => ?_
  refine (Sound.mapM values_stay events closed fun event later closed _ => ?_).tame.bind ?_
  · exact listOf_sound closed fun v member => Screen.cells_eventValues member ▸ later.hasAll_nil
  · intro rows middle closed grows known
    refine (listOf_sound closed known).tame.bind ?_
    intro row later closed further known
    refine (keep_tame closed Screen.eventsKey known).bind ?_
    intro _ last closed more _
    refine Tame.ofExcept_bind fun count _ =>
      Tame.after_silent closed (Silent.nth _ _) fun name => ?_
    exact store_tame sound closed (((placed.mono grows).mono further).mono more) name
      last.hasAll_nil

private theorem pollEvent_tame : s.pollEvent.Tame st fun _ _ => True := by
  refine (kept_tame closed _).bind ?_
  rintro _ st closed _ ⟨rfl, -⟩
  refine Tame.ofExcept_bind fun row _ =>
    Tame.getStore_bind (Tame.nth_bind fun _ _ => Tame.ofExcept_bind fun event _ => ?_)
  have parts : ∀ item ∈ (st.list event).toList, st.HasAll item.cells :=
    fun item member => closed.item (Store.has_of_mem_list member) member
  have grows := st.grows_updateList row (·.toList.tail.toArray)
  refine Tame.changeStore_bind grows (closed.dropFirst row) ?_
  refine Tame.after_silent (closed.dropFirst row) (Silent.nth _ _) fun name =>
    Tame.nth_bind fun kind first => ?_
  refine (storeItem_tame sound (closed.dropFirst row) (placed.mono grows) name
    ((parts kind first).mono grows)).bind ?_
  intro _ later closedLater further _
  have grown := grows.trans further
  refine Tame.after_silent closedLater (Silent.nth _ _) fun name =>
    Tame.nth_bind fun key second => ?_
  exact storeItem_tame sound closedLater (placed.mono grown) name ((parts key second).mono grown)

private theorem useEvents_tame : s.useEvents.Tame st fun _ _ => True := by
  refine Tame.after_silent closed (Silent.nth _ _) fun action => ?_
  split
  · exact takeEvents_tame sound closed placed
  · split
    · exact pollEvent_tame sound closed placed
    · exact Tame.pure closed trivial

private theorem useScreen_tame : s.useScreen.Tame st fun _ _ => True := by
  refine Tame.after_silent closed (Silent.nth _ _) fun action => ?_
  split
  · exact startScreen_tame closed placed
  · split
    · exact discard_request_tame closed _
    · split
      · exact useDisplay_tame sound closed placed
      · split
        · exact drawShape_tame sound closed placed
        · split
          · exact useEvents_tame sound closed placed
          · exact Tame.pure closed trivial

private theorem screen_tame : s.screen.Tame st Outcome.Kept :=
  Tame.after_silent closed (request_silent _) fun _ =>
    then_done_tame (useScreen_tame sound closed placed)

/-! ### Statements -/

private theorem runVerb_sound {verb : Verb} (calm : verb.rewrites = false) :
    (s.runVerb verb).Sound st Outcome.Kept := by
  cases verb with
  | print => exact print_sound sound closed placed
  | putchar => exact putchar_sound sound closed placed
  | breakOff => exact Sound.pure closed (Store.hasAll_nil st)
  | ifTrue => exact ifTrue_sound sound closed placed
  | repeatTimes => exact repeatTimes_sound sound closed placed
  | whileTrue => exact whileTrue_sound sound closed placed
  | defFunction => exact defFunction_sound sound closed placed
  | defClass => exact defClass_sound sound closed placed
  | append => exact append_sound sound closed placed
  | tagOf => exact tagOf_sound sound closed placed
  | importFile => exact importFile_sound sound closed placed
  | returnValue => exact returnValue_sound sound closed placed
  | file => exact useFile_sound sound closed placed
  | random => exact random_sound sound closed placed
  | var | length | array | add | arithmetic | wave | formula | convert | screen => cases calm

private theorem runVerb_tame (verb : Verb) : (s.runVerb verb).Tame st Outcome.Kept := by
  cases rewrites : verb.rewrites with
  | false => exact (runVerb_sound sound closed placed rewrites).tame
  | true =>
    cases verb with
    | var => exact var_tame sound closed placed
    | length => exact length_tame sound closed placed
    | array => exact array_tame sound closed placed
    | add => exact add_tame sound closed placed
    | arithmetic op => exact arithmetic_tame sound closed placed op
    | wave w => exact wave_tame sound closed placed w
    | formula => exact formula_tame sound closed placed
    | convert => exact convert_tame sound closed placed
    | screen => exact screen_tame sound closed placed
    | _ => cases rewrites

end Site

def Site.ofNode (ev : Evaluator) (st : Store) (node : Ref .node) (file : Text) : Site :=
  { ev, node, scope := (st.node node).scope, file, command := Command.of (st.node node).command }

theorem runStep_tame {ev : Evaluator} (sound : ev.Sound) {node : Ref .node} (file : Text)
    (closed : st.Closed) (inside : st.Has node.cell) :
    (runStep ev node file).Tame st Outcome.Kept := by
  refine Tame.getStore_bind ?_
  dsimp only
  split
  · exact Site.runVerb_tame sound closed ⟨closed.nodeScope inside, inside⟩ _
  · exact Site.other_tame sound closed ⟨closed.nodeScope inside, inside⟩

def Site.IsCalm (s : Site) (st : Store) : Prop :=
  match s.command.verb? with
  | some verb => verb.rewrites = false
  | none => s.Calls st

theorem runStep_sound {ev : Evaluator} (sound : ev.Sound) {node : Ref .node} (file : Text)
    (closed : st.Closed) (inside : st.Has node.cell)
    (calm : (Site.ofNode ev st node file).IsCalm st) :
    (runStep ev node file).Sound st Outcome.Kept := by
  have placed : (Site.ofNode ev st node file).In st := ⟨closed.nodeScope inside, inside⟩
  refine Sound.getStore_bind ?_
  -- The site is named, since the split of `calm` has to be a split of the command that is run.
  change Sound st (match (Site.ofNode ev st node file).command.verb? with
    | some verb => (Site.ofNode ev st node file).runVerb verb
    | none => (Site.ofNode ev st node file).other) _
  unfold Site.IsCalm at calm
  split at calm
  · exact Site.runVerb_sound sound closed placed calm
  · exact Site.other_sound sound closed placed calm

end CommandScript

import CommandScript.Proofs.Upkeep

/-! Evaluation is sound. Under the assumption that the evaluator for what is nested answers its
three questions soundly, so does the evaluator one level above it. -/
namespace CommandScript

def Value.NotBare (v : Value) : Prop := ∀ s, v = .text s → Spelled.isQuoted s = true

namespace Variable

variable {st : Store} {x : Variable} {v : Value}

theorem reading_cells (known : st.HasAll x.content.cells) (given : x.reading = .ok v) :
    st.HasAll v.cells := by
  unfold reading at given
  split at given
  · split at given
    · cases given
      exact Store.hasAll_nil st
    · cases given
  · cases given
    exact known

private theorem reading_notBare (plain : x.tag = .text ∨ x.content.NotBare)
    (given : x.reading = .ok v) : v.NotBare := by
  unfold reading at given
  split at given
  · split at given
    · cases given
      intro s same
      cases same
      exact Spelled.isQuoted_encloseSingle _
    · cases given
  · next untagged =>
    cases given
    exact plain.resolve_left untagged

theorem Described.plain (described : x.Described st) : x.tag = .text ∨ x.content.NotBare := by
  by_cases tag : x.tag = .text
  · exact .inl tag
  · refine .inr fun s content => absurd described.tag ?_
    rw [content]
    cases named : x.tag <;> first | exact absurd named tag | exact Bool.false_ne_true

end Variable

/-- What a variable made for a value is: its references are in the store, and under a described
store it reads as a value and is described itself, if it was made strictly and for a value. -/
structure Bound (lenient : Bool) (v : Value) (x : Variable) (st : Store) : Prop where
  cells : st.HasAll x.cells
  plain : st.Described → x.tag = .text ∨ x.content.NotBare
  fits : st.Described → lenient = false → v.NotBare → x.Described st

theorem Bound.content {lenient : Bool} {v : Value} {x : Variable} {st : Store}
    (bound : Bound lenient v x st) :
    st.HasAll x.content.cells := (Store.hasAll_append.mp (Store.hasAll_append.mp bound.cells).1).2

structure Evaluator.Sound (ev : Evaluator) : Prop where
  bind {st : Store} {home : Option (Ref .scope)} (name : Text) (lenient : Bool) {v : Value}
  (closed : st.Closed)
    (inside : ∀ h, home = some h → st.Has h.cell) (known : st.HasAll v.cells) :
    (ev.bind home name lenient v).Sound st (Bound lenient v)
  valueOf {st : Store} {scope : Ref .scope} (text : Text) (closed : st.Closed)
  (inside : st.Has scope.cell) :
    (ev.valueOf scope text).Sound st fun v later => later.HasAll v.cells
  run {st : Store} {node : Ref .node} (file : Text) (closed : st.Closed)
  (inside : st.Has node.cell) :
    (ev.run node file).Sound st fun outcome later => later.HasAll outcome.value.cells

open Run (Sound Tame Silent)

variable {ev : Evaluator} {st : Store} {scope : Ref .scope}

theorem read_sound {x : Variable} (closed : st.Closed) (known : st.HasAll x.content.cells) :
    x.read.Sound st fun v later => st = later ∧ st.HasAll v.cells ∧
    (x.tag = .text ∨ x.content.NotBare → v.NotBare) :=
  Sound.reads closed (fun w _ => x.exec_read w) fun _ given =>
    ⟨rfl, Variable.reading_cells known given, fun plain => Variable.reading_notBare plain given⟩

private theorem readItem_reads {item : Item} (closed : st.Closed) (known : st.HasAll item.cells) :
    (readItem item).Sound st fun v later => st = later ∧ st.HasAll v.cells := by
  cases item with
  | bare v => exact Sound.pure closed ⟨rfl, known⟩
  | held r =>
    refine Sound.reads closed (fun w same => by rw [readItem, Run.exec_readVariable, same])
      fun v given => ⟨rfl, ?_⟩
    exact Variable.reading_cells (closed.content (known _ (List.mem_singleton.mpr rfl))) given

private theorem expandValue_sound {v : Value} (closed : st.Closed) (known : st.HasAll v.cells) :
    (Literal.expandValue v).Sound st fun u later => st = later ∧ st.HasAll u.cells := by
  cases v with
  | text s =>
    refine Sound.after_silent closed ?_ fun _ => Sound.pure closed ⟨rfl, Store.hasAll_nil st⟩
    exact Silent.expand s
  | _ => exact Sound.pure closed ⟨rfl, known⟩

theorem evaluate_sound (sound : ev.Sound) {home : Option (Ref .scope)} {item : Item}
    (closed : st.Closed) (inside : ∀ h, home = some h → st.Has h.cell)
    (known : st.HasAll item.cells) :
    (evaluate ev home item).Sound st fun v later => later.HasAll v.cells ∧
    (later.Described → v.NotBare) := by
  rw [evaluate_eq]
  refine (readItem_reads closed known).bind ?_
  rintro v _ _ _ ⟨rfl, known⟩
  refine (expandValue_sound closed known).bind ?_
  rintro u _ _ _ ⟨rfl, known⟩
  refine (sound.bind nameless true closed inside known).bind ?_
  intro x later closed _ bound
  refine (read_sound closed bound.content).mono ?_
  rintro v _ _ ⟨rfl, inside, quoted⟩
  exact ⟨inside, fun described => quoted (bound.plain described)⟩

/-! ### Names -/

def Meaning (item : Item) (st : Store) : Prop :=
  st.HasAll item.cells ∧ ∀ r, item = .held r → st.Binds r

private theorem literal_sound (sound : ev.Sound) (name : Text) (closed : st.Closed)
    (inside : st.Has scope.cell) :
    (do return Item.bare (← evaluate ev (some (st.root scope)) (.bare (.text name))) : Run
      Item).Sound st Meaning := by
  have known : st.HasAll (Item.bare (.text name)).cells := Store.hasAll_nil st
  refine (evaluate_sound sound closed ?_ known).bind ?_
  · intro h same
    exact Option.some.inj same ▸ closed.ancestors inside (Store.root_mem_ancestors scope)
  · intro v later closed _ given
    exact Sound.pure closed ⟨given.1, fun _ same => nomatch same⟩

private theorem lookupFrom_sound (sound : ev.Sound) (rest : List Text) (name : Text)
    (closed : st.Closed) (inside : st.Has scope.cell) :
    (lookupFrom ev scope name rest).Sound st Meaning := by
  induction rest generalizing scope name with
  | nil =>
    refine Sound.getStore_bind ?_
    split
    · next owner r found =>
      have held := (closed.resolve inside found).2
      refine Sound.pure closed ⟨fun c member => List.mem_singleton.mp member ▸ held, ?_⟩
      intro q same
      cases same
      exact .of_resolve closed inside found
    · exact literal_sound sound name closed inside
  | cons member rest ih =>
    refine Sound.getStore_bind ?_
    split
    · next owner r found =>
      have held := (closed.resolve inside found).2
      split
      · next members known => exact ih member (closed.members held known)
      · exact Sound.throw _
    · exact literal_sound sound name closed inside

theorem lookup_sound (sound : ev.Sound) (name : Text) (closed : st.Closed)
    (inside : st.Has scope.cell) : (lookup ev scope name).Sound st Meaning := by
  unfold lookup
  split
  · exact lookupFrom_sound sound _ _ closed inside
  · exact Sound.throw _

theorem lookup_held_sound (sound : ev.Sound) (name : Text) (closed : st.Closed)
    (inside : st.Has scope.cell) :
    (do heldItem (← lookup ev scope name) : Run (Ref .variable)).Sound st fun r later =>
      later.Has r.cell ∧ later.Binds r := by
  refine (lookup_sound sound name closed inside).bind ?_
  intro item later closed _ meaning
  have looks : ∀ w, w.store = later → (heldItem item).exec w = (match item with
      | .held r => .ok r
      | .bare _ => .error .missingPart, w) := by
    intro w _
    cases item <;> rfl
  refine Sound.reads closed looks ?_
  intro r known
  cases item with
  | bare v => cases known
  | held q =>
    cases known
    exact ⟨meaning.1 _ (List.mem_singleton.mpr rfl), meaning.2 r rfl⟩

private theorem namedValue_sound (sound : ev.Sound) (name : Text) (closed : st.Closed)
    (inside : st.Has scope.cell) :
    (do readVariable (← heldItem (← lookup ev scope name)) : Run Value).Sound st fun v later =>
      later.HasAll v.cells ∧ (later.Described → v.NotBare) := by
  refine (lookup_sound sound name closed inside).bind ?_
  intro item later closed _ meaning
  refine Sound.heldItem_bind fun r same => ?_
  subst same
  have held := meaning.1 _ (List.mem_singleton.mpr rfl)
  refine Sound.reads closed (fun w same => by rw [Run.exec_readVariable, same]) fun v given =>
    ⟨?_, fun described => ?_⟩
  · exact Variable.reading_cells (closed.content held) given
  · exact Variable.reading_notBare (described.var (meaning.2 r rfl)).plain given

/-! ### Declarations -/

theorem someHome (inside : st.Has scope.cell) : ∀ h, some scope = some h → st.Has h.cell :=
  fun _ same => Option.some.inj same ▸ inside

private theorem declareValue_tame (sound : ev.Sound) (name : Text) {v : Value}
    (closed : st.Closed) (inside : st.Has scope.cell) (known : st.HasAll v.cells) :
    (do
      let x ← ev.bind (some scope) name false v
      Run.changeStore (·.bindName scope name x) : Run Unit).Tame st fun _ _ => True := by
  refine (sound.bind name false closed (someHome inside) known).tame.bind ?_
  intro x later closed _ bound
  exact Tame.changeStore (later.grows_bindName scope name x) (closed.bindName bound.cells) trivial

private theorem declareValue_sound (sound : ev.Sound) (name : Text) {v : Value}
    (closed : st.Closed) (inside : st.Has scope.cell) (known : st.HasAll v.cells)
    (quoted : v.NotBare) :
    (do
      let x ← ev.bind (some scope) name false v
      Run.changeStore (·.bindName scope name x) : Run Unit).Sound st fun _ _ => True := by
  refine (sound.bind name false closed (someHome inside) known).bind ?_
  intro x later closed grows bound
  refine Sound.changeStore (later.grows_bindName scope name x)
    (closed.bindName bound.cells) ?_ trivial
  intro described
  exact described.bindName closed (inside.mono grows) bound.cells (bound.fits described rfl quoted)

private theorem declareFrom_sound (sound : ev.Sound) (rest : List Text) (name : Text)
    {item : Item} (closed : st.Closed) (inside : st.Has scope.cell) (known : st.HasAll item.cells) :
    (declareFrom ev scope name item rest).Sound st fun _ _ => True := by
  induction rest generalizing st scope name with
  | nil =>
    -- That the value has its quotes is known only of a described store.
    refine (evaluate_sound sound closed (someHome inside) known).bind_described ?_ ?_
    · intro v later closed grows given
      exact declareValue_tame sound name closed (inside.mono grows) given.1
    · intro v later closed grows given described
      exact declareValue_sound sound name closed (inside.mono grows) given.1 (given.2 described)
  | cons member rest ih =>
    refine (lookupFrom_sound sound [] name closed inside).bind ?_
    intro meant middle closed grows meaning
    refine Sound.heldItem_bind fun r same => Sound.getStore_bind ?_
    have held : middle.Has r.cell := by
      rw [same] at meaning
      exact meaning.1 _ (List.mem_singleton.mpr rfl)
    split
    · next members found => exact ih member closed (closed.members held found) (known.mono grows)
    · exact Sound.throw _

theorem declare_sound (sound : ev.Sound) (name : Text) {item : Item} (closed : st.Closed)
    (inside : st.Has scope.cell) (known : st.HasAll item.cells) :
    (declare ev scope name item).Sound st fun _ _ => True := by
  unfold declare
  split
  · exact declareFrom_sound sound _ _ closed inside known
  · exact Sound.throw _

theorem declareGlobal_sound (sound : ev.Sound) (name : Text) {item : Item} (closed : st.Closed)
    (inside : st.Has scope.cell) (known : st.HasAll item.cells) :
    (declareGlobal ev scope name item).Sound st fun _ _ => True :=
  Sound.getStore_bind (declare_sound sound name closed
    (closed.ancestors inside (Store.globalOf_mem_ancestors scope)) known)

/-! ### Rewriting -/

theorem Store.Closed.setContent (closed : st.Closed) (r : Ref .variable) {v : Value}
    (known : st.HasAll v.cells) :
    (st.updateVariable r fun x => { x with content := v }).Closed := by
  refine closed.updateVariable r _ fun held => ?_
  obtain ⟨both, members⟩ := Store.hasAll_append.mp (closed.vars r held)
  exact Store.hasAll_append.mpr
    ⟨Store.hasAll_append.mpr ⟨(Store.hasAll_append.mp both).1, known⟩, members⟩

private theorem update_tame (sound : ev.Sound) (name : Option Text) {source : Run Item}
    (closed : st.Closed) (inside : st.Has scope.cell)
    (given : source.Tame st fun item later => later.HasAll item.cells) :
    (update ev scope name source).Tame st fun _ _ => True := by
  unfold update
  cases name with
  | none => exact Tame.pure closed trivial
  | some name =>
    refine Tame.getStore_bind ?_
    split
    · exact Tame.pure closed trivial
    · next owner r found =>
      have home := someHome (closed.resolve inside found).1
      refine given.bind ?_
      intro item middle closed grows known
      refine (evaluate_sound sound closed (fun h same => (home h same).mono grows) known).tame.bind
        ?_
      intro v later closed _ value
      refine Tame.changeStore ?_ ?_ trivial
      · split
        · exact later.grows_updateVariable _ _
        · exact .refl _
      · split
        · exact closed.setContent _ value.1
        · exact closed

theorem assignVariable_tame (sound : ev.Sound) {r : Ref .variable} {item : Item}
    (closed : st.Closed) (held : st.Has r.cell) (known : st.HasAll item.cells) :
    (assignVariable ev r item).Tame st fun _ _ => True := by
  refine (readItem_reads closed known).tame.bind ?_
  rintro v _ _ _ ⟨rfl, known⟩
  refine Tame.changeStore_bind (st.grows_updateVariable _ _) (closed.setContent r known)
    (Tame.getStore_bind ?_)
  have grows := st.grows_updateVariable r fun x => { x with content := v }
  have closed := closed.setContent r known
  dsimp only
  split
  · next home found =>
    have inside := closed.home (held.mono grows) found
    refine (sound.bind nameless false closed (someHome inside) (known.mono grows)).tame.bind ?_
    intro y later closed further bound
    refine update_tame sound _ closed (inside.mono further) ?_
    refine (read_sound closed bound.content).tame.bind ?_
    rintro u _ _ _ ⟨rfl, inside, _⟩
    exact Tame.pure closed inside
  · exact Tame.pure closed trivial

theorem mem_cellsOf_set {items : Array Item} {p : Nat} {item : Item} {c : Cell}
    (member : c ∈ Item.cellsOf (items.setIfInBounds p item)) :
    c ∈ Item.cellsOf items ∨ c ∈ item.cells := by
  obtain ⟨i, inside, edge⟩ := List.mem_flatMap.mp member
  rw [Array.toList_setIfInBounds] at inside
  rcases List.mem_or_eq_of_mem_set inside with old | rfl
  · exact .inl (List.mem_flatMap.mpr ⟨i, old, edge⟩)
  · exact .inr edge

private theorem mem_putEntry {key : Key} {item : Item} {entries : List (Key × Item)}
    {e : Key × Item} (member : e ∈ Record.putEntry key item entries) :
    e = (key, item) ∨ e ∈ entries := by
  induction entries with
  | nil => exact .inl (List.mem_singleton.mp member)
  | cons first rest ih =>
    rw [Record.putEntry] at member
    split at member
    · exact (List.mem_cons.mp member).imp_right (List.mem_cons_of_mem _)
    · rcases List.mem_cons.mp member with rfl | later
      · exact .inr List.mem_cons_self
      · exact (ih later).imp_right (List.mem_cons_of_mem _)

theorem Store.Closed.put (closed : st.Closed) (q : Ref .record) (key : Key) {item : Item}
    (known : st.HasAll item.cells) : (st.updateRecord q (·.put key item)).Closed := by
  refine closed.updateRecord q _ fun held c member => ?_
  obtain ⟨body, entries⟩ := hasAll_append.mp (closed.records q held)
  rcases List.mem_append.mp member with inside | inside
  · exact body c inside
  · obtain ⟨e, entry, edge⟩ := List.mem_flatMap.mp inside
    rcases mem_putEntry entry with rfl | old
    · exact known c edge
    · exact entries c (List.mem_flatMap.mpr ⟨e, old, edge⟩)

private theorem putElement_sound {v : Value} (i : Int) {item : Item} (closed : st.Closed)
    (known : st.HasAll item.cells) : (putElement v i item).Sound st fun _ _ => True := by
  unfold putElement
  split
  · next l =>
    refine Sound.getStore_bind ?_
    split
    · next p _ =>
      refine Sound.changeStore (st.grows_updateList l _)
        (closed.updateList l _ fun held c member => ?_)
        (fun described => described.updateList l _) trivial
      rcases mem_cellsOf_set member with old | new
      · exact closed.lists l held c old
      · exact known c new
    · exact Sound.throw _
  · next q =>
    exact Sound.changeStore (st.grows_updateRecord q _) (closed.put q _ known)
      (fun described => described.updateRecord q _ fun _ => rfl) trivial
  · exact Sound.throw _

private theorem setElement_tame (sound : ev.Sound) {r : Ref .variable} (index : Value)
    {item : Item} (closed : st.Closed) (held : st.Has r.cell) (known : st.HasAll item.cells) :
    (setElement ev r index item).Tame st fun _ _ => True := by
  refine Tame.readVariable_bind fun v _ => Tame.ofExcept_bind fun i _ =>
    (putElement_sound i closed known).tame.bind ?_
  intro _ later closed grows _
  have held := held.mono grows
  refine Tame.getStore_bind ?_
  dsimp only
  split
  · next home found =>
    exact update_tame sound _ closed (closed.home held found)
      (Tame.pure closed (closed.content held))
  · exact Tame.pure closed trivial

/-! ### Elements and conditions -/

private theorem elementAt_cells {i : Int} {v : Value} {item : Item} (closed : st.Closed)
    (known : st.HasAll v.cells) (given : elementAt st i v = .ok item) : st.HasAll item.cells := by
  unfold elementAt at given
  split at given
  · split at given
    · cases given
      exact Store.hasAll_nil st
    · cases given
  · next l =>
    split at given
    · next found =>
      cases given
      obtain ⟨p, _, there⟩ := Option.bind_eq_some_iff.mp found
      exact closed.item (known _ (List.mem_singleton.mpr rfl))
        (Array.mem_toList_iff.mpr (Array.mem_of_getElem? there))
    · cases given
  · next q =>
    split at given
    · next found =>
      cases given
      obtain ⟨first, rest, entries, _⟩ := List.lookup_eq_some_iff.mp found
      have member : (Key.int i, item) ∈ (st.record q).entries := by
        rw [entries]
        exact List.mem_append_right _ List.mem_cons_self
      exact closed.entry (known _ (List.mem_singleton.mpr rfl)) member
    · cases given
  · cases given

theorem element_sound {r : Ref .variable} (index : Value) (closed : st.Closed)
    (held : st.Has r.cell) : (element ev r index).Sound st fun v later => later.HasAll v.cells := by
  unfold element
  refine Sound.readVariable_bind fun v given => Sound.ofExcept_bind fun i _ =>
    Sound.getStore_bind ?_
  refine Sound.ofExcept_bind fun n _ => Sound.ofExcept_bind fun i _ =>
    Sound.ofExcept_bind fun item found => ?_
  have known := elementAt_cells closed (Variable.reading_cells (closed.content held) given) found
  refine (readItem_reads closed known).mono ?_
  rintro u _ _ ⟨rfl, inside⟩
  exact inside

theorem condition_sound (sound : ev.Sound) (text : Text) (closed : st.Closed)
    (inside : st.Has scope.cell) :
    (condition ev scope text).Sound st fun v later => later.HasAll v.cells ∧
    (later.Described → v.NotBare) := by
  unfold condition
  split
  · next c _ =>
    dsimp only
    refine Sound.after_silent closed (Silent.nth _ _) fun first => ?_
    refine (sound.valueOf first closed inside).bind ?_
    intro a middle closed grows _
    refine Sound.after_silent closed (Silent.nth _ _) fun second => ?_
    refine (sound.valueOf second closed (inside.mono grows)).bind ?_
    intro b later closed _ _
    refine Sound.getStore_bind (Sound.ofExcept_bind fun result _ =>
      Sound.pure closed ⟨Store.hasAll_nil _, ?_⟩)
    intro _ s same
    cases same
  · refine Sound.getStore_bind ?_
    split
    · exact namedValue_sound sound text closed inside
    · exact Sound.pure closed ⟨Store.hasAll_nil _, fun _ s same => nomatch same⟩

/-! ### The variable that a value makes -/

section Binding

variable {home : Option (Ref .scope)} {lenient : Bool} {v : Value}

private theorem cells_of_home {x : Variable} (inside : ∀ h, home = some h → st.Has h.cell)
    (same : x.home = home) (known : st.HasAll x.content.cells) (alone : x.members = none) :
    st.HasAll x.cells := by
  rw [Variable.cells, same, alone]
  exact Store.hasAll_append.mpr ⟨Store.hasAll_append.mpr ⟨Store.hasAll_option.mpr inside, known⟩,
    Store.hasAll_nil st⟩

/-- A variable that holds no object is what its tag says if the tag names the kind of its content.
-/
private theorem bound_of_tag {x : Variable} (inside : ∀ h, home = some h → st.Has h.cell)
    (same : x.home = home) (known : st.HasAll x.content.cells) (alone : x.members = none)
    (tag : x.tag.describes x.content = true) (object : ∀ q, x.content ≠ .record q) :
    Bound lenient v x st :=
  have described : x.Described st := ⟨tag, fun q _ _ content => absurd content (object q)⟩
  ⟨cells_of_home inside same known alone, fun _ => described.plain, fun _ _ _ => described⟩

/-- The variable made for an object has the scope of the object's statement for the members. -/
private theorem bound_record {x : Variable} {q : Ref .record} (closed : st.Closed)
    (inside : ∀ h, home = some h → st.Has h.cell) (same : x.home = home)
    (content : x.content = .record q) (tag : x.tag = .object) (held : st.Has q.cell)
    (members : x.members = (st.record q).body.map fun body => (st.node body.2).scope) :
    Bound lenient v x st := by
  have described : x.Described st := by
    refine ⟨by rw [tag, content]; rfl, ?_⟩
    intro p table node known body
    cases content.symm.trans known
    rw [members, body]
    rfl
  refine ⟨?_, fun _ => described.plain, fun _ _ _ => described⟩
  rw [Variable.cells, same, content, members]
  have inner : st.HasAll (Value.record q).cells :=
    fun c member => List.mem_singleton.mp member ▸ held
  refine Store.hasAll_append.mpr ⟨Store.hasAll_append.mpr ⟨Store.hasAll_option.mpr inside, inner⟩,
    Store.hasAll_option.mpr ?_⟩
  intro m there
  obtain ⟨⟨table, node⟩, body, rfl⟩ := Option.map_eq_some_iff.mp there
  exact closed.nodeScope (closed.body held body).2

private theorem unknown_sound (name : Option Text) (closed : st.Closed)
    (inside : ∀ h, home = some h → st.Has h.cell) :
    (bindName.unknown ev home lenient name st).Sound st (Bound lenient v) := by
  unfold bindName.unknown
  split
  · next isLenient =>
    refine Sound.pure closed ⟨cells_of_home inside rfl (Store.hasAll_nil st) rfl, ?_, ?_⟩
    · exact fun _ => .inr fun s same => nomatch same
    · intro _ strict
      rw [isLenient] at strict
      cases strict
  · exact Sound.ofExcept_bind fun text _ => Sound.after_silent closed (Silent.print _) fun _ =>
      Sound.throw _

private theorem bindName_sound (sound : ev.Sound) (name : Option Text) (closed : st.Closed)
    (inside : ∀ h, home = some h → st.Has h.cell) (bare : ∀ n, name = some n → ¬ v.NotBare) :
    (bindName ev home lenient name).Sound st (Bound lenient v) := by
  unfold bindName
  split
  · next scope =>
    refine Sound.getStore_bind ?_
    split
    · next n =>
      split
      · refine (lookup_sound sound n closed (inside _ rfl)).bind ?_
        intro item later closed grows meaning
        refine Sound.heldItem_bind fun r same => Sound.getStore_bind ?_
        subst same
        have held := meaning.1 _ (List.mem_singleton.mpr rfl)
        -- The new variable has no members, so that for an object it is not described; but only a
        -- text without quotes is taken for a name.
        refine Sound.pure closed ⟨?_, ?_, fun _ _ value => absurd value (bare n rfl)⟩
        · exact cells_of_home (fun h same => (inside h same).mono grows) rfl
            (closed.content held) rfl
        · exact fun described => (described.var (meaning.2 r rfl)).plain
      · exact unknown_sound _ closed inside
    · exact unknown_sound _ closed inside
  · exact Sound.throw _

private theorem settleAt_sound (sound : ev.Sound) (l : Ref .list) (i : Nat) (closed : st.Closed)
    (inside : ∀ h, home = some h → st.Has h.cell) (held : st.Has l.cell) :
    (settleAt ev home l i).Sound st fun _ _ => True := by
  unfold settleAt
  refine Sound.getStore_bind ?_
  split
  · next v found =>
    have known : st.HasAll v.cells :=
      closed.item held (Array.mem_toList_iff.mpr (Array.mem_of_getElem? found))
    refine (sound.bind nameless false closed inside known).bind ?_
    intro x later closed _ bound
    refine Sound.alloc_bind (later.extends_newVariable x).grows (closed.newVariable bound.cells)
      (fun described => described.newVariable closed x) ?_
    have closed := closed.newVariable bound.cells
    refine Sound.changeStore (Store.grows_updateList _ _ _)
      (closed.updateList _ _ fun held c member => ?_)
      (fun described => described.updateList _ _) trivial
    rcases mem_cellsOf_set member with old | new
    · exact closed.lists _ held c old
    · obtain rfl := List.mem_singleton.mp new
      exact Arena.holds_alloc_fresh later.vars x
  · exact Sound.pure closed trivial

private theorem settle_sound (sound : ev.Sound) (l : Ref .list) (closed : st.Closed)
    (inside : ∀ h, home = some h → st.Has h.cell) (held : st.Has l.cell) :
    (settle ev home l).Sound st fun _ _ => True := by
  refine Sound.getStore_bind (Sound.forM _ closed ?_)
  intro i later closed grows
  exact settleAt_sound sound l i closed (fun h same => (inside h same).mono grows) (held.mono grows)

private theorem bindText_sound (sound : ev.Sound) (name : Text) (s : Text) (closed : st.Closed)
    (inside : ∀ h, home = some h → st.Has h.cell) :
    (bindText ev home name lenient s).Sound st (Bound lenient (.text s)) := by
  unfold bindText
  split
  · exact Sound.pure closed (bound_of_tag inside rfl (Store.hasAll_nil st) rfl rfl fun _ same =>
      nomatch same)
  · next unquoted =>
    have bare : ¬ (Value.text s).NotBare := fun quoted => unquoted (quoted s rfl)
    split
    · exact Sound.pure closed (bound_of_tag inside rfl (Store.hasAll_nil st) rfl rfl fun _ same =>
        nomatch same)
    · split
      · exact Sound.pure closed (bound_of_tag inside rfl (Store.hasAll_nil st) rfl rfl fun _ same =>
          nomatch same)
      · split
        · split
          · next scope =>
            refine (condition_sound sound s closed (inside _ rfl)).bind ?_
            intro v later closed grows given
            refine Sound.pure closed ⟨?_, fun described => .inr (given.2 described),
              fun _ _ quoted => absurd quoted bare⟩
            exact cells_of_home (fun h same => (inside h same).mono grows) rfl given.1 rfl
          · exact Sound.throw _
        · exact bindName_sound sound _ closed inside fun _ _ => bare

theorem bindStep_sound (sound : ev.Sound) (name : Text) (closed : st.Closed)
    (inside : ∀ h, home = some h → st.Has h.cell) (known : st.HasAll v.cells) :
    (bindStep ev home name lenient v).Sound st (Bound lenient v) := by
  unfold bindStep
  split
  · exact bindName_sound sound none closed inside fun _ same => nomatch same
  · exact Sound.pure closed (bound_of_tag inside rfl known rfl rfl fun _ same => nomatch same)
  · exact Sound.pure closed (bound_of_tag inside rfl known rfl rfl fun _ same => nomatch same)
  · exact Sound.pure closed (bound_of_tag inside rfl known rfl rfl fun _ same => nomatch same)
  · exact bindText_sound sound name _ closed inside
  · exact Sound.pure closed (bound_of_tag inside rfl known rfl rfl fun _ same => nomatch same)
  · next q =>
    have held := known _ (List.mem_singleton.mpr rfl)
    exact Sound.getStore_bind (Sound.pure closed (bound_record closed inside rfl rfl rfl held rfl))
  · next l =>
    refine Sound.getStore_bind ?_
    split
    · exact Sound.pure closed (bound_of_tag inside rfl (Store.hasAll_nil st) rfl rfl fun _ same =>
        nomatch same)
    · refine (settle_sound sound l closed inside (known _ (List.mem_singleton.mpr rfl))).bind ?_
      intro _ later closed grows _
      exact Sound.pure closed (bound_of_tag (fun h same => (inside h same).mono grows) rfl
        (known.mono grows) rfl rfl
        fun _ same => nomatch same)

end Binding

/-! ### Assignment -/

theorem bracketed_silent (opening : Char) (text : Text) : (bracketed opening text).Silent :=
  (Silent.nth _ _).bind fun _ => Silent.pure _

theorem assign_tame (sound : ev.Sound) (isGlobal : Bool) (name : Text) {item : Item}
    (closed : st.Closed) (inside : st.Has scope.cell) (known : st.HasAll item.cells) :
    (assign ev scope isGlobal name item).Tame st fun _ _ => True := by
  refine (readItem_reads closed known).tame.bind ?_
  rintro v _ _ _ ⟨rfl, known⟩
  have known : st.HasAll (Item.bare v).cells := known
  refine Tame.getStore_bind ?_
  split
  · refine (lookup_sound sound name closed inside).tame.bind ?_
    intro meant later closed grows meaning
    split
    · exact assignVariable_tame sound closed (meaning.1 _ (List.mem_singleton.mpr rfl))
        (known.mono grows)
    · exact (declare_sound sound name closed (inside.mono grows) (known.mono grows)).tame
    · exact Tame.pure closed trivial
    · exact Tame.throw _
  · split
    · exact Tame.throw _
    · refine (lookup_sound sound _ closed inside).tame.bind ?_
      intro target middle closed grows meaning
      refine Tame.after_silent closed (bracketed_silent _ _) fun text => ?_
      refine (sound.valueOf text closed (inside.mono grows)).tame.bind ?_
      intro index later closed further _
      refine Tame.heldItem_bind fun r same => ?_
      subst same
      have held := meaning.1 _ (List.mem_singleton.mpr rfl)
      exact setElement_tame sound index closed (held.mono further) ((known.mono grows).mono further)
    · split
      · exact (declareGlobal_sound sound name closed inside known).tame
      · exact (declare_sound sound name closed inside known).tame

/-- A name that means nothing yet and names no element is declared. -/
theorem assign_new_sound (sound : ev.Sound) (isGlobal : Bool) {name : Text} {item : Item}
    (closed : st.Closed) (inside : st.Has scope.cell) (known : st.HasAll item.cells)
    (hidden : st.isVisible scope name = false) (whole : name.getLast? ≠ some ']') :
    (assign ev scope isGlobal name item).Sound st fun _ _ => True := by
  refine (readItem_reads closed known).bind ?_
  rintro v _ _ _ ⟨rfl, known⟩
  have known : st.HasAll (Item.bare v).cells := known
  refine Sound.getStore_bind ?_
  rw [hidden, if_neg Bool.false_ne_true]
  split
  · exact Sound.throw _
  · next element => exact absurd element whole
  · split
    · exact declareGlobal_sound sound name closed inside known
    · exact declare_sound sound name closed inside known

/-! ### Calls -/

theorem parameters_silent (command : Text) : (parameters command).Silent :=
  (Silent.nth _ _).bind fun _ => Silent.pure _

private theorem runAll_sound (sound : ev.Sound) (file : Text) (nodes : List (Ref .node))
    (closed : st.Closed) (inside : ∀ n ∈ nodes, st.Has n.cell) :
    (runAll ev file nodes).Sound st fun outcome later => later.HasAll outcome.value.cells := by
  induction nodes generalizing st with
  | nil => exact Sound.pure closed (Store.hasAll_nil st)
  | cons node rest ih =>
    refine (sound.run file closed (inside node List.mem_cons_self)).bind ?_
    intro outcome later closed grows known
    split
    · exact ih closed fun n member => (inside n (List.mem_cons_of_mem _ member)).mono grows
    · exact Sound.pure closed known

theorem runBody_sound (sound : ev.Sound) (file : Text) {node : Ref .node} (closed : st.Closed)
    (inside : st.Has node.cell) :
    (runBody ev node file).Sound st fun outcome later => later.HasAll outcome.value.cells :=
  Sound.getStore_bind (runAll_sound sound file _ closed fun _ member => closed.child inside member)

private theorem bindArguments_sound (sound : ev.Sound) {callee : Ref .scope}
    (pairs : List (Text × Text)) (closed : st.Closed) (inside : st.Has scope.cell)
    (target : st.Has callee.cell) :
    (bindArguments ev scope callee pairs).Sound st fun _ _ => True := by
  induction pairs generalizing st with
  | nil => exact Sound.pure closed trivial
  | cons pair rest ih =>
    refine (sound.valueOf pair.1 closed inside).bind ?_
    intro v middle closed grows known
    have value : middle.HasAll (Item.bare v).cells := known
    refine (declare_sound sound pair.2 closed (target.mono grows) value).bind ?_
    intro _ later closed further _
    exact ih closed ((inside.mono grows).mono further) ((target.mono grows).mono further)

theorem callFunction_sound (sound : ev.Sound) (text : Text) {r : Ref .node} (closed : st.Closed)
    (inside : st.Has scope.cell) (held : st.Has r.cell) :
    (callFunction ev scope text r).Sound st fun v later => later.HasAll v.cells := by
  unfold callFunction
  refine Sound.getStore_bind ?_
  dsimp only
  refine Sound.after_silent closed (parameters_silent _) fun names => ?_
  refine Sound.after_silent closed (bracketed_silent _ _) fun arguments => ?_
  refine (bindArguments_sound sound _ closed inside (closed.nodeScope held)).bind ?_
  intro _ later closed grows _
  refine (runBody_sound sound [] closed (held.mono grows)).bind ?_
  intro outcome last closed _ known
  exact Sound.pure closed known

end CommandScript

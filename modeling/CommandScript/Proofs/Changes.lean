import CommandScript.Proofs.Planting
import CommandScript.Proofs.Stillness
import Mathlib.Logic.Relation

/-! What runs do to a store. Whatever is evaluated or run changes the store by a few kinds of steps
only: it writes to a cell that is there, makes one, copies cells, or plants a program. No step
writes to a statement that is there, so a program is never changed while it runs. -/
namespace CommandScript

/-! ### Copies of any cells -/

namespace Store

variable {old st : Store} {names : Renaming}

private theorem getD_setIfInBounds {α : Type} (xs : Array α) (i j : Nat) (a d : α) :
    (xs.setIfInBounds i a).getD j d = if i = j ∧ j < xs.size then a else xs.getD j d := by
  by_cases bound : j < xs.size
  · simp only [Array.getD, Array.size_setIfInBounds, bound, dif_pos, and_true]
    exact Array.getElem_setIfInBounds bound
  · simp [Array.getD, bound]

structure Scattered (st : Store) (w : Walk) : Prop where
  size : w.seen.size = st.total
  marked : ∀ c ∈ w.met, w.seen.getD (st.place c) true = true
  within : ∀ c ∈ w.met, st.place c < st.total
  apart : w.met.Pairwise fun c d => st.place c ≠ st.place d

private theorem Scattered.meet {w : Walk} (scattered : Scattered st w) {c : Cell}
    (new : w.seen.getD (st.place c) true = false) (deepest : Nat) :
    Scattered st
      { seen := w.seen.setIfInBounds (st.place c) true, met := c :: w.met, deepest } := by
  have bound : st.place c < w.seen.size := by
    by_contra outside
    simp [Array.getD, outside] at new
  refine ⟨?_, ?_, ?_, ?_⟩
  · rw [Array.size_setIfInBounds, scattered.size]
  · intro d met
    rcases List.mem_cons.mp met with rfl | before
    · rw [getD_setIfInBounds, if_pos ⟨rfl, bound⟩]
    · rw [getD_setIfInBounds, scattered.marked d before, ite_self]
  · intro d met
    rcases List.mem_cons.mp met with rfl | before
    · exact scattered.size ▸ bound
    · exact scattered.within d before
  · refine List.pairwise_cons.mpr ⟨?_, scattered.apart⟩
    intro d before same
    rw [same, scattered.marked d before] at new
    cases new

theorem Scattered.walk {w : Walk} (scattered : Scattered st w) (fuel : Nat)
    (stack : List (Cell × Nat)) : Scattered st (st.walk fuel stack w) := by
  induction fuel generalizing stack w with
  | zero => exact scattered
  | succ fuel ih =>
    cases stack with
    | nil => exact scattered
    | cons top rest =>
      rw [Store.walk]
      split
      · exact ih scattered rest
      · next new => exact ih (scattered.meet (Bool.eq_false_iff.mpr new) _) _

private theorem scattered_walkFrom (st : Store) (start : Cell) : Scattered st (st.walkFrom start) :=
  Scattered.walk ⟨Array.size_replicate, by simp, by simp, .nil⟩ _ _

private theorem getD_reserveAll {cells : List Cell} {p : Nat}
    (elsewhere : ∀ c ∈ cells, old.place c ≠ p) :
    (reserveAll old cells (st, names)).2.indices.getD p none = names.indices.getD p none := by
  induction cells generalizing st names with
  | nil => rfl
  | cons c rest ih =>
    have other := elsewhere c List.mem_cons_self
    rw [reserveAll, ih fun d member => elsewhere d (List.mem_cons_of_mem c member),
      getD_setIfInBounds, if_neg (other ·.1)]

/-- Every cell that is to be copied gets a new index, beyond those of the old cells of its kind. -/
theorem reserveAll_new (cells : List Cell) (st : Store) (names : Renaming) (kept : old.Extends st)
    (size : names.indices.size = old.total) (within : ∀ c ∈ cells, old.place c < old.total)
    (apart : cells.Pairwise fun c d => old.place c ≠ old.place d) :
    old.Extends (reserveAll old cells (st, names)).1 ∧
      ∀ c ∈ cells, ¬ old.Has ((reserveAll old cells (st, names)).2.cell old c) := by
  induction cells generalizing st names with
  | nil => exact ⟨kept, nofun⟩
  | cons c rest ih =>
    rw [reserveAll]
    have further := kept.trans (extends_reserve st c.kind)
    obtain ⟨headApart, restApart⟩ := List.pairwise_cons.mp apart
    have resized : (names.indices.setIfInBounds (old.place c) (some (st.reserve c.kind).1)).size =
        old.total := by
      rw [Array.size_setIfInBounds, size]
    obtain ⟨extended, others⟩ :=
      ih _ ⟨names.indices.setIfInBounds (old.place c) (some (st.reserve c.kind).1)⟩ further resized
      (fun d member => within d (List.mem_cons_of_mem c member)) restApart
    refine ⟨extended, fun d member => ?_⟩
    rcases List.mem_cons.mp member with rfl | later
    · have bound : old.place d < names.indices.size := size ▸ within d List.mem_cons_self
      have index : (names.indices.setIfInBounds (old.place d) (some (st.reserve d.kind).1)).getD
        (old.place d) none =
          some (st.count d.kind) := by
        rw [getD_setIfInBounds, if_pos ⟨rfl, bound⟩, reserve_index]
      rw [Renaming.cell, getD_reserveAll fun e there => (headApart e there).symm, index]
      intro held
      exact Nat.lt_irrefl _ (Has.mono held kept.grows)
    · exact others d later

private theorem foldl_fill_kept {cells : List Cell}
    (fresh : ∀ c ∈ cells, ¬ old.Has (names.cell old c)) (kept : old.Extends st) :
    old.Extends (cells.foldl (fill old names) st) := by
  induction cells generalizing st with
  | nil => exact kept
  | cons c rest ih =>
    refine ih (fun d member => fresh d (List.mem_cons_of_mem c member)) ?_
    refine extends_of_content ((nans_foldl_fill old names [c] st).trans kept.nans) fun d has =>
      ⟨?_, ?_⟩
    · have before : st.Has d := has.mono kept.grows
      rwa [Has, count_fill]
    · have other : d ≠ names.cell old c := fun same => fresh c List.mem_cons_self (same ▸ has)
      rw [content_fill_elsewhere old names st other, kept.content has]

/-- A copy leaves all cells as they are, whatever they refer to. -/
theorem extends_clone_of_any (st : Store) (q : Ref .record) : st.Extends (st.clone q).2 := by
  have scattered := scattered_walkFrom st q.cell
  obtain ⟨kept, fresh⟩ :=
    reserveAll_new (st.reach q.cell) st ⟨Array.replicate st.total none⟩ (.refl st)
    Array.size_replicate (fun c member => scattered.within c (List.mem_reverse.mp member))
    (List.pairwise_reverse.mpr (scattered.apart.imp fun other same => other same.symm))
  exact foldl_fill_kept fresh kept

/-! ### Steps -/

inductive Change (st : Store) : Store → Prop where
  | scope (r : Ref .scope) (f : Scope → Scope) : Change st (st.updateScope r f)
  | table (r : Ref .table) (f : Table → Table) : Change st (st.updateTable r f)
  | variable (r : Ref .variable) (f : Variable → Variable) : Change st (st.updateVariable r f)
  | list (r : Ref .list) (f : Array Item → Array Item) : Change st (st.updateList r f)
  | record (r : Ref .record) (f : Record → Record) : Change st (st.updateRecord r f)
  | newVariable (x : Variable) : Change st (st.newVariable x).2
  | newList (items : Array Item) : Change st (st.newList items).2
  | newRecord (x : Record) : Change st (st.newRecord x).2
  | clone (q : Ref .record) : Change st (st.clone q).2
  | plant (scope : Ref .scope) (interactive : Bool) (trees : List Tree) :
      Change st (st.plantProgram scope interactive trees).2

def Becomes : Store → Store → Prop := Relation.ReflTransGen Change

theorem Change.nodes {st later : Store} (change : st.Change later) :
    st.nodes.Extends later.nodes := by
  cases change with
  | clone q => exact (extends_clone_of_any st q).nodes
  | plant scope interactive trees =>
    exact ((extends_plantAll scope interactive trees st).trans (extends_newNode _ _)).nodes
  | _ => exact .refl _

/-- The statements that are there stay as they are. -/
theorem Becomes.nodes {st later : Store} (becomes : st.Becomes later) :
    st.nodes.Extends later.nodes := by
  induction becomes with
  | refl => exact .refl _
  | tail _ change ih => exact ih.trans change.nodes

end Store

/-! ### Runs -/

namespace Run

variable {α β : Type} {x : Run α} {f : α → Run β}

/-- A run changes the store in such steps only, whether it gives a result or fails. -/
def Works (x : Run α) : Prop := ∀ w : World, w.store.Becomes (x.exec w).2.store

theorem Silent.getStore : Run.getStore.Silent := Looks.getStore.silent

theorem Silent.readItem (item : Item) : (CommandScript.readItem item).Silent := by
  cases item with
  | bare v => exact .pure v
  | held r => exact .readVariable r

namespace Works

theorem silent (quiet : x.Silent) : x.Works := by
  intro w
  rw [quiet w]
  exact .refl

theorem pure (a : α) : (Pure.pure a : Run α).Works := silent (.pure a)

theorem throw (e : Fault) : (MonadExcept.throw e : Run α).Works := silent (.throw e)

theorem bind (first : x.Works) (next : ∀ a, (f a).Works) : (x >>= f).Works := by
  intro w
  have before := first w
  rw [exec_bind]
  rcases ran : x.exec w with ⟨fault | a, middle⟩
  · rw [ran] at before
    exact before
  · rw [ran] at before
    exact before.trans (next a middle)

theorem after (quiet : x.Silent) (next : ∀ a, (f a).Works) : (x >>= f).Works :=
  (silent quiet).bind next

/-- What follows leaves the store alone. -/
theorem before (works : x.Works) (quiet : ∀ a, (f a).Silent) : (x >>= f).Works :=
  works.bind fun a => silent (quiet a)

theorem changeStore {change : Store → Store} (steps : ∀ st : Store, st.Becomes (change st)) :
    (Run.changeStore change).Works :=
  fun w => steps w.store

theorem alloc {k : Kind} {make : Store → Ref k × Store}
    (step : ∀ st : Store, st.Change (make st).2) : (Run.alloc make).Works :=
  fun w => .single (step w.store)

theorem forM {f : α → Run PUnit} (xs : List α) (each : ∀ a, (f a).Works) : (xs.forM f).Works := by
  induction xs with
  | nil => exact pure _
  | cons a rest ih => exact (each a).bind fun _ => ih

theorem mapM (xs : List α) (each : ∀ a, (f a).Works) : (xs.mapM f).Works := by
  induction xs with
  | nil => exact pure _
  | cons a rest ih =>
    rw [List.mapM_cons]
    exact (each a).bind fun _ => ih.before fun _ => .pure _

end Works

end Run

open Run (Works Silent)

structure Evaluator.Works (ev : Evaluator) : Prop where
  bind (home : Option (Ref .scope)) (name : Text) (lenient : Bool) (v : Value) :
    (ev.bind home name lenient v).Works
  valueOf (scope : Ref .scope) (text : Text) : (ev.valueOf scope text).Works
  run (r : Ref .node) (file : Text) : (ev.run r file).Works

section Expressions

variable {ev : Evaluator} (works : ev.Works)
include works

private theorem evaluate_works (home : Option (Ref .scope)) (item : Item) :
    (evaluate ev home item).Works := by
  rw [evaluate_eq]
  exact .after (.readItem item) fun v => .after (Literal.expandValue_silent v) fun u =>
    (works.bind home nameless true u).before fun x => .read x

private theorem lookupFrom_works (scope : Ref .scope) (name : Text) (rest : List Text) :
    (lookupFrom ev scope name rest).Works := by
  induction rest generalizing scope name with
  | nil =>
    refine .after .getStore fun st => ?_
    split
    · exact .pure _
    · exact (evaluate_works works _ _).before fun _ => .pure _
  | cons member rest ih =>
    refine .after .getStore fun st => ?_
    split
    · split
      · exact ih _ _
      · exact .throw _
    · exact (evaluate_works works _ _).before fun _ => .pure _

private theorem lookup_works (scope : Ref .scope) (name : Text) : (lookup ev scope name).Works := by
  unfold lookup
  split
  · exact lookupFrom_works works _ _ _
  · exact .throw _

omit works in
private theorem Store.becomes_bindName (st : Store) (scope : Ref .scope) (name : Text)
    (x : Variable) : st.Becomes (st.bindName scope name x) :=
  .tail (.single (.newVariable x)) (.table _ _)

private theorem declareFrom_works (scope : Ref .scope) (name : Text) (item : Item)
    (rest : List Text) : (declareFrom ev scope name item rest).Works := by
  induction rest generalizing scope name with
  | nil =>
    exact (evaluate_works works _ _).bind fun v => (works.bind _ _ _ v).bind fun x =>
      .changeStore fun st => st.becomes_bindName scope name x
  | cons member rest ih =>
    refine (lookupFrom_works works scope name []).bind fun found =>
      .after (.heldItem found) fun r => .after .getStore fun st => ?_
    split
    · exact ih _ _
    · exact .throw _

private theorem declare_works (scope : Ref .scope) (name : Text) (item : Item) :
    (declare ev scope name item).Works := by
  unfold declare
  split
  · exact declareFrom_works works _ _ _ _
  · exact .throw _

private theorem declareGlobal_works (scope : Ref .scope) (name : Text) (item : Item) :
    (declareGlobal ev scope name item).Works :=
  .after .getStore fun _ => declare_works works _ _ _

private theorem update_works (scope : Ref .scope) (name : Option Text) {source : Run Item}
    (silent : source.Silent) : (update ev scope name source).Works := by
  unfold update
  cases name with
  | none => exact .pure _
  | some name =>
    refine .after .getStore fun st => ?_
    split
    · exact .pure _
    · refine .after silent fun item => (evaluate_works works _ _).bind fun v =>
        .changeStore fun st => ?_
      split
      · exact .single (.variable _ _)
      · exact .refl

private theorem assignVariable_works (r : Ref .variable) (item : Item) :
    (assignVariable ev r item).Works := by
  refine .after (.readItem item) fun v =>
    (Works.changeStore fun st => .single (.variable r _)).bind fun _ => ?_
  refine .after .getStore fun st => ?_
  dsimp only
  split
  · exact (works.bind _ _ _ v).bind fun x =>
      update_works works _ _ ((Silent.read x).bind fun _ => .pure _)
  · exact .pure _

omit works in
private theorem putElement_works (v : Value) (i : Int) (item : Item) :
    (putElement v i item).Works := by
  unfold putElement
  split
  · refine .after .getStore fun st => ?_
    split
    · exact .changeStore fun st => .single (.list _ _)
    · exact .throw _
  · exact .changeStore fun st => .single (.record _ _)
  · exact .throw _

private theorem setElement_works (r : Ref .variable) (index : Value) (item : Item) :
    (setElement ev r index item).Works := by
  refine .after (.readVariable r) fun v => .after (.ofExcept _) fun i =>
    (putElement_works v i item).bind fun _ => ?_
  refine .after .getStore fun st => ?_
  dsimp only
  split
  · exact update_works works _ _ (.pure _)
  · exact .pure _

private theorem condition_works (scope : Ref .scope) (text : Text) :
    (condition ev scope text).Works := by
  unfold condition
  split
  · refine .after (.nth _ _) fun left => (works.valueOf scope left).bind fun a =>
      .after (.nth _ _) fun right => ?_
    exact (works.valueOf scope right).before fun b => Silent.getStore.bind fun st =>
      (Silent.ofExcept _).bind fun _ => .pure _
  · refine .after .getStore fun st => ?_
    split
    · exact (lookup_works works scope text).before fun item => (Silent.heldItem item).bind fun r =>
        .readVariable r
    · exact .pure _

private theorem bindName_works (home : Option (Ref .scope)) (lenient : Bool) (name : Option Text) :
    (bindName ev home lenient name).Works := by
  unfold bindName
  split
  · refine .after .getStore fun st => ?_
    split
    · split
      · exact (lookup_works works _ _).before fun item => (Silent.heldItem item).bind fun r =>
          Silent.getStore.bind fun _ => .pure _
      · exact .silent (unknown_silent _ _ _)
    · exact .silent (unknown_silent _ _ _)
  · exact .throw _

private theorem settle_works (home : Option (Ref .scope)) (l : Ref .list) :
    (settle ev home l).Works := by
  refine .after .getStore fun st => .forM _ fun i => .after .getStore fun st => ?_
  split
  · refine (works.bind _ _ _ _).bind fun x =>
      (Works.alloc fun st => .newVariable x).bind fun cell => ?_
    exact .changeStore fun st => .single (.list _ _)
  · exact .pure _

private theorem bindText_works (home : Option (Ref .scope)) (name : Text) (lenient : Bool)
    (s : Text) : (bindText ev home name lenient s).Works := by
  unfold bindText
  split
  · exact .pure _
  · split
    · exact .pure _
    · split
      · exact .pure _
      · split
        · split
          · exact (condition_works works _ _).before fun _ => .pure _
          · exact .throw _
        · exact bindName_works works _ _ _

private theorem bindStep_works (home : Option (Ref .scope)) (name : Text) (lenient : Bool)
    (v : Value) : (bindStep ev home name lenient v).Works := by
  cases v with
  | nothing => exact bindName_works works home lenient none
  | text s => exact bindText_works works home name lenient s
  | record r => exact .after .getStore fun _ => .pure _
  | list l =>
    refine .after .getStore fun st => ?_
    split
    · exact .pure _
    · exact (settle_works works home l).before fun _ => .pure _
  | _ => exact .pure _

private theorem assign_works (scope : Ref .scope) (isGlobal : Bool) (name : Text) (item : Item) :
    (assign ev scope isGlobal name item).Works := by
  refine .after (.readItem item) fun v => .after .getStore fun st => ?_
  split
  · refine (lookup_works works scope name).bind fun found => ?_
    split
    · exact assignVariable_works works _ _
    · exact declare_works works _ _ _
    · exact .pure _
    · exact .throw _
  · split
    · exact .throw _
    · refine (lookup_works works scope _).bind fun target =>
        .after (bracketed_silent _ _) fun text => ?_
      exact (works.valueOf scope text).bind fun index => .after (.heldItem target) fun r =>
        setElement_works works _ _ _
    · split
      · exact declareGlobal_works works _ _ _
      · exact declare_works works _ _ _

private theorem runAll_works (file : Text) (nodes : List (Ref .node)) :
    (runAll ev file nodes).Works := by
  induction nodes with
  | nil => exact .pure _
  | cons r rest ih =>
    refine (works.run r file).bind fun outcome => ?_
    split
    · exact ih
    · exact .pure _

theorem runBody_works (r : Ref .node) (file : Text) : (runBody ev r file).Works :=
  .after .getStore fun _ => runAll_works works file _

private theorem callFunction_works (scope : Ref .scope) (text : Text) (r : Ref .node) :
    (callFunction ev scope text r).Works := by
  have passing : ∀ (callee : Ref .scope) (pairs : List (Text × Text)),
      (bindArguments ev scope callee pairs).Works := by
    intro callee pairs
    induction pairs with
    | nil => exact .pure _
    | cons pair rest ih =>
      exact (works.valueOf _ _).bind fun v => (declare_works works _ _ _).bind fun _ => ih
  refine .after .getStore fun st => .after (parameters_silent _) fun names =>
    .after (bracketed_silent _ _) fun inside => ?_
  exact (passing _ _).bind fun _ => (runBody_works works r []).before fun _ => .pure _

omit works in
private theorem instantiate_works (r : Ref .record) : (instantiate ev r).Works := by
  have copy : (copyClass ev r).Works := by
    refine .after .getStore fun st => ?_
    split
    · exact .throw _
    · exact .alloc fun st => .clone r
  unfold instantiate
  refine .after .getStore fun st => ?_
  split
  · dsimp only
    split
    · exact copy.before fun _ => .pure _
    · refine (Works.changeStore fun st => .single (.table _ _)).bind fun _ => copy.bind fun q => ?_
      refine (Works.changeStore fun st => ?_).bind fun _ => .pure _
      split
      · exact .tail (.single (.table _ _)) (.scope _ _)
      · exact .single (.table _ _)
  · exact .throw _

private theorem valueStep_works (scope : Ref .scope) (text : Text) :
    (valueStep ev scope text).Works := by
  refine .after .getStore fun st => ?_
  split
  · refine (lookup_works works scope _).bind fun found => .after (.heldItem found) fun r =>
      .after (.readVariable r) fun v => ?_
    split
    · exact callFunction_works works _ _ _
    · exact instantiate_works _
    · exact .pure _
  · split
    · refine (lookup_works works scope _).bind fun target =>
        .after (bracketed_silent _ _) fun index => ?_
      exact (works.valueOf scope index).before fun v =>
        ((Run.Looks.heldItem target).bind fun r => element_looks r v).silent
    · exact evaluate_works works _ _

end Expressions

/-! ### Sequences and answers -/

private theorem joined_works (items : Store → Array Item) :
    (do let st ← Run.getStore; return .list (← Run.alloc (·.newList (items st))) : Run
      Value).Works :=
  .after .getStore fun _ => (Works.alloc fun _ => .newList _).before fun _ => .pure _

private theorem Sequence.dropQuotes_works (v : Value) : (dropQuotes v).Works := by
  unfold dropQuotes shorten
  split
  · exact .pure _
  · refine .after .getStore fun st => ?_
    dsimp only
    split
    · exact .pure _
    · exact (Works.alloc fun _ => .newList _).before fun _ => .pure _
  · exact .pure _

private theorem addLists_becomes (lists : List (Array Item)) (st : Store) :
    st.Becomes (st.addLists lists) := by
  induction lists generalizing st with
  | nil => exact .refl
  | cons items rest ih => exact .head (.newList items) (ih _)

private theorem addRecords_becomes (records : List (List (Key × Item))) (st : Store) :
    st.Becomes (st.addRecords records) := by
  induction records generalizing st with
  | nil => exact .refl
  | cons entries rest ih => exact .head (.newRecord { body := none, entries }) (ih _)

/-! ### Statements -/

private theorem loopTimes_works {body : Run Outcome} (works : body.Works) (times : Nat) :
    (loopTimes body times).Works := by
  induction times with
  | zero => exact .pure _
  | succ times ih =>
    refine works.bind fun outcome => ?_
    split
    · exact ih
    · exact .pure _

private theorem loopWhile_works {test : Run Bool} {body : Run Outcome} (tests : test.Works)
    (works : body.Works) (rounds : Nat) : (loopWhile test body rounds).Works := by
  induction rounds with
  | zero => exact .throw _
  | succ rounds ih =>
    refine tests.bind fun holds => ?_
    split
    · refine works.bind fun outcome => ?_
      split
      · exact ih
      · exact .pure _
    · exact .pure _

private theorem Program.load_works (limit : Nat) (scope : Ref .scope) (interactive : Bool)
    (source : Text) : (load limit scope interactive source).Works := by
  have flat : (loadFlat limit scope interactive (Layout.flatten source)).Works := by
    unfold loadFlat
    dsimp only
    split
    · exact .throw _
    · exact (Works.alloc fun _ => .plant _ _ _).before fun _ => .pure _
  exact flat.before fun _ => .pure _

namespace Site

private theorem sum_works (a b : Value) : (sum a b).Works := by
  unfold sum
  split
  · exact .after (.ofExcept _) fun _ => .pure _
  · split
    · exact .pure _
    · exact joined_works _
    · exact .throw _

variable {s : Site} (works : s.ev.Works)

private theorem reportOperands_silent (s : Site) (a b : Value) (operation : Text) :
    (s.reportOperands a b operation).Silent :=
  Silent.getStore.bind fun _ => (Silent.ofExcept _).bind fun _ =>
    (Silent.print _).bind fun _ => .pure _

include works

private theorem variableOf_works (name : Text) : (s.variableOf name).Works :=
  (lookup_works works s.scope name).before fun item => .heldItem item

private theorem store_works (name : Text) (v : Value) : (s.store name v).Works :=
  assign_works works _ _ _ _

private theorem storeItem_works (name : Text) (item : Item) : (s.storeItem name item).Works :=
  assign_works works _ _ _ _

private theorem storeLocal_works (name : Text) (v : Value) : (s.storeLocal name v).Works :=
  assign_works works _ _ _ _

private theorem shown_works (text : Text) : (s.shown text).Works :=
  (works.valueOf s.scope text).before fun _ => Silent.getStore.bind fun _ =>
    (Silent.ofExcept _).bind fun _ => .pure _

private theorem var_works : s.var.Works := by
  refine .after (.nth _ _) fun first => ?_
  dsimp only
  split
  · exact .after (.nth _ _) fun name => (works.valueOf _ _).bind fun v =>
      (storeLocal_works works _ v).before fun _ => .pure _
  · exact (works.valueOf _ _).bind fun v =>
      (assign_works works _ _ _ (.bare v)).before fun _ => .pure _

private theorem length_works : s.length.Works := by
  refine .after (.nth _ _) fun name => .after (.nth _ _) fun source =>
    (variableOf_works works source).bind fun r => ?_
  refine .after (.readVariable r) fun v => .after .getStore fun _ =>
    .after (.ofExcept _) fun n => ?_
  exact (store_works works name _).before fun _ => .pure _

private theorem array_works : s.array.Works := by
  have list : ∀ texts, (s.newList texts).Works := fun texts =>
    (Works.mapM texts (works.valueOf s.scope)).bind fun _ =>
      (Works.alloc fun _ => .newList _).before fun _ => .pure _
  refine .after (.nth _ _) fun second => .after (.nth _ _) fun first => (list _).bind fun v => ?_
  dsimp only
  split
  · exact (storeLocal_works works _ v).before fun _ => .pure _
  · exact (store_works works _ v).before fun _ => .pure _

private theorem append_works : s.append.Works := by
  refine .after (.nth _ _) fun text => (works.valueOf _ text).bind fun v =>
    .after (.nth _ _) fun name => ?_
  refine (variableOf_works works name).bind fun r => .after .getStore fun st => ?_
  split
  · exact (Works.changeStore fun _ => .single (.list _ _)).before fun _ => .pure _
  · exact .throw _

private theorem retag_works (tag : Tag) {convert : Value → Run Value}
    (silent : ∀ v, (convert v).Silent) : (s.retag tag convert).Works := by
  refine .after (.nth _ _) fun name => (variableOf_works works name).bind fun r =>
    .after (.readVariable r) fun v => ?_
  refine (Works.changeStore fun _ => .single (.variable r _)).bind fun _ =>
    .after (silent v) fun u => ?_
  exact assignVariable_works works r _

private theorem convert_works : s.convert.Works := by
  have number : ∀ {α : Type} (e : Except Fault α) (f : α → Value),
      (do return f (← Run.ofExcept e) : Run Value).Silent :=
    fun e _ => (Silent.ofExcept e).bind fun _ => .pure _
  refine .after (.nth _ _) fun target => ?_
  dsimp only
  split
  · exact (retag_works works _ fun _ => number _ _).before fun _ => .pure _
  · split
    · exact (retag_works works _ fun _ => number _ _).before fun _ => .pure _
    · split
      · exact (retag_works works _ fun _ => Silent.getStore.bind fun _ => number _ _).before
          fun _ => .pure _
      · exact .pure _

private theorem tagOf_works : s.tagOf.Works := by
  refine .after (.nth _ _) fun source => (variableOf_works works source).bind fun r =>
    .after .getStore fun _ => ?_
  exact .after (.nth _ _) fun name => (declare_works works _ _ _).before fun _ => .pure _

omit works in
private theorem answer_works (text : Text) : (s.answer text).Works := by
  refine .after .get fun w => .after (.ofExcept _) fun answer =>
    (Works.changeStore fun st => ?_).before fun _ => .pure _
  exact (addLists_becomes answer.lists st).trans (addRecords_becomes answer.records _)

private theorem formula_works : s.formula.Works :=
  .after (.nth _ _) fun name => (answer_works _).bind fun item =>
    (storeItem_works works name item).before fun _ => .pure _

private theorem add_works : s.add.Works := by
  have operand : ∀ text, (s.valueOf text).Works := works.valueOf s.scope
  refine .after (.nth _ _) fun left => (operand left).bind fun v =>
    (Sequence.dropQuotes_works v).bind fun a => ?_
  refine .after (.nth _ _) fun right => (operand right).bind fun v =>
    (Sequence.dropQuotes_works v).bind fun b => ?_
  exact .after (.nth _ _) fun name => (sum_works a b).bind fun v =>
    (store_works works name v).before fun _ => .pure _

private theorem arithmetic_works (op : Arithmetic) : (s.arithmetic op).Works := by
  refine .after (.nth _ _) fun left => (works.valueOf _ left).bind fun a =>
    .after (.nth _ _) fun right => ?_
  refine (works.valueOf _ right).bind fun b => ?_
  split
  · exact .after (.ofExcept _) fun n => .after (.nth _ _) fun name =>
      (store_works works name _).before fun _ => .pure _
  · exact .silent (reportOperands_silent s _ _ _)

private theorem wave_works (w : Wave) : (s.wave w).Works := by
  refine .after (.nth _ _) fun operand => (works.valueOf _ operand).bind fun a => ?_
  split
  · exact .after (.ofExcept _) fun n => .after (.nth _ _) fun name =>
      (store_works works name _).before fun _ => .pure _
  · exact .silent (reportOperands_silent s _ _ _)

private theorem body_works : s.body.Works := runBody_works works s.node s.file

private theorem holds_works (text : Text) : (s.holds text).Works :=
  (condition_works works s.scope text).before fun _ => Silent.getStore.bind fun _ => .pure _

private theorem ifTrue_works : s.ifTrue.Works := by
  refine .after (.nth _ _) fun text => (holds_works works text).bind fun holds => ?_
  split
  · exact body_works works
  · exact .pure _

private theorem repeatTimes_works : s.repeatTimes.Works :=
  .after (.nth _ _) fun text => (works.valueOf _ text).bind fun _ => .after (.ofExcept _) fun _ =>
    loopTimes_works (body_works works) _

private theorem whileTrue_works : s.whileTrue.Works :=
  loopWhile_works (.after (.nth _ _) fun text => holds_works works text) (body_works works) _

private theorem defFunction_works : s.defFunction.Works :=
  .after definedName_silent fun name => (declareGlobal_works works _ name _).before fun _ => .pure _

private theorem defClass_works : s.defClass.Works := by
  refine .after definedName_silent fun name =>
    (Works.changeStore fun _ => .single (.scope _ _)).bind fun _ => ?_
  refine (body_works works).bind fun _ => .after .getStore fun st =>
    (Works.alloc fun _ => .newRecord _).bind fun r => ?_
  refine (Works.changeStore fun _ => .single (.scope _ _)).bind fun _ => ?_
  exact (declareGlobal_works works _ name _).before fun _ => .pure _

private theorem passArguments_works (callee : Ref .scope) (arguments names : List Text) :
    (s.passArguments callee arguments names).Works := by
  induction arguments generalizing names with
  | nil => exact .pure _
  | cons argument rest ih =>
    rw [passArguments]
    refine (works.valueOf _ argument).bind fun v => ?_
    cases names with
    | nil => exact .throw _
    | cons name names => exact (declare_works works _ _ _).bind fun _ => ih names

private theorem callOrAssign_works (first : Text) : (s.callOrAssign first).Works := by
  refine (variableOf_works works _).bind fun r => .after .getStore fun st => ?_
  dsimp only
  split
  · refine .after (.read _) fun v => ?_
    split
    · refine .after .getStore fun st => .after (parameters_silent _) fun names => ?_
      exact (passArguments_works works _ _ _).bind fun _ =>
        (runBody_works works _ _).bind fun _ => .pure _
    · exact .throw _
  · exact (works.valueOf _ _).bind fun v => (store_works works first v).before fun _ => .pure _

private theorem echo_works : s.echo.Works := by
  refine (Works.mapM _ (shown_works works)).bind fun texts => ?_
  dsimp only
  split
  · exact .after (.print _) fun _ => .pure _
  · exact .pure _

private theorem importFile_works : s.importFile.Works := by
  refine .after (.nth _ _) fun name => .after .get fun w => .after (.ofExcept _) fun path =>
    .after (.readFile path) fun source => ?_
  exact (Program.load_works _ _ _ _).bind fun program =>
    (works.run program path).before fun _ => .pure _

private theorem useFile_works : s.useFile.Works := by
  refine .after (.nth _ _) fun action => ?_
  dsimp only
  split
  · refine .after (.nth _ _) fun source => (works.valueOf _ source).bind fun v =>
      .after (innerText_silent v) fun path => ?_
    refine .after (.nth _ _) fun name => .after (textOf_silent path) fun path =>
      .after (.readFile path) fun content => ?_
    exact (declare_works works _ _ _).before fun _ => .pure _
  · split
    · refine .after (.nth _ _) fun target => (works.valueOf _ target).bind fun v =>
        .after (innerText_silent v) fun path => ?_
      refine .after (.nth _ _) fun source => (works.valueOf _ source).bind fun v =>
        .after (innerText_silent v) fun content => ?_
      refine .after (textOf_silent path) fun path => .after (.writeFile path _) fun _ => ?_
      exact .after (textOf_silent content) fun _ => .pure _
    · exact .pure _

omit works in
private theorem discard_request_works (ask : Request) : (discard (s.request ask)).Works :=
  .after (request_silent ask) fun _ => .pure _

omit works in
private theorem startScreen_works : s.startScreen.Works := by
  have shares : s.shareRecord.Works := by
    refine .after .getStore fun st => ?_
    split
    · exact .silent (.ofExcept _)
    · refine (Works.alloc fun _ => .newRecord _).bind fun record =>
        (Works.changeStore fun st => ?_).before fun _ => .pure _
      exact .tail (.single (.newVariable _)) (.table _ _)
  refine .after (request_silent _) fun _ => shares.bind fun shared =>
    (Works.alloc fun _ => .newRecord _).bind fun state => ?_
  exact Works.changeStore fun _ => .single (.record _ _)

omit works in
private theorem keep_works (key : Key) (v : Value) : (s.keep key v).Works :=
  .after .getStore fun _ => .after (.ofExcept _) fun _ => Works.changeStore fun _ =>
    .single (.record _ _)

omit works in
private theorem kept_silent (key : Key) : (s.kept key).Silent :=
  Silent.getStore.bind fun _ => .ofExcept _

private theorem useDisplay_works : s.useDisplay.Works := by
  refine .after (.nth _ _) fun action => ?_
  split
  · exact discard_request_works _
  · split
    · refine .after (.nth _ _) fun width => (works.valueOf _ width).bind fun a =>
        .after (.nth _ _) fun height => ?_
      exact (works.valueOf _ height).bind fun b => .after (request_silent _) fun _ => keep_works _ _
    · split
      · refine (works.valueOf _ _).bind fun v => .after (innerText_silent v) fun caption => ?_
        exact .after (textOf_silent caption) fun text => discard_request_works _
      · split
        · exact discard_request_works _
        · exact .pure _

private theorem drawShape_works : s.drawShape.Works := by
  have values : ∀ places, (s.valuesAt places).Works := fun places =>
    Works.mapM places fun _ => .after (.nth _ _) fun text => works.valueOf _ text
  refine .after (.nth _ _) fun shape => ?_
  split
  · exact (values _).bind fun color => (values _).bind fun box => .after (kept_silent _) fun _ =>
      discard_request_works _
  · exact .pure _

private theorem useEvents_works : s.useEvents.Works := by
  have row : ∀ vs, (newRow vs).Works :=
    fun _ => (Works.alloc fun _ => .newList _).before fun _ => .pure _
  refine .after (.nth _ _) fun action => ?_
  split
  · refine .after (request_silent _) fun events =>
      (Works.mapM events fun _ => row _).bind fun rows => (row rows).bind fun kept => ?_
    refine (keep_works _ kept).bind fun _ => .after (.ofExcept _) fun count =>
      .after (.nth _ _) fun name => ?_
    exact store_works works name _
  · split
    · refine .after (kept_silent _) fun item => .after (.ofExcept _) fun row =>
        .after .getStore fun st => ?_
      refine .after (.nth _ _) fun first => .after (.ofExcept _) fun event => ?_
      refine (Works.changeStore fun _ => .single (.list _ _)).bind fun _ =>
        .after (.nth _ _) fun name => ?_
      refine .after (.nth _ _) fun kind => (storeItem_works works name kind).bind fun _ => ?_
      exact .after (.nth _ _) fun name => .after (.nth _ _) fun key =>
        storeItem_works works name key
    · exact .pure _

private theorem screen_works : s.screen.Works := by
  have uses : s.useScreen.Works := by
    refine .after (.nth _ _) fun action => ?_
    split
    · exact startScreen_works
    · split
      · exact discard_request_works _
      · split
        · exact useDisplay_works works
        · split
          · exact drawShape_works works
          · split
            · exact useEvents_works works
            · exact .pure _
  exact .after (request_silent _) fun _ => uses.before fun _ => .pure _

private theorem other_works : s.other.Works := by
  refine .after .getStore fun st => .after (.nth _ _) fun first => ?_
  split
  · exact callOrAssign_works works first
  · split
    · exact echo_works works
    · exact body_works works

private theorem runVerb_works (verb : Verb) : (s.runVerb verb).Works := by
  cases verb with
  | print =>
    exact (Works.mapM _ (shown_works works)).bind fun _ => .after (.print _) fun _ => .pure _
  | putchar =>
    refine (works.valueOf _ _).bind fun v => .after (.ofExcept _) fun code =>
      .after (.ofExcept _) fun c => ?_
    exact .after (.print _) fun _ => .pure _
  | var => exact var_works works
  | length => exact length_works works
  | array => exact array_works works
  | add => exact add_works works
  | arithmetic op => exact arithmetic_works works op
  | wave w => exact wave_works works w
  | formula => exact formula_works works
  | breakOff => exact .pure _
  | ifTrue => exact ifTrue_works works
  | repeatTimes => exact repeatTimes_works works
  | whileTrue => exact whileTrue_works works
  | defFunction => exact defFunction_works works
  | defClass => exact defClass_works works
  | append => exact append_works works
  | convert => exact convert_works works
  | tagOf => exact tagOf_works works
  | importFile => exact importFile_works works
  | returnValue => exact (works.valueOf _ _).before fun _ => .pure _
  | file => exact useFile_works works
  | random =>
    exact .after (.nth _ _) fun name => .after .draw fun x =>
      (declare_works works _ name _).before fun _ => .pure _
  | screen => exact screen_works works

end Site

/-- Whatever is evaluated or run, the store changes in these steps only. -/
theorem Evaluator.ofRoom_works (rounds n : Nat) : (ofRoom rounds n).Works := by
  induction n with
  | zero => exact ⟨fun _ _ _ _ => .throw _, fun _ _ => .throw _, fun _ _ => .throw _⟩
  | succ n ih =>
    refine ⟨bindStep_works ih, valueStep_works ih, fun r file => .after .getStore fun st => ?_⟩
    dsimp only
    split
    · exact Site.runVerb_works ih _
    · exact Site.other_works ih

end CommandScript

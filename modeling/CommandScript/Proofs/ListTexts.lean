import CommandScript.Proofs.Echo
import CommandScript.Proofs.Isolation

/-! The texts of nested lists. A list of texts and integers can be shown unless it is nested too
deeply, or a variable inside it was made for a list and holds what cannot be joined: an integer, or
a list with a bare element that is no text. A value that is appended stays bare, so that appending
an integer to a list that stands in another one keeps the other one from being printed. -/
namespace CommandScript

/-! ### Rows of results -/

private theorem mapM_ok_iff {α β : Type} {f : α → Except Fault β} {xs : List α} {ys : List β} :
    xs.mapM f = .ok ys ↔ List.Forall₂ (fun x y => f x = .ok y) xs ys := by
  induction xs generalizing ys with
  | nil =>
    rw [List.mapM_nil, List.forall₂_nil_left_iff]
    exact ⟨fun same => (Except.ok.inj same).symm, fun same => same ▸ rfl⟩
  | cons x xs ih =>
    rw [List.mapM_cons, List.forall₂_cons_left_iff]
    cases first : f x with
    | error e => simp [bind, Except.bind]
    | ok y =>
      cases rest : xs.mapM f with
      | error e => simp [bind, Except.bind, ← ih, rest]
      | ok zs => simp [bind, Except.bind, pure, Except.pure, ← ih, rest, eq_comm]

private theorem exists_mapM_iff {α β : Type} {f : α → Except Fault β} {xs : List α} :
    (∃ ys, xs.mapM f = .ok ys) ↔ ∀ x ∈ xs, ∃ y, f x = .ok y := by
  simp only [mapM_ok_iff]
  induction xs with
  | nil => simp
  | cons x xs ih =>
    rw [List.forall_mem_cons, ← ih]
    constructor
    · rintro ⟨ys, related⟩
      cases related with
      | cons here others => exact ⟨⟨_, here⟩, _, others⟩
    · rintro ⟨⟨y, here⟩, ys, others⟩
      exact ⟨y :: ys, .cons here others⟩

namespace Store

private theorem exists_joinTexts_iff {parts : List (Option Text)} :
    (∃ text, joinTexts parts = .ok text) ↔ ∀ part ∈ parts, part.isSome = true := by
  unfold joinTexts
  split
  · next all => exact ⟨fun _ => List.all_eq_true.mp all, fun _ => ⟨_, rfl⟩⟩
  · next some =>
    constructor
    · rintro ⟨_, same⟩
      cases same
    · exact fun all => absurd (List.all_eq_true.mpr all) some

/-- Texts are joined exactly if each of them is one. -/
theorem exists_join_iff {α : Type} {f : α → Except Fault (Option Text)} {xs : List α} :
    (∃ text, (xs.mapM f >>= joinTexts) = .ok text) ↔ ∀ x ∈ xs, ∃ s, f x = .ok (some s) := by
  have same : ∀ {xs : List α} {ys : List (Option Text)},
    List.Forall₂ (fun x y => f x = .ok y) xs ys →
      ((∀ part ∈ ys, part.isSome = true) ↔ ∀ x ∈ xs, ∃ s, f x = .ok (some s)) := by
    intro xs ys related
    induction related with
    | nil => simp
    | @cons x y xs ys here _ ih =>
      rw [List.forall_mem_cons, List.forall_mem_cons, ih, here]
      simp [Option.isSome_iff_exists]
  cases parts : xs.mapM f with
  | ok ys => exact exists_joinTexts_iff.trans (same (mapM_ok_iff.mp parts))
  | error e =>
    constructor
    · rintro ⟨text, done⟩
      cases done
    · intro each
      obtain ⟨ys, given⟩ := exists_mapM_iff.mpr fun x member => (each x member).elim fun s found =>
        ⟨some s, found⟩
      rw [parts] at given
      cases given

/-! ### Nested lists -/

def within (st : Store) : Item → Value
  | .bare v => v
  | .held r => (st.var r).content

/-- Texts, integers with no more digits than can be written, and lists of such values, nested to a
depth of at most `d`. -/
inductive Nests (st : Store) : Nat → Value → Prop where
  | text (d : Nat) (s : Text) : Nests st d (.text s)
  | int (d : Nat) (n : Int) (few : n.natAbs < Number.tenTo Number.digitLimit) : Nests st d (.int n)
  | list {d : Nat} {l : Ref .list}
      (below : ∀ item ∈ (st.list l).toList, Nests st d (st.within item)) :
      Nests st (d + 1) (.list l)

inductive Inside (st : Store) : Value → Item → Prop where
  | element {l : Ref .list} {item : Item} (member : item ∈ (st.list l).toList) :
      Inside st (.list l) item
  | deeper {l : Ref .list} {item inner : Item} (member : item ∈ (st.list l).toList)
      (inside : Inside st (st.within item) inner) :
      Inside st (.list l) inner

/-- The content of a variable made for a list can be joined: it is a text, or a list in which all
bare elements are texts. -/
inductive Joinable (st : Store) : Value → Prop where
  | text (s : Text) : Joinable st (.text s)
  | list {l : Ref .list} (texts : ∀ v, .bare v ∈ (st.list l).toList → ∃ s, v = .text s) :
      Joinable st (.list l)

/-- All variables in a value that were made for lists have contents that can be joined. -/
def Legible (st : Store) (v : Value) : Prop :=
  ∀ r, st.Inside v (.held r) → (st.var r).tag = .list → st.Joinable (st.var r).content

def LegibleItem (st : Store) (item : Item) : Prop :=
  (∀ r, item = .held r → (st.var r).tag = .list → st.Joinable (st.var r).content) ∧
  st.Legible (st.within item)

variable {st : Store} {d : Nat} {v : Value} {l : Ref .list}

theorem Nests.mono (nests : st.Nests d v) {e : Nat} (more : d ≤ e) : st.Nests e v := by
  induction nests generalizing e with
  | text d s => exact .text e s
  | int d n few => exact .int e n few
  | list below ih =>
    obtain ⟨e, rfl⟩ := Nat.exists_eq_add_of_le' (Nat.lt_of_lt_of_le (Nat.succ_pos _) more)
    exact .list fun item member => ih item member (by omega)

private theorem legible_list_iff :
    st.Legible (.list l) ↔ ∀ item ∈ (st.list l).toList, st.LegibleItem item := by
  constructor
  · intro legible item member
    refine ⟨?_, fun r inside => legible r (.deeper member inside)⟩
    rintro r rfl
    exact legible r (.element member)
  · intro each r inside
    cases inside with
    | element member => exact (each _ member).1 r rfl
    | deeper member inside => exact (each _ member).2 r inside

private theorem legibleItem_bare : st.LegibleItem (.bare v) ↔ st.Legible v := by
  refine ⟨fun item => item.2, fun legible => ⟨fun r same => ?_, legible⟩⟩
  cases same

private theorem legibleItem_held {r : Ref .variable} (content : (st.var r).content = .list l) :
    st.LegibleItem (.held r) ↔ ((st.var r).tag = .list → st.Joinable (.list l)) ∧
    st.Legible (.list l) := by
  unfold LegibleItem
  rw [show st.within (.held r) = .list l from content, ← content]
  refine and_congr_left fun _ => ⟨fun joinable => joinable r rfl, fun joinable q same => ?_⟩
  cases same
  exact joinable

private theorem legible_of_no_list (plain : ∀ l, v ≠ .list l) : st.Legible v := by
  intro r inside
  cases inside with
  | element => exact absurd rfl (plain _)
  | deeper => exact absurd rfl (plain _)

/-! ### Showing -/

variable {fuel : Nat} {open_ : List Cell}

private theorem exists_showItem_list (out : l.cell ∉ open_) :
    (∃ text, st.showItem (fuel + 1) open_ (.bare (.list l)) = .ok text) ↔
      ∀ item ∈ (st.list l).toList, ∃ text, st.showItem fuel (l.cell :: open_) item = .ok text := by
  rw [← exists_mapM_iff, showItem, if_neg out]
  cases (st.list l).toList.mapM (st.showItem fuel (l.cell :: open_)) with
  | error e => simp [bind, Except.bind]
  | ok texts => simp [bind, Except.bind, pure, Except.pure]

/-- A variable that was made for a list and holds one shows its variables, and its bare elements
have to be texts. -/
theorem exists_showItem_joined {r : Ref .variable} (tag : (st.var r).tag = .list)
    (content : (st.var r).content = .list l) :
    (∃ text, st.showItem (fuel + 1) open_ (.held r) = .ok text) ↔
      (∀ v, .bare v ∈ (st.list l).toList → ∃ s, v = .text s) ∧
        ∀ inner, .held inner ∈ (st.list l).toList → ∃ text, st.showItem fuel open_ (.held inner) =
          .ok text := by
  rw [showItem]
  simp only [tag, content]
  rw [exists_join_iff]
  constructor
  · intro each
    refine ⟨fun v member => ?_, fun inner member => ?_⟩
    · obtain ⟨s, given⟩ := each _ member
      cases v with
      | text s => exact ⟨s, rfl⟩
      | _ => cases given
    · obtain ⟨s, given⟩ := each _ member
      cases shown : st.showItem fuel open_ (.held inner) with
      | ok text => exact ⟨text, rfl⟩
      | error e => simp [shown, bind, Except.bind] at given
  · rintro ⟨texts, inners⟩ item member
    cases item with
    | bare v =>
      obtain ⟨s, rfl⟩ := texts v member
      exact ⟨s, rfl⟩
    | held inner =>
      obtain ⟨text, shown⟩ := inners inner member
      exact ⟨text, by simp [shown, bind, Except.bind, pure, Except.pure]⟩

private theorem showItem_content {r : Ref .variable} (tag : (st.var r).tag ≠ .list)
    (plain : ∀ s, (st.var r).content ≠ .text s) :
    st.showItem (fuel + 1) open_ (.held r) = st.showItem fuel open_ (.bare (st.var r).content) := by
  rw [showItem]
  cases same : (st.var r).content with
  | text s => exact absurd same (plain s)
  | _ =>
    cases other : (st.var r).tag with
    | list => exact absurd other tag
    | _ => rfl

private theorem exists_showItem_int {n : Int} (few : n.natAbs < Number.tenTo Number.digitLimit) :
    ∃ text, st.showItem (fuel + 1) open_ (.bare (.int n)) = .ok text := by
  have fits : ¬ Number.tenTo Number.digitLimit ≤ n.natAbs := Nat.not_le.mpr few
  generalize limit : Number.tenTo Number.digitLimit = bound at fits
  simp [showItem, Number.intText, limit, fits]

theorem Nests.scalar (nests : st.Nests d v) (plain : ∀ l, v ≠ .list l) :
    (∃ s, v = .text s) ∨ ∃ n : Int, v = .int n ∧ n.natAbs < Number.tenTo Number.digitLimit := by
  cases nests with
  | text d s => exact .inl ⟨s, rfl⟩
  | int d n few => exact .inr ⟨n, rfl, few⟩
  | list => exact absurd rfl (plain _)

private theorem Nests.rank (nests : st.Nests d v) (plain : ∀ l, v ≠ .list l) (e : Nat) :
    st.Nests e v := by
  rcases nests.scalar plain with ⟨s, rfl⟩ | ⟨n, rfl, few⟩
  · exact .text e s
  · exact .int e n few

private theorem LegibleItem.exists_showItem_scalar {item : Item} (legible : st.LegibleItem item)
    (nests : st.Nests d (st.within item)) (plain : ∀ l, st.within item ≠ .list l) :
    ∃ text, st.showItem (fuel + 2) open_ item = .ok text := by
  cases item with
  | bare v =>
    rcases nests.scalar plain with ⟨s, content⟩ | ⟨n, content, few⟩
    · exact ⟨_, by rw [show v = _ from content, showItem]⟩
    · rw [show v = _ from content]
      exact exists_showItem_int few
  | held r =>
    rcases nests.scalar plain with ⟨s, content⟩ | ⟨n, content, few⟩
    · change (st.var r).content = _ at content
      rw [showItem, content]
      cases (st.var r).tag with
      | list => exact exists_joinTexts_iff.mpr (by simp)
      | _ => exact ⟨s, rfl⟩
    · change (st.var r).content = _ at content
      have tag : (st.var r).tag ≠ .list := by
        intro tag
        have joinable := legible.1 r rfl tag
        rw [content] at joinable
        cases joinable
      rw [showItem_content tag (by simp [content]), content]
      exact exists_showItem_int few

/-- With levels enough, what is legible is shown. Each list takes one level, and so does a variable
around it that was made for something else. -/
theorem LegibleItem.exists_showItem {item : Item} (legible : st.LegibleItem item)
    (nests : st.Nests d (st.within item)) (enough : 2 * d + 2 ≤ fuel) :
    ∃ text, st.showItem fuel open_ item = .ok text := by
  induction d generalizing item fuel open_ with
  | zero =>
    obtain ⟨fuel, rfl⟩ := Nat.exists_eq_add_of_le' enough
    refine legible.exists_showItem_scalar nests ?_
    intro l content
    rw [content] at nests
    cases nests
  | succ d ih =>
    by_cases plain : ∀ l, st.within item ≠ .list l
    · obtain ⟨fuel, rfl⟩ := Nat.exists_eq_add_of_le' (Nat.le_trans (Nat.le_add_left 2 _) enough)
      exact legible.exists_showItem_scalar nests plain
    obtain ⟨l, content⟩ := by simpa only [not_forall, not_not] using plain
    have each := legible.2
    rw [content, legible_list_iff] at each
    rw [content] at nests
    obtain ⟨fuel, rfl⟩ := Nat.exists_eq_add_of_le' (Nat.le_trans (Nat.le_add_left 2 _) enough)
    cases nests with
    | list below =>
      have listed : ∀ more, fuel ≤ more → ∃ text, st.showItem (more + 1) open_ (.bare (.list l)) =
          .ok text := by
        intro more enough
        by_cases comes : l.cell ∈ open_
        · exact ⟨_, by rw [showItem, if_pos comes]⟩
        · exact (exists_showItem_list comes).mpr fun item member =>
            ih (each item member) (below item member) (by omega)
      cases item with
      | bare v =>
        rw [show v = _ from content]
        exact listed (fuel + 1) (Nat.le_succ fuel)
      | held r =>
        change (st.var r).content = _ at content
        by_cases tag : (st.var r).tag = .list
        · have joinable := legible.1 r rfl tag
          rw [content] at joinable
          cases joinable with
          | list texts =>
            refine (exists_showItem_joined tag content).mpr ⟨texts, fun inner member => ?_⟩
            exact ih (each _ member) (below _ member) (by omega)
        · rw [showItem_content tag (by simp [content]), content]
          exact listed fuel (Nat.le_refl fuel)

/-- The lists that are being shown are nested more deeply than what is shown in them. -/
def Above (st : Store) (d : Nat) (open_ : List Cell) : Prop :=
  ∀ k : Ref .list, k.cell ∈ open_ → ¬ st.Nests d (.list k)

theorem Above.mono {e : Nat} (above : st.Above e open_) (fewer : d ≤ e) : st.Above d open_ :=
  fun k member nests => above k member (nests.mono fewer)

theorem Above.push (above : st.Above d open_) (deeper : ¬ st.Nests d (.list l)) :
    st.Above d (l.cell :: open_) := by
  intro k member
  rcases List.mem_cons.mp member with same | old
  · have equal : k = l := by
      cases k
      cases l
      simpa [Ref.cell] using same
    rw [equal]
    exact deeper
  · exact above k old

/-- A nested list has elements that are nested less deeply than itself. -/
theorem Nests.least (nests : st.Nests d (.list l)) :
    ∃ e < d, (∀ item ∈ (st.list l).toList, st.Nests e (st.within item)) ∧
    ¬ st.Nests e (.list l) := by
  induction d with
  | zero => cases nests
  | succ d ih =>
    by_cases shallow : st.Nests d (.list l)
    · obtain ⟨e, less, rest⟩ := ih shallow
      exact ⟨e, Nat.lt_succ_of_lt less, rest⟩
    · cases nests with
      | list below => exact ⟨d, Nat.lt_succ_self d, below, shallow⟩

/-- What is shown is legible and not nested beyond the levels that there are. The lists that are
being shown do not come round again, because they are nested more deeply. -/
theorem legibleItem_of_showItem {item : Item} {text : Text}
    (shown : st.showItem fuel open_ item = .ok text) (nests : st.Nests d (st.within item))
    (above : st.Above d open_) : st.LegibleItem item ∧ st.Nests fuel (st.within item) := by
  induction fuel generalizing item text open_ d with
  | zero => cases shown
  | succ fuel ih =>
    by_cases plain : ∀ l, st.within item ≠ .list l
    · refine ⟨⟨?_, legible_of_no_list plain⟩, nests.rank plain _⟩
      rintro r rfl tag
      rcases nests.scalar plain with ⟨s, content⟩ | ⟨n, content, _⟩
      · change (st.var r).content = _ at content
        rw [content]
        exact .text s
      · change (st.var r).content = _ at content
        rw [showItem] at shown
        simp [tag, content] at shown
    obtain ⟨l, content⟩ := by simpa only [not_forall, not_not] using plain
    rw [content] at nests
    obtain ⟨e, less, below, deeper⟩ := nests.least
    cases item with
    | bare v =>
      change v = _ at content
      subst content
      have out : l.cell ∉ open_ := fun member => above l member nests
      have each := fun item member =>
        ((exists_showItem_list out).mp ⟨text, shown⟩ item member).elim fun _ inner =>
          ih inner (below item member) ((above.mono (Nat.le_of_lt less)).push deeper)
      exact ⟨legibleItem_bare.mpr (legible_list_iff.mpr fun item member => (each item member).1),
        .list fun item member => (each item member).2⟩
    | held r =>
      change (st.var r).content = _ at content
      by_cases tag : (st.var r).tag = .list
      · obtain ⟨texts, inners⟩ := (exists_showItem_joined tag content).mp ⟨text, shown⟩
        have each : ∀ item ∈ (st.list l).toList, st.LegibleItem item ∧
            st.Nests fuel (st.within item) := by
          intro item member
          cases item with
          | bare v =>
            obtain ⟨s, rfl⟩ := texts v member
            exact ⟨legibleItem_bare.mpr (legible_of_no_list (by simp)), .text fuel s⟩
          | held inner =>
            obtain ⟨_, given⟩ := inners inner member
            exact ih given (below _ member) (above.mono (Nat.le_of_lt less))
        refine ⟨(legibleItem_held content).mpr ⟨fun _ => .list texts,
          legible_list_iff.mpr fun item member => (each item member).1⟩, ?_⟩
        rw [show st.within (.held r) = .list l from content]
        exact .list fun item member => (each item member).2
      · rw [showItem_content tag (by simp [content]), content] at shown
        obtain ⟨legible, fits⟩ := ih shown nests above
        refine ⟨(legibleItem_held content).mpr ⟨fun other => absurd other tag,
          legibleItem_bare.mp legible⟩, ?_⟩
        rw [show st.within (.held r) = .list l from content]
        exact fits.mono (Nat.le_succ fuel)

def push (st : Store) (k : Ref .list) (v : Value) : Store :=
  st.updateList k (Array.push · (.bare v))

theorem resolve_updateList (k : Ref .list) (f : Array Item → Array Item) (scope : Ref .scope)
    (name : Text) : (st.updateList k f).resolve scope name = st.resolve scope name := by
  have scopes : (st.updateList k f).scopes = st.scopes := rfl
  have tables : (st.updateList k f).tables = st.tables := rfl
  exact resolve_congr scopes tables scope name

theorem resolve_push (k : Ref .list) (v : Value) (scope : Ref .scope) (name : Text) :
    (st.push k v).resolve scope name = st.resolve scope name := resolve_updateList k _ scope name

theorem list_push_here (k : Ref .list) (v : Value) (has : st.Has k.cell) :
    (st.push k v).list k = (st.list k).push (.bare v) :=
  Arena.read_update_here st.lists k _ has

/-- An element is added to one list only. -/
theorem mem_list_push {k : Ref .list} {item : Item}
    (member : item ∈ ((st.push k v).list l).toList) :
    item ∈ (st.list l).toList ∨ item = .bare v := by
  rcases Arena.read_update_cases st.lists k l (Array.push · (.bare v)) with same | ⟨_, _, same⟩
  · rw [list, push, updateList, same] at member
    exact .inl member
  · rw [list, push, updateList, same, Array.toList_push, List.mem_append,
      List.mem_singleton] at member
    exact member

private theorem subset_list_push (k : Ref .list) (v : Value) {item : Item}
    (member : item ∈ (st.list l).toList) : item ∈ ((st.push k v).list l).toList := by
  rcases Arena.read_update_cases st.lists k l (Array.push · (.bare v)) with same | ⟨_, _, same⟩
  · rw [list, push, updateList, same]
    exact member
  · rw [list, push, updateList, same, Array.toList_push]
    exact List.mem_append_left _ member

theorem Nests.push {u : Value} (nests : st.Nests d u) (k : Ref .list) (plain : ∀ e, st.Nests e v)
    (scalar : ∀ l, v ≠ .list l) : (st.push k v).Nests d u := by
  induction nests with
  | text d s => exact .text d s
  | int d n few => exact .int d n few
  | list below ih =>
    refine .list fun item member => ?_
    rcases mem_list_push member with old | rfl
    · cases item <;> exact ih _ old
    · rcases (plain 0).scalar scalar with ⟨s, rfl⟩ | ⟨n, rfl, few⟩
      · exact .text _ s
      · exact .int _ n few

theorem Inside.push {u : Value} {item : Item} (inside : st.Inside u item) (k : Ref .list)
    (v : Value) : (st.push k v).Inside u item := by
  induction inside with
  | element member => exact .element (subset_list_push k v member)
  | @deeper l item inner member _ ih =>
    refine .deeper (subset_list_push k v member) ?_
    cases item <;> exact ih

end Store

/-! ### Commands -/

/-- The command that appends the value of a word to a list. Whatever follows the word does not
count. -/
def appending (name text : Text) : Text := "append".toList ++ ' ' :: (name ++ ' ' :: text)

section Commands

variable {s : Site} {name text : Text} {w : World}

private theorem Site.exec_printing (command : s.command = .of (printing name))
    (oneWord : ' ' ∉ name) (w : World) :
    s.act.exec w = (s.shown name >>= fun text => Run.print text >>= fun _ =>
      pure Outcome.done).exec w := by
  have whole : s.command.whole = ["print".toList, name] := by
    rw [command]
    exact Text.words_unwords (List.cons_ne_nil _ _) (by simp [oneWord])
  have verb : s.command.verb? = some .print := by
    rw [command, printing, Text.unwords_cons _ (List.cons_ne_nil _ _), Command.verb?_word (by simp)]
    decide
  have line : ∀ text : Text, Text.unwords [text] = text := by simp [Text.unwords]
  rw [Site.act, verb]
  change s.print.exec w = _
  rw [Site.print, whole, List.drop_one, List.tail_cons, List.mapM_cons]
  simp only [List.mapM_nil, bind_assoc, pure_bind, line]

theorem Site.exec_appending (command : s.command = .of (appending name text))
    (oneWord : ' ' ∉ name) (single : '.' ∉ name) {v : Value}
    (value : (s.valueOf (text.before ' ')).exec w = (.ok v, w)) {owner : Ref .scope}
    {r : Ref .variable} (found : w.store.resolve s.scope name = some (owner, r)) {l : Ref .list}
    (content : (w.store.var r).content = .list l) :
    s.act.exec w = (.ok .done, { w with store := w.store.push l v }) := by
  have first : ' ' ∉ "append".toList := by decide
  have shape : appending name text = "append".toList ++ ' ' :: (name ++ ' ' :: text) := rfl
  have whole : s.command.whole = "append".toList :: name :: text.words := by
    rw [command]
    change (appending name text).words = _
    rw [shape, Text.words, Text.splitOn_append_cons first, Text.splitOn_append_cons oneWord]
    rfl
  have verb : s.command.verb? = some .append := by
    rw [command, shape, Command.verb?_word (by simp)]
    decide
  have last : ("append".toList :: name :: text.words)[2]? = some (text.before ' ') := by
    rw [← Text.head?_words]
    simp [List.head?_eq_getElem?]
  rw [Site.act, verb]
  change s.append.exec w = _
  rw [Site.append, Run.exec_bind_ok w (Site.exec_word whole last w), Run.exec_bind_ok w value,
    Run.exec_bind_ok w (Site.exec_word whole rfl w),
    Run.exec_bind_ok w (s.exec_variableOf single found),
    Run.exec_bind_ok w (Run.exec_getStore w), content]
  rfl

end Commands

theorem exec_valueOf_identifier (rounds n : Nat) {scope owner : Ref .scope} {name : Text}
    (identifier : Identifier name) {w : World} {r : Ref .variable}
    (found : w.store.resolve scope name = some (owner, r)) :
    ((Evaluator.ofRoom rounds (n + 2)).valueOf scope name).exec w =
      ((w.store.var r).reading, w) := by
  apply read_path rounds n identifier.plainPath
  rw [Store.findPath, List.splitOn_eq_singleton identifier.newName.single]
  simp only [Store.find, found, Option.map_some]

section Printing

variable (rounds n : Nat) {scope owner : Ref .scope} {node : Ref .node} {file name : Text}
  (identifier : Identifier name) {w : World}
  {r : Ref .variable} (found : w.store.resolve scope name = some (owner, r)) {l : Ref .list}
  (content : (w.store.var r).content = .list l)
include identifier found content

/-- A list in a variable that was not made for text is shown and printed. -/
theorem exec_printing_list (tag : (w.store.var r).tag ≠ .text) :
    (Site.mk (.ofRoom rounds (n + 2)) node scope file (.of (printing name))).act.exec w =
      (Run.ofExcept ((w.store.showItem (2 * (n + 2)) [] (.bare (.list l))).map Spelled.unquote) >>=
        fun text =>
        Run.print text >>= fun _ => pure Outcome.done).exec w := by
  let s : Site := ⟨.ofRoom rounds (n + 2), node, scope, file, .of (printing name)⟩
  have value : (s.valueOf name).exec w = (.ok (.list l), w) := by
    change ((Evaluator.ofRoom rounds (n + 2)).valueOf scope name).exec w = _
    rw [exec_valueOf_identifier rounds n identifier found, Variable.reading, if_neg tag, content]
  have slack : s.ev.slack = 2 * (n + 2) := Evaluator.slack_ofRoom rounds (n + 2)
  have shown : w.store.showValue (2 * (n + 2)) (.list l) = w.store.showItem (2 * (n + 2)) []
    (.bare (.list l)) := rfl
  change s.act.exec w = _
  rw [Site.exec_printing rfl identifier.newName.oneWord, Run.exec_bind, Site.exec_shown value,
    slack, shown]
  cases (w.store.showItem (2 * (n + 2)) [] (.bare (.list l))).map Spelled.unquote <;> rfl

/-- A list in a variable that was made for text is not even read. -/
theorem exec_printing_text (tag : (w.store.var r).tag = .text) :
    (Site.mk (.ofRoom rounds (n + 2)) node scope file (.of (printing name))).act.exec w =
      (.error .wrongKind, w) := by
  let s : Site := ⟨.ofRoom rounds (n + 2), node, scope, file, .of (printing name)⟩
  have value : (s.valueOf name).exec w = (.error .wrongKind, w) := by
    change ((Evaluator.ofRoom rounds (n + 2)).valueOf scope name).exec w = _
    rw [exec_valueOf_identifier rounds n identifier found, Variable.reading, if_pos tag, content]
  change s.act.exec w = _
  rw [Site.exec_printing rfl identifier.newName.oneWord, Site.shown,
    Run.exec_bind_error w (Run.exec_bind_error w value)]

/-- What is printed is legible, and not nested beyond the levels that there are. -/
theorem legible_of_printed {d : Nat} (nests : w.store.Nests d (.list l))
    (printed : ((Site.mk (.ofRoom rounds (n + 2)) node scope file (.of (printing name))).act.exec
      w).1.isOk = true) :
    (w.store.var r).tag ≠ .text ∧ w.store.Legible (.list l) ∧
    w.store.Nests (2 * (n + 2)) (.list l) := by
  have tag : (w.store.var r).tag ≠ .text := by
    intro tag
    rw [exec_printing_text rounds n identifier found content tag] at printed
    cases printed
  refine ⟨tag, ?_⟩
  rw [exec_printing_list rounds n identifier found content tag] at printed
  cases shown : w.store.showItem (2 * (n + 2)) [] (.bare (.list l)) with
  | error fault =>
    rw [shown] at printed
    cases printed
  | ok text =>
    have nothing : w.store.Above d [] := fun _ member => absurd member List.not_mem_nil
    obtain ⟨legible, fits⟩ := Store.legibleItem_of_showItem shown nests nothing
    exact ⟨Store.legibleItem_bare.mp legible, fits⟩

/-- What is legible and not nested too deeply is printed. -/
theorem printed_of_legible {d : Nat} (nests : w.store.Nests d (.list l))
    (tag : (w.store.var r).tag ≠ .text) (legible : w.store.Legible (.list l)) (fits : d < n + 2) :
    ∃ text, (Site.mk (.ofRoom rounds (n + 2)) node scope file (.of (printing name))).act.exec w =
      (.ok .done, { w with printed := text :: w.printed }) := by
  obtain ⟨text, shown⟩ : ∃ text, w.store.showItem (2 * (n + 2)) [] (.bare (.list l)) = .ok text :=
    (Store.legibleItem_bare.mpr legible).exists_showItem nests (by omega)
  refine ⟨Spelled.unquote text, ?_⟩
  rw [exec_printing_list rounds n identifier found content tag, shown]
  rfl

end Printing

/-- A variable holds a list of texts and integers, nested to a depth of at most `d`, and is printed.
If this succeeds, the variable was not made for text, every variable in the list that was made for a
list holds a text or a list without bare integers and bare lists, and the depth is at most twice the
levels that there are. If the first two hold and the depth is less than the levels that there are,
it succeeds, prints one piece and changes nothing else. And if an integer is appended to a list that
is also held by a variable in the list, then the list can be printed no more. -/
theorem printed_list_legible (rounds n : Nat) (enough : 2 ≤ n) (w : World)
    (closed : w.store.Closed) (scope : Ref .scope) (held : w.store.Has scope.cell)
    (node : Ref .node) (file name : Text) (identifier : Identifier name) (owner : Ref .scope)
    (r : Ref .variable) (found : w.store.resolve scope name = some (owner, r)) (l : Ref .list)
    (content : (w.store.var r).content = .list l) (d : Nat) (nests : w.store.Nests d (.list l)) :
    let run := fun line => (Site.mk (.ofRoom rounds n) node scope file (.of line)).act.exec
    ((run (printing name) w).1.isOk = true →
      (w.store.var r).tag ≠ .text ∧ w.store.Legible (.list l) ∧ w.store.Nests (2 * n) (.list l)) ∧
    ((w.store.var r).tag ≠ .text → w.store.Legible (.list l) → d < n →
      ∃ text, run (printing name) w = (.ok .done, { w with printed := text :: w.printed })) ∧
    ∀ (q : Ref .variable) (k : Ref .list), w.store.Inside (.list l) (.held q) →
      (w.store.var q).tag = .list →
      (w.store.var q).content = .list k → ∀ other place p, Identifier other →
        w.store.resolve scope other = some (place, p) →
      (w.store.var p).content = .list k → ∀ text i, Denotes text (.int i) → ' ' ∉ text →
        i.natAbs < Number.tenTo Number.digitLimit →
      ∃ later, run (appending other text) w = (.ok .done, later) ∧
      (run (printing name) later).1.isOk = false := by
  obtain ⟨n, rfl⟩ := Nat.exists_eq_add_of_le' enough
  refine ⟨legible_of_printed rounds n identifier found content nests,
    printed_of_legible rounds n identifier found content nests, ?_⟩
  intro q k inside tag holds other place p named meant shares text i denotes oneWord few
  let later : World := { w with store := w.store.push k (.int i) }
  have value : ((Evaluator.ofRoom rounds (n + 2)).valueOf scope (text.before ' ')).exec w =
      (.ok (.int i), w) := by
    rw [Text.before_of_not_mem oneWord]
    exact denotes.exec_valueOf rounds n scope w
  have appended := Site.exec_appending
    (s := ⟨.ofRoom rounds (n + 2), node, scope, file, .of (appending other text)⟩) rfl
    named.newName.oneWord named.newName.single value meant shares
  refine ⟨later, appended, ?_⟩
  rw [← Bool.not_eq_true]
  intro printed
  have known : w.store.Has k.cell := by
    have all := closed.content (closed.resolve held meant).2
    rw [shares] at all
    exact all _ List.mem_cons_self
  have found : later.store.resolve scope name = some (owner, r) := by
    rw [Store.resolve_push, found]
  obtain ⟨_, legible, _⟩ := legible_of_printed rounds n identifier found content
    (nests.push k (fun e => .int e i few) (by simp)) printed
  have joinable := legible q (inside.push k _) tag
  change later.store.Joinable (w.store.var q).content at joinable
  rw [holds] at joinable
  cases joinable with
  | list texts =>
    have last : Item.bare (.int i) ∈ (later.store.list k).toList := by
      change _ ∈ ((w.store.push k (.int i)).list k).toList
      rw [Store.list_push_here k _ known]
      simp
    obtain ⟨s, same⟩ := texts _ last
    cases same

@[irreducible] def Store.nested : Store where
  scopes := ⟨#[{ parent := none, table := ⟨0⟩ }]⟩
  tables := ⟨#[[(['y'], ⟨0⟩), (['x'], ⟨1⟩)]]⟩
  vars := ⟨#[{ name := some ['y'], home := some ⟨0⟩, content := .list ⟨0⟩, tag := .list },
    { name := some ['x'], home := some ⟨0⟩, content := .list ⟨1⟩, tag := .list },
    { name := some nameless, home := some ⟨0⟩, content := .list ⟨0⟩, tag := .list }]⟩
  lists := ⟨#[#[.bare (.text ['a'])], #[.held ⟨2⟩]]⟩

private theorem Store.nested_nests : nested.Nests 2 (.list ⟨1⟩) := by
  have outer : (nested.list ⟨1⟩).toList = [.held ⟨2⟩] := by unfold nested; rfl
  have content : (nested.var ⟨2⟩).content = .list ⟨0⟩ := by unfold nested; rfl
  have inner : (nested.list ⟨0⟩).toList = [.bare (.text ['a'])] := by unfold nested; rfl
  refine .list fun item member => ?_
  rw [outer, List.mem_singleton] at member
  subst member
  change nested.Nests 1 (nested.var ⟨2⟩).content
  rw [content]
  refine .list fun item member => ?_
  rw [inner, List.mem_singleton] at member
  subst member
  exact .text 0 _

/-- The list `x` is printed, and after a number is appended to `y` it cannot be printed any more. -/
theorem printed_list_legible_nested :
    let run := fun line => (Site.mk (.ofRoom 0 3) ⟨0⟩ ⟨0⟩ [] (.of line)).act.exec
    (run (printing ['x']) { store := Store.nested }).1.isOk = true ∧
      ∃ later, run (appending ['y'] ['1']) { store := Store.nested } = (.ok .done, later) ∧
      (run (printing ['x']) later).1.isOk = false := by
  have letter : ∀ c ∈ ['x', 'y'], Identifier [c] := by
    intro c member
    rcases List.mem_pair.mp member with rfl |
      rfl <;> exact ⟨by decide, by simp, by decide, by decide, by decide⟩
  have content : (Store.nested.var ⟨1⟩).content = .list ⟨1⟩ := by unfold Store.nested; rfl
  have inner : (Store.nested.var ⟨2⟩).content = .list ⟨0⟩ := by unfold Store.nested; rfl
  have shared : (Store.nested.var ⟨0⟩).content = .list ⟨0⟩ := by unfold Store.nested; rfl
  have outerItems : (Store.nested.list ⟨1⟩).toList = [.held ⟨2⟩] := by unfold Store.nested; rfl
  have innerItems : (Store.nested.list ⟨0⟩).toList = [.bare (.text ['a'])] := by
    unfold Store.nested; rfl
  obtain ⟨_, printed, lost⟩ :=
    printed_list_legible 0 3 (by decide) { store := Store.nested } (by decide +kernel) ⟨0⟩
      (by decide +kernel)
    ⟨0⟩ [] ['x'] (letter _ (by simp)) ⟨0⟩ ⟨1⟩ (by decide +kernel) ⟨1⟩ content 2 Store.nested_nests
  have texts : Store.nested.Joinable (.list ⟨0⟩) := by
    refine .list fun v member => ?_
    rw [innerItems, List.mem_singleton] at member
    exact ⟨['a'], Item.bare.inj member⟩
  have legible : Store.nested.Legible (.list ⟨1⟩) := by
    rw [Store.legible_list_iff, outerItems]
    intro item member
    obtain rfl := List.mem_singleton.mp member
    refine ⟨fun r same _ => ?_, ?_⟩
    · cases same
      rw [inner]
      exact texts
    · change Store.nested.Legible (Store.nested.var ⟨2⟩).content
      rw [inner, Store.legible_list_iff, innerItems]
      intro item member
      obtain rfl := List.mem_singleton.mp member
      exact Store.legibleItem_bare.mpr (Store.legible_of_no_list (by simp))
  obtain ⟨text, shown⟩ := printed (by decide +kernel) legible (by decide)
  refine ⟨congrArg (fun ran => ran.1.isOk) shown, lost ⟨2⟩ ⟨0⟩ (.element (by rw [outerItems]; simp))
    (by decide +kernel) inner ['y'] ⟨0⟩ ⟨0⟩ (letter _ (by simp))
    (by decide +kernel) shared ['1'] 1 (.int (by decide)) (by decide) (by decide +kernel)⟩

end CommandScript

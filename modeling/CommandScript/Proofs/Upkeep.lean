import CommandScript.Statement.Run
import CommandScript.Proofs.Cloning
import CommandScript.Proofs.Exec

/-! Rules for what runs keep. A run is tame if from a closed store it comes to a closed store with
at least the same cells, and sound if from a described one it also comes to a described one. -/
namespace CommandScript

namespace Run

variable {α β : Type} {st : Store} {x : Run α} {f : α → Run β} {post : α → Store → Prop}
  {last : β → Store → Prop}

/-- From a store, a run that gives a result comes to a closed store with at least the same cells. -/
def Tame (st : Store) (x : Run α) (post : α → Store → Prop) : Prop :=
  ∀ w a later, w.store = st → x.exec w = (.ok a, later) → st.Grows later.store ∧
  later.store.Closed ∧ post a later.store

/-- A tame run that keeps a described store described. -/
structure Sound (st : Store) (x : Run α) (post : α → Store → Prop) : Prop where
  tame : x.Tame st post
  kept : ∀ w a later, w.store = st → x.exec w = (.ok a, later) → st.Described →
    later.store.Described

def Silent (x : Run α) : Prop := ∀ w, (x.exec w).2.store = w.store

theorem Silent.same (quiet : x.Silent) {w later : World} {a : α} (ok : x.exec w = (.ok a, later)) :
    later.store = w.store := by
  rw [← quiet w, ok]

namespace Tame

theorem mono {weaker : α → Store → Prop} (tame : x.Tame st post)
    (imp : ∀ a later, later.Closed → post a later → weaker a later) : x.Tame st weaker := by
  intro w a later same ok
  obtain ⟨grows, closed, given⟩ := tame w a later same ok
  exact ⟨grows, closed, imp a _ closed given⟩

theorem bind (first : x.Tame st post)
    (next : ∀ a later, later.Closed → st.Grows later → post a later → (f a).Tame later last) :
    (x >>= f).Tame st last := by
  intro w b later same ok
  obtain ⟨a, middle, ran, rest⟩ := exec_bind_inv w ok
  obtain ⟨grows, closed, given⟩ := first w a middle same ran
  obtain ⟨further, closed, given⟩ := next a _ closed grows given middle b later rfl rest
  exact ⟨grows.trans further, closed, given⟩

theorem silent (closed : st.Closed) (quiet : x.Silent) : x.Tame st fun _ later => later = st := by
  intro w a later same ok
  rw [quiet.same ok, same]
  exact ⟨.refl _, closed, rfl⟩

theorem pure {a : α} (closed : st.Closed) (given : post a st) :
    (Pure.pure a : Run α).Tame st post := by
  intro w b later same ok
  subst same
  cases ok
  exact ⟨.refl _, closed, given⟩

theorem throw (e : Fault) : (throw e : Run α).Tame st post := fun _ _ _ _ ok => nomatch ok

theorem after_silent (closed : st.Closed) (quiet : x.Silent) (next : ∀ a, (f a).Tame st last) :
    (x >>= f).Tame st last :=
  (silent closed quiet).bind fun a _ _ _ same => same ▸ next a

theorem reads_bind {e : Except Fault α} (looks : ∀ w, w.store = st → x.exec w = (e, w))
    (next : ∀ a, e = .ok a → (f a).Tame st last) : (x >>= f).Tame st last := by
  intro w b later same ok
  obtain ⟨a, middle, ran, rest⟩ := exec_bind_inv w ok
  rw [looks w same] at ran
  cases ran
  exact next a rfl w b later same rest

theorem getStore_bind {f : Store → Run β} (next : (f st).Tame st last) :
    (Run.getStore >>= f).Tame st last :=
  reads_bind (fun w same => by rw [← same]; rfl) fun _ known => Except.ok.inj known ▸ next

theorem ofExcept_bind {e : Except Fault α} (next : ∀ a, e = .ok a → (f a).Tame st last) :
    (Run.ofExcept e >>= f).Tame st last :=
  reads_bind (fun w _ => by cases e <;> rfl) next

theorem readVariable_bind {r : Ref .variable} {f : Value → Run β}
    (next : ∀ v, (st.var r).reading = .ok v → (f v).Tame st last) :
    (readVariable r >>= f).Tame st last :=
  reads_bind (fun w same => by rw [exec_readVariable, same]) next

theorem heldItem_bind {item : Item} {f : Ref .variable → Run β}
    (next : ∀ r, item = .held r → (f r).Tame st last) : (heldItem item >>= f).Tame st last := by
  cases item with
  | bare v =>
    exact reads_bind (e := .error .missingPart) (fun _ _ => rfl) fun _ known => nomatch known
  | held r =>
    exact reads_bind (e := .ok r) (fun _ _ => rfl) fun _ known => Except.ok.inj known ▸ next r rfl

theorem get_bind {f : World → Run β} (next : ∀ w, w.store = st → (f w).Tame st last) :
    (get >>= f).Tame st last :=
  fun w b later same ok => next w same w b later same ok

theorem ofExcept {e : Except Fault α} (closed : st.Closed) (given : ∀ a, e = .ok a → post a st) :
    (Run.ofExcept e).Tame st post := by
  cases e with
  | ok a => exact pure closed (given a rfl)
  | error fault => exact throw fault

theorem changeStore {change : Store → Store} {post : Unit → Store → Prop}
    (grows : st.Grows (change st)) (closed : (change st).Closed) (given : post () (change st)) :
    (Run.changeStore change).Tame st post := by
  intro w a later same ok
  subst same
  cases ok
  exact ⟨grows, closed, given⟩

theorem changeStore_bind {change : Store → Store} {f : Unit → Run β}
    (grows : st.Grows (change st)) (closed : (change st).Closed)
    (next : (f ()).Tame (change st) last) : (Run.changeStore change >>= f).Tame st last :=
  have changed : (Run.changeStore change).Tame st fun _ later => later = change st :=
    changeStore grows closed rfl
  changed.bind fun _ _ _ _ same => same ▸ next

theorem nth_bind {xs : List α} {i : Nat} (next : ∀ a ∈ xs, (f a).Tame st last) :
    (Run.nth xs i >>= f).Tame st last := by
  unfold Run.nth
  split
  · next a found => exact next a (List.mem_of_getElem? found)
  · exact throw _

theorem alloc_bind {k : Kind} {make : Store → Ref k × Store} {f : Ref k → Run β}
    (grows : st.Grows (make st).2) (closed : (make st).2.Closed)
    (next : (f (make st).1).Tame (make st).2 last) : (Run.alloc make >>= f).Tame st last := by
  intro w b later same ok
  subst same
  obtain ⟨further, closedLater, given⟩ := next { w with store := (make w.store).2 } b later rfl ok
  exact ⟨grows.trans further, closedLater, given⟩

end Tame

namespace Sound

theorem mono {weaker : α → Store → Prop} (sound : x.Sound st post)
    (imp : ∀ a later, later.Closed → post a later → weaker a later) :
    x.Sound st weaker := ⟨sound.tame.mono imp, sound.kept⟩

/-- What is known of the results of a run can be added to what it comes to. -/
theorem and {known : α → Store → Prop} (sound : x.Sound st post)
    (given : ∀ w a later, w.store = st → x.exec w = (.ok a, later) → known a later.store) :
    x.Sound st fun a later => post a later ∧ known a later := by
  refine ⟨fun w a later same ok => ?_, sound.kept⟩
  obtain ⟨grows, closed, before⟩ := sound.tame w a later same ok
  exact ⟨grows, closed, before, given w a later same ok⟩

/-- What follows may rely on the store being described where it begins. -/
theorem bind_described (first : x.Sound st post)
    (tame : ∀ a later, later.Closed → st.Grows later → post a later → (f a).Tame later last)
    (next : ∀ a later, later.Closed → st.Grows later → post a later → later.Described →
      (f a).Sound later last) :
    (x >>= f).Sound st last := by
  refine ⟨first.tame.bind tame, ?_⟩
  intro w b later same ok described
  obtain ⟨a, middle, ran, rest⟩ := exec_bind_inv w ok
  obtain ⟨grows, closed, given⟩ := first.tame w a middle same ran
  have still := first.kept w a middle same ran described
  exact (next a _ closed grows given still).kept middle b later rfl rest still

theorem bind (first : x.Sound st post)
    (next : ∀ a later, later.Closed → st.Grows later → post a later → (f a).Sound later last) :
    (x >>= f).Sound st last :=
  first.bind_described (fun a later closed grows given => (next a later closed grows given).tame)
    fun a later closed grows given _ => next a later closed grows given

theorem pure {a : α} (closed : st.Closed) (given : post a st) :
    (Pure.pure a : Run α).Sound st post := by
  refine ⟨Tame.pure closed given, ?_⟩
  intro w b later same ok described
  subst same
  cases ok
  exact described

theorem throw (e : Fault) : (throw e : Run α).Sound st post :=
  ⟨Tame.throw e, fun _ _ _ _ ok => nomatch ok⟩

/-- A run may rely on the store being described where it begins. -/
theorem of_described (tame : x.Tame st post) (sound : st.Described → x.Sound st post) :
    x.Sound st post :=
  ⟨tame, fun w a later same ok described => (sound described).kept w a later same ok described⟩

theorem silent (closed : st.Closed) (quiet : x.Silent) : x.Sound st fun _ later => later = st := by
  refine ⟨Tame.silent closed quiet, ?_⟩
  intro w a later same ok described
  rw [quiet.same ok, same]
  exact described

theorem after_silent (closed : st.Closed) (quiet : x.Silent) (next : ∀ a, (f a).Sound st last) :
    (x >>= f).Sound st last :=
  (silent closed quiet).bind fun a _ _ _ same => same ▸ next a

/-- A run that only looks at the store. -/
theorem reads {e : Except Fault α} (closed : st.Closed)
    (looks : ∀ w, w.store = st → x.exec w = (e, w)) (given : ∀ a, e = .ok a → post a st) :
    x.Sound st post := by
  constructor
  · intro w a later same ok
    rw [looks w same] at ok
    cases ok
    rw [same]
    exact ⟨.refl _, closed, given a rfl⟩
  · intro w a later same ok described
    rw [looks w same] at ok
    cases ok
    rw [same]
    exact described

theorem reads_bind {e : Except Fault α} (looks : ∀ w, w.store = st → x.exec w = (e, w))
    (next : ∀ a, e = .ok a → (f a).Sound st last) : (x >>= f).Sound st last := by
  refine ⟨Tame.reads_bind looks fun a known => (next a known).tame, ?_⟩
  intro w b later same ok described
  obtain ⟨a, middle, ran, rest⟩ := exec_bind_inv w ok
  rw [looks w same] at ran
  cases ran
  exact (next a rfl).kept w b later same rest described

theorem throw_bind (fault : Fault) : ((MonadExcept.throw fault : Run α) >>= f).Sound st last :=
  reads_bind (e := .error fault) (fun _ _ => rfl) fun _ known => nomatch known

theorem getStore_bind {f : Store → Run β} (next : (f st).Sound st last) :
    (Run.getStore >>= f).Sound st last :=
  reads_bind (fun w same => by rw [← same]; rfl) fun _ known => Except.ok.inj known ▸ next

theorem ofExcept_bind {e : Except Fault α} (next : ∀ a, e = .ok a → (f a).Sound st last) :
    (Run.ofExcept e >>= f).Sound st last :=
  reads_bind (fun w _ => by cases e <;> rfl) next

theorem readVariable_bind {r : Ref .variable} {f : Value → Run β}
    (next : ∀ v, (st.var r).reading = .ok v → (f v).Sound st last) :
    (readVariable r >>= f).Sound st last :=
  reads_bind (fun w same => by rw [exec_readVariable, same]) next

theorem heldItem_bind {item : Item} {f : Ref .variable → Run β}
    (next : ∀ r, item = .held r → (f r).Sound st last) : (heldItem item >>= f).Sound st last := by
  cases item with
  | bare v =>
    exact reads_bind (e := .error .missingPart) (fun _ _ => rfl) fun _ known => nomatch known
  | held r =>
    exact reads_bind (e := .ok r) (fun _ _ => rfl) fun _ known => Except.ok.inj known ▸ next r rfl

theorem changeStore {change : Store → Store} {post : Unit → Store → Prop}
    (grows : st.Grows (change st)) (closed : (change st).Closed)
    (described : st.Described → (change st).Described) (given : post () (change st)) :
    (Run.changeStore change).Sound st post := by
  refine ⟨Tame.changeStore grows closed given, ?_⟩
  intro w a later same ok before
  subst same
  cases ok
  exact described before

theorem alloc {k : Kind} {make : Store → Ref k × Store} {post : Ref k → Store → Prop}
    (grows : st.Grows (make st).2) (closed : (make st).2.Closed)
    (described : st.Described → (make st).2.Described) (given : post (make st).1 (make st).2) :
    (Run.alloc make).Sound st post := by
  constructor
  · intro w a later same ok
    subst same
    cases ok
    exact ⟨grows, closed, given⟩
  · intro w a later same ok before
    subst same
    cases ok
    exact described before

theorem changeStore_bind {change : Store → Store} {f : Unit → Run β} (grows : st.Grows (change st))
    (closed : (change st).Closed) (described : st.Described → (change st).Described)
    (next : (f ()).Sound (change st) last) : (Run.changeStore change >>= f).Sound st last :=
  have changed : (Run.changeStore change).Sound st fun _ later => later = change st :=
    changeStore grows closed described rfl
  changed.bind fun _ _ _ _ same => same ▸ next

theorem alloc_bind {k : Kind} {make : Store → Ref k × Store} {f : Ref k → Run β}
    (grows : st.Grows (make st).2) (closed : (make st).2.Closed)
    (described : st.Described → (make st).2.Described)
    (next : (f (make st).1).Sound (make st).2 last) : (Run.alloc make >>= f).Sound st last := by
  have made : (Run.alloc make).Sound st fun r later => r = (make st).1 ∧ later = (make st).2 :=
    alloc grows closed described ⟨rfl, rfl⟩
  refine made.bind ?_
  rintro _ _ _ _ ⟨rfl, rfl⟩
  exact next

theorem forM {f : α → Run PUnit} (xs : List α) (closed : st.Closed)
    (each : ∀ a later, later.Closed → st.Grows later → (f a).Sound later fun _ _ => True) :
    (xs.forM f).Sound st fun _ _ => True := by
  induction xs generalizing st with
  | nil => exact pure closed trivial
  | cons a rest ih =>
    change (f a >>= fun _ => rest.forM f).Sound st _
    refine (each a st closed (.refl _)).bind ?_
    intro _ later closed grows _
    exact ih closed fun a last closed further => each a last closed (grows.trans further)

theorem mapM {f : α → Run β} {good : β → Store → Prop}
    (stable : ∀ b st later, Store.Grows st later → good b st → good b later) (xs : List α)
    (closed : st.Closed)
    (each : ∀ a later, later.Closed → st.Grows later → (f a).Sound later good) :
    (xs.mapM f).Sound st fun bs later => ∀ b ∈ bs, good b later := by
  induction xs generalizing st with
  | nil => exact pure closed fun _ member => absurd member List.not_mem_nil
  | cons a rest ih =>
    rw [List.mapM_cons]
    refine (each a st closed (.refl _)).bind ?_
    intro b middle closed grows here
    refine (ih closed fun a last closed further => each a last closed (grows.trans further)).bind ?_
    intro bs later closed further others
    refine pure closed fun c member => ?_
    rcases List.mem_cons.mp member with rfl | inside
    · exact stable _ _ _ further here
    · exact others c inside

end Sound

/-! ### Runs that leave the store alone -/

namespace Silent

theorem pure (a : α) : (Pure.pure a : Run α).Silent := fun _ => rfl

theorem throw (e : Fault) : (throw e : Run α).Silent := fun _ => rfl

theorem bind (first : x.Silent) (next : ∀ a, (f a).Silent) : (x >>= f).Silent := by
  intro w
  have before := first w
  rw [exec_bind]
  rcases ran : x.exec w with ⟨_ | a, middle⟩
  · rw [ran] at before
    exact before
  · rw [ran] at before
    exact (next a middle).trans before

theorem tryCatch {handle : Fault → Run α} (first : x.Silent) (next : ∀ e, (handle e).Silent) :
    (tryCatch x handle).Silent := by
  intro w
  have before := first w
  rw [exec_tryCatch]
  rcases ran : x.exec w with ⟨e | _, middle⟩
  · rw [ran] at before
    exact (next e middle).trans before
  · rw [ran] at before
    exact before

theorem ofExcept (e : Except Fault α) : (Run.ofExcept e).Silent := by
  cases e with
  | ok a => exact pure a
  | error fault => exact throw fault

theorem get : (get : Run World).Silent := fun _ => rfl

theorem print (text : Text) : (Run.print text).Silent := fun _ => rfl

theorem nth (xs : List α) (i : Nat) : (Run.nth xs i).Silent := by
  unfold Run.nth
  split
  · exact pure _
  · exact throw _

theorem draw : Run.draw.Silent := by
  intro w
  rw [Run.draw, exec_bind_ok w (exec_get w)]
  cases w.draws <;> rfl

theorem readLine : Run.readLine.Silent := by
  intro w
  rw [Run.readLine, exec_bind_ok w (exec_get w)]
  match w.input.lines with
  | [] => rfl
  | some line :: rest => rfl
  | none :: rest => rfl

theorem readFile (name : Text) : (Run.readFile name).Silent := get.bind fun _ => ofExcept _

theorem writeFile (name content : Text) : (Run.writeFile name content).Silent :=
  get.bind fun _ => (ofExcept _).bind fun _ _ => rfl

theorem expand (s : Text) : (Literal.expand s).Silent := by
  unfold Literal.expand
  split
  · refine tryCatch (readLine.bind fun _ => pure _) fun e => ?_
    split
    · exact pure _
    · exact throw _
  · split
    · exact pure _
    · exact pure _

end Silent

end Run

end CommandScript

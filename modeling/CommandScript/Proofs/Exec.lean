import CommandScript.Eval.Literal

/-! What runs do, step by step: the equations by which a run is opened, one for each way in which
runs are put together. -/
namespace CommandScript.Run

variable {α β : Type} (w : World)

theorem exec_bind (x : Run α) (f : α → Run β) :
    (x >>= f).exec w = match x.exec w with
      | (.ok a, after) => (f a).exec after
      | (.error e, after) => (.error e, after) := by
  change (ExceptT.bindCont f (x.exec w).1) (x.exec w).2 = _
  rcases x.exec w with ⟨_ | _, _⟩
  · rfl
  · rfl

theorem exec_bind_ok {x : Run α} {f : α → Run β} {a : α} {after : World}
    (ok : x.exec w = (.ok a, after)) : (x >>= f).exec w = (f a).exec after := by
  rw [exec_bind, ok]

theorem exec_bind_error {x : Run α} {f : α → Run β} {e : Fault} {after : World}
    (failed : x.exec w = (.error e, after)) : (x >>= f).exec w = (.error e, after) := by
  rw [exec_bind, failed]

/-- A run in two parts that gives a result has given one in each part. -/
theorem exec_bind_inv {x : Run α} {f : α → Run β} {b : β} {last : World}
    (ok : (x >>= f).exec w = (.ok b, last)) :
    ∃ a middle, x.exec w = (.ok a, middle) ∧ (f a).exec middle = (.ok b, last) := by
  rw [exec_bind] at ok
  rcases done : x.exec w with ⟨_ | a, middle⟩
  · rw [done] at ok
    simp at ok
  · rw [done] at ok
    exact ⟨a, middle, rfl, ok⟩

theorem exec_tryCatch (x : Run α) (handle : Fault → Run α) :
    (tryCatch x handle).exec w = match x.exec w with
      | (.ok a, after) => (.ok a, after)
      | (.error e, after) => (handle e).exec after := by
  unfold Run.exec
  rw [ExceptT.run_tryCatch, StateT.run_bind]
  rcases (ExceptT.run x).run w with ⟨_ | _, _⟩
  · rfl
  · rfl

@[simp] theorem exec_getStore : Run.getStore.exec w = (.ok w.store, w) := rfl

@[simp] theorem exec_get : (get : Run World).exec w = (.ok w, w) := rfl

@[simp] theorem exec_changeStore (f : Store → Store) :
    (Run.changeStore f).exec w = (.ok (), { w with store := f w.store }) := rfl

@[simp] theorem exec_readItem_bare (v : Value) : (readItem (.bare v)).exec w = (.ok v, w) := rfl

end CommandScript.Run

namespace CommandScript

theorem Spelled.inner_encloseSingle (s : Text) : inner s.encloseSingle = s := by
  simp [inner, Text.encloseSingle]

theorem Spelled.isQuoted_encloseSingle (s : Text) : isQuoted s.encloseSingle = true := by
  simp [isQuoted, Text.encloseSingle, Spells.spells, List.getLast?_cons]

theorem Spelled.inner_enclose (s : Text) : inner s.enclose = s := by
  simp [inner, Text.enclose]

theorem Spelled.isQuoted_enclose (s : Text) : isQuoted s.enclose = true := by
  simp [isQuoted, Text.enclose, Spells.spells, List.getLast?_cons]

theorem Variable.exec_read (x : Variable) (w : World) : x.read.exec w = (x.reading, w) := by
  unfold read
  cases x.reading <;> rfl

theorem Run.exec_readVariable (r : Ref .variable) (w : World) :
    (readVariable r).exec w = ((w.store.var r).reading, w) := Variable.exec_read _ w

def Literal.expandValue : Value → Run Value
  | .text s => do return .text (← Literal.expand s)
  | v => pure v

theorem evaluate_eq (ev : Evaluator) (home : Option (Ref .scope)) (item : Item) :
    evaluate ev home item =
      readItem item >>= fun v => Literal.expandValue v >>= fun v =>
        ev.bind home nameless true v >>= Variable.read := by
  unfold evaluate
  congr 1
  funext v
  cases v with
  | text s => simp only [Literal.expandValue, bind_assoc, pure_bind]
  | _ => simp only [Literal.expandValue, pure_bind]

end CommandScript

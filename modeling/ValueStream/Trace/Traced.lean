import ValueStream.Trace.Event

/-!
Results that remember what happened on the way to them.

`Traced α` is a value of `α` with the events reported while it was computed,
oldest first. Chaining two computations appends their events and threads the
value, so the value of a run never depends on its events (`value_bind`).
-/

namespace ValueStream.Trace

/-- A value and the events reported while it was computed, oldest first. -/
structure Traced (α : Type) where
  value : α
  events : List Event
  deriving DecidableEq

namespace Traced

def report (e : Event) : Traced Unit := ⟨(), [e]⟩

instance : Monad Traced where
  pure a := ⟨a, []⟩
  bind
    | ⟨a, es⟩, f =>
      match f a with
      | ⟨b, es'⟩ => ⟨b, es ++ es'⟩

variable {α β : Type}

@[simp] theorem value_pure (a : α) : (pure a : Traced α).value = a := rfl

@[simp] theorem events_pure (a : α) : (pure a : Traced α).events = [] := rfl

@[simp] theorem value_bind (x : Traced α) (f : α → Traced β) :
    (x >>= f).value = (f x.value).value := rfl

@[simp] theorem events_bind (x : Traced α) (f : α → Traced β) :
    (x >>= f).events = x.events ++ (f x.value).events := rfl

@[simp] theorem events_map (f : α → β) (x : Traced α) : (f <$> x).events = x.events :=
  List.append_nil _

@[simp] theorem events_report (e : Event) : (report e).events = [e] := rfl

/-- Two traced results agree when their values and their events do. -/
theorem ext' {x y : Traced α} (hv : x.value = y.value) (he : x.events = y.events) : x = y := by
  cases x; cases y; simp_all

instance : LawfulMonad Traced :=
  LawfulMonad.mk' Traced (fun _ => ext' rfl (List.append_nil _)) (fun _ _ => rfl)
    (fun _ _ _ => ext' rfl (List.append_assoc ..))

end Traced

end ValueStream.Trace

/-
  BimEditor.Proofs.Json.Outcome

  How statements about readers are put together. A computation ensures something of its result and
  something of its fault; both are followed through a sequence of steps by `Ensures.bind`. The other
  direction, that a reader does yield a certain result, is stated with `Yields`, which leaves out
  the evidence that a reading carries.
-/
import BimEditor.Json.Literal

namespace BimEditor.Json

open BimEditor.Text

section

variable {α β : Type} {good : α → Prop} {bad : Fault → Prop}

/-- `good` holds of the result of a computation, or `bad` of its fault. -/
inductive Ensures (good : α → Prop) (bad : Fault → Prop) : Except Fault α → Prop where
  | ok {a : α} : good a → Ensures good bad (.ok a)
  | error {e : Fault} : bad e → Ensures good bad (.error e)

namespace Ensures

theorem of_ok {a : α} (h : Ensures good bad (.ok a)) : good a := by
  cases h with
  | ok h => exact h

theorem of_error {e : Fault} (h : Ensures good bad (.error e)) : bad e := by
  cases h with
  | error h => exact h

/-- What a step ensures is what the next one may start from. -/
theorem bind {x : Except Fault α} {f : α → Except Fault β} {better : β → Prop}
    (h : Ensures good bad x) (hf : ∀ a, good a → Ensures better bad (f a)) :
    Ensures better bad (x >>= f) := by
  cases h with
  | ok h => exact hf _ h
  | error h => exact .error h

theorem mono {x : Except Fault α} {good' : α → Prop} {bad' : Fault → Prop}
    (h : Ensures good bad x) (hgood : ∀ a, good a → good' a) (hbad : ∀ e, bad e → bad' e) :
    Ensures good' bad' x := by
  cases h with
  | ok h => exact .ok (hgood _ h)
  | error h => exact .error (hbad _ h)

end Ensures

end

/-- The reader yields the value `a` and stops at `d`. -/
def Yields {α : Type} {c : Cursor} (x : Outcome α c) (a : α) (d : Cursor) : Prop :=
  ∃ h, x = .ok ⟨a, d, h⟩

section

variable {α β : Type} {c c' d e : Cursor} {a : α} {b : β}

theorem Yields.pure {h : d.rest.length < c.rest.length} :
    Yields (Pure.pure ⟨a, d, h⟩ : Outcome α c) a d :=
  ⟨h, rfl⟩

/-- A step that yields something leaves the steps behind it to do. -/
theorem Yields.bind {x : Outcome α c} {f : Reading α c → Outcome β c'} (h : Yields x a d)
    (hf : ∀ h, Yields (f ⟨a, d, h⟩) b e) : Yields (x >>= f) b e := by
  obtain ⟨hlt, rfl⟩ := h
  exact hf hlt

/-- A step that yields something is followed by steps that yield the rest. -/
theorem Yields.of_bind {x : Outcome α c} {f : Reading α c → Outcome β c'}
    (h : Yields (x >>= f) b e) : ∃ r, x = .ok r ∧ Yields (f r) b e := by
  cases x with
  | ok r => exact ⟨r, rfl, h⟩
  | error e =>
    obtain ⟨_, heq⟩ := h
    cases heq

theorem Yields.first {x : Outcome α c} {f : Reading α c → Outcome β c'}
    (h : Yields (x >>= f) b e) : ∃ a d, Yields x a d := by
  obtain ⟨r, hr, -⟩ := h.of_bind
  exact ⟨r.value, r.next, r.shorter, hr⟩

/-- The steps behind one that is known to yield `a` start where it stops. -/
theorem Yields.of_bind_of_yields {x : Outcome α c} {f : Reading α c → Outcome β c'}
    (h : Yields (x >>= f) b e) (hx : Yields x a d) : ∃ hlt, Yields (f ⟨a, d, hlt⟩) b e := by
  obtain ⟨hlt, rfl⟩ := hx
  exact ⟨hlt, h⟩

/-- A reader yields one value only. -/
theorem Yields.unique {x : Outcome α c} {a' : α} (h : Yields x a d) (h' : Yields x a' e) :
    a = a' := by
  obtain ⟨_, rfl⟩ := h
  obtain ⟨_, heq⟩ := h'
  injection heq with heq
  exact congrArg Reading.value heq

theorem Yields.next_unique {x : Outcome α c} {a' : α} (h : Yields x a d) (h' : Yields x a' e) :
    d = e := by
  obtain ⟨_, rfl⟩ := h
  obtain ⟨_, heq⟩ := h'
  injection heq with heq
  exact congrArg Reading.next heq

/-- A fault of two steps is one of the first, or one of the second behind a result of the first. -/
theorem bind_eq_error {ε : Type} {x : Except ε α} {f : α → Except ε β} {e : ε}
    (h : x >>= f = .error e) : x = .error e ∨ ∃ a, x = .ok a ∧ f a = .error e := by
  cases x with
  | ok a => exact .inr ⟨a, rfl, h⟩
  | error _ =>
    cases h
    exact .inl rfl

/-- If the second of two steps never fails, a fault is one of the first. -/
theorem first_eq_error {x : Except Fault α} {f : α → Except Fault β} {e : Fault}
    (h : x >>= f = .error e) (hf : ∀ a, ∃ b, f a = .ok b) : x = .error e := by
  rcases bind_eq_error h with h | ⟨a, -, ha⟩
  · exact h
  · obtain ⟨b, hb⟩ := hf a
    rw [hb] at ha
    cases ha

theorem ok_bind (a : α) (f : α → Except Fault β) : (Except.ok a >>= f) = f a := rfl

end

/-- The fault is a departure from the grammar, not a limit that was exceeded. -/
def Fault.IsMalformed : Fault → Prop
  | .malformed _ _ => True
  | .tooLarge _ _ => False
  | .tooDeep _ _ => False

end BimEditor.Json

/-
Views of a state. Two computations that may fail do the same under a view if they end the same way and the first one's
state, seen through the view, is the second one's state; a failure leaves a state behind just as an answer does. The
view need be true to fit states only. In addition, the first computation leads from every state to a later one, in an
order that keeps states fit.

Whatever follows a computation, on either way out, is put behind it by `handle`, so the lemma about `handle` is the one
that composes refinements.

- `View.Refines.handle`: what follows on either way out may be refined apart.
- `View.Refines.bind`: computations in turn refine computations in turn.
-/
import Scriptlet.Evaluation

namespace EStateM.Result

variable {ε σ τ α : Type}

def state : EStateM.Result ε σ α → σ
  | .ok _ s => s
  | .error _ s => s

def answer : EStateM.Result ε σ α → Except ε α
  | .ok a _ => .ok a
  | .error e _ => .error e

/-- the same ending with another state -/
def mapState (f : σ → τ) : EStateM.Result ε σ α → EStateM.Result ε τ α
  | .ok a s => .ok a (f s)
  | .error e s => .error e (f s)

@[simp] theorem answer_mapState (f : σ → τ) (r : EStateM.Result ε σ α) : (r.mapState f).answer = r.answer := by
  cases r <;> rfl

@[simp] theorem state_mapState (f : σ → τ) (r : EStateM.Result ε σ α) : (r.mapState f).state = f r.state := by
  cases r <;> rfl

end EStateM.Result

namespace Scriptlet

section Handling

variable {ε ε' σ α β : Type}

/-- goes on with the answer of a computation, or with its failure -/
def handle (x : EStateM ε σ α) (answered : α → EStateM ε' σ β) (failed : ε → EStateM ε' σ β) : EStateM ε' σ β :=
  fun s =>
  match x s with
  | .ok a t => answered a t
  | .error e t => failed e t

theorem bind_eq_handle (x : EStateM ε σ α) (f : α → EStateM ε σ β) : x >>= f = handle x f throw := by
  funext s
  rw [EStateM.bind_apply]
  rfl

theorem adaptExcept_eq_handle (x : EStateM ε σ α) (f : ε → ε') :
    x.adaptExcept f = handle x pure fun e => throw (f e) := by
  funext s
  rw [EStateM.adaptExcept_apply]
  rfl

end Handling

/-- what is seen of a state, the states for which that is enough, and the order in which states follow each other -/
structure View (σ τ : Type) where
  see : σ → τ
  fit : σ → Prop
  later : σ → σ → Prop
  refl : ∀ s, later s s
  trans : ∀ {s t u}, later s t → later t u → later s u
  fit_of_later : ∀ {s t}, later s t → fit s → fit t

namespace View

variable {ε ε' σ τ α β : Type} {V : View σ τ} {x : EStateM ε σ α} {y : EStateM ε τ α}

/-- under the view, `x` does what `y` does -/
structure Refines (V : View σ τ) (x : EStateM ε σ α) (y : EStateM ε τ α) : Prop where
  later : ∀ s, V.later s (x s).state
  seen : ∀ s, V.fit s → (x s).mapState V.see = y (V.see s)

theorem refines_pure (a : α) : V.Refines (pure a : EStateM ε σ α) (pure a) := ⟨fun s => V.refl s, fun _ _ => rfl⟩

theorem refines_throw (e : ε) : V.Refines (throw e : EStateM ε σ α) (throw e) := ⟨fun s => V.refl s, fun _ _ => rfl⟩

theorem Refines.handle {answered : α → EStateM ε' σ β} {answered' : α → EStateM ε' τ β} {failed : ε → EStateM ε' σ β}
    {failed' : ε → EStateM ε' τ β} (hx : V.Refines x y) (hanswered : ∀ a, V.Refines (answered a) (answered' a))
    (hfailed : ∀ e, V.Refines (failed e) (failed' e)) :
    V.Refines (handle x answered failed) (handle y answered' failed') := by
  constructor
  · intro s
    have hlater := hx.later s
    unfold Scriptlet.handle
    cases h : x s with
    | ok a t =>
      rw [h] at hlater
      exact V.trans hlater ((hanswered a).later t)
    | error e t =>
      rw [h] at hlater
      exact V.trans hlater ((hfailed e).later t)
  · intro s hs
    have hlater := hx.later s
    have hseen := hx.seen s hs
    unfold Scriptlet.handle
    rw [← hseen]
    cases h : x s with
    | ok a t =>
      rw [h] at hlater
      exact (hanswered a).seen t (V.fit_of_later hlater hs)
    | error e t =>
      rw [h] at hlater
      exact (hfailed e).seen t (V.fit_of_later hlater hs)

theorem Refines.bind {f : α → EStateM ε σ β} {g : α → EStateM ε τ β} (hx : V.Refines x y)
    (hf : ∀ a, V.Refines (f a) (g a)) : V.Refines (x >>= f) (y >>= g) := by
  rw [bind_eq_handle, bind_eq_handle]
  exact hx.handle hf fun e => refines_throw e

theorem Refines.adaptExcept (hx : V.Refines x y) (f : ε → ε') : V.Refines (x.adaptExcept f) (y.adaptExcept f) := by
  rw [adaptExcept_eq_handle, adaptExcept_eq_handle]
  exact hx.handle refines_pure fun e => refines_throw (f e)

end View

end Scriptlet

/-!
# Actions

An action on a state yields a value or fails, and leaves a state behind in both cases. This file
holds what does not depend on the state: how a sequence of two actions is taken apart, the
answer of an action and the state after it, and the repetition of an action as long as it
succeeds (`Reaches`).
-/

namespace Sm83

variable {ε σ α β : Type}

/-! ### Sequences -/

theorem bind_ok {x : EStateM ε σ α} {f : α → EStateM ε σ β} {s t : σ} {a : α}
    (h : x s = .ok a t) : (x >>= f) s = f a t := by
  change EStateM.bind x f s = _
  rw [EStateM.bind, h]

theorem bind_error {x : EStateM ε σ α} {f : α → EStateM ε σ β} {s t : σ} {e : ε}
    (h : x s = .error e t) : (x >>= f) s = .error e t := by
  change EStateM.bind x f s = _
  rw [EStateM.bind, h]

/-! ### Answers and states -/

/-- What an action answers: its value, or why it failed. -/
def answer : EStateM.Result ε σ α → Except ε α
  | .ok a _ => .ok a
  | .error e _ => .error e

/-- The state that an action leaves behind. -/
def stateAfter : EStateM.Result ε σ α → σ
  | .ok _ s | .error _ s => s

@[simp] theorem answer_ok (a : α) (s : σ) :
    answer (.ok a s : EStateM.Result ε σ α) = .ok a := rfl

@[simp] theorem answer_error (e : ε) (s : σ) :
    answer (.error e s : EStateM.Result ε σ α) = .error e := rfl

@[simp] theorem stateAfter_ok (a : α) (s : σ) :
    stateAfter (.ok a s : EStateM.Result ε σ α) = s := rfl

@[simp] theorem stateAfter_error (e : ε) (s : σ) :
    stateAfter (.error e s : EStateM.Result ε σ α) = s := rfl

/-! ### Repetition -/

/-- `Reaches act n s t`: the action succeeds `n` times in a row, the first time on `s`, and then
the state is `t`. -/
inductive Reaches (act : EStateM ε σ α) : Nat → σ → σ → Prop where
  | refl (s : σ) : Reaches act 0 s s
  | step {n : Nat} {s t u : σ} {a : α} (first : act s = .ok a t) (rest : Reaches act n t u) :
    Reaches act (n + 1) s u

end Sm83

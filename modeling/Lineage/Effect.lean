import Lineage.Fault
/-!
# Effects

A program changes a state step by step and may stop with a fault. What it did by then stays done:
nothing is taken back.
-/
namespace Lineage

/-- A program on a state that may stop halfway. -/
abbrev Effect (σ : Type) := EStateM Fault σ

namespace Effect

variable {σ : Type}

/-- Changes the state. -/
def change (f : σ → σ) : Effect σ Unit := modify f

/-- What a program leaves behind of a state. -/
def attempt (x : Effect σ Unit) (s : σ) : Attempt σ :=
  match x.run s with
  | .ok () s' => ⟨s', .ok ()⟩
  | .error f s' => ⟨s', .error f⟩

variable {s s' : σ} {f : Fault} {x y : Effect σ Unit}

@[simp] theorem attempt_pure (s : σ) : attempt (pure ()) s = ⟨s, .ok ()⟩ := rfl

@[simp] theorem attempt_change (g : σ → σ) (s : σ) : (change g).attempt s = ⟨g s, .ok ()⟩ := rfl

@[simp] theorem attempt_get_bind (x : σ → Effect σ Unit) (s : σ) :
    attempt (get >>= x) s = (x s).attempt s := rfl

@[simp] theorem attempt_change_bind (g : σ → σ) (s : σ) :
    attempt (change g >>= fun _ => y) s = y.attempt (g s) := rfl

theorem attempt_bind_of_ok (h : x.attempt s = ⟨s', .ok ()⟩) :
    attempt (x >>= fun _ => y) s = y.attempt s' := by
  unfold attempt at h ⊢
  rw [EStateM.run_bind]
  cases hx : x.run s <;> simp_all

/-- What stands behind a stop is not done. -/
theorem attempt_bind_of_error (h : x.attempt s = ⟨s', .error f⟩) :
    attempt (x >>= fun _ => y) s = ⟨s', .error f⟩ := by
  unfold attempt at h ⊢
  rw [EStateM.run_bind]
  cases hx : x.run s <;> simp_all

end Effect

/-- A call that either yields the next state or changes nothing. -/
def Attempt.keep {σ : Type} (s : σ) : Except Fault σ → Attempt σ
  | .ok s' => ⟨s', .ok ()⟩
  | .error f => ⟨s, .error f⟩

theorem Attempt.state_of_toExcept {σ : Type} {a : Attempt σ} {s : σ}
    (h : a.toExcept = .ok s) : a.state = s := by
  unfold Attempt.toExcept at h
  split at h
  · exact Except.ok.inj h
  · cases h

/-- What fails so has kept the state. -/
theorem Attempt.state_of_keep {σ : Type} {s : σ} {r : Except Fault σ} {f : Fault}
    (h : (Attempt.keep s r).result = .error f) : (Attempt.keep s r).state = s := by
  cases r with
  | error g => rfl
  | ok s' => cases h

end Lineage

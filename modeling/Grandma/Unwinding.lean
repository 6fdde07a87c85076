import Mathlib.Logic.Basic

/-!
# What a machine shows

Part of a machine's state, and part of what it is asked, may not matter to an
observer. If one step does not bring the hidden part into its answer, nor into
what can be seen of the next state, then no run does: two runs that differ in
hidden parts alone give the same answers.
-/

set_option autoImplicit false

namespace Grandma.Unwinding

variable {σ τ β γ ρ : Type*}

def answers (step : σ → γ → ρ × σ) : List γ → σ → List ρ
  | [], _ => []
  | c::cs, s => (step s c).1::answers step cs (step s c).2

def final (step : σ → γ → ρ × σ) : List γ → σ → σ
  | [], s => s
  | c::cs, s => final step cs (step s c).2

def Hides (step : σ → γ → ρ × σ) (view : σ → τ) (asked : γ → β) : Prop :=
  ∀ s t c d, view s = view t → asked c = asked d →
    (step s c).1 = (step t d).1 ∧ view (step s c).2 = view (step t d).2

theorem run_hides (step : σ → γ → ρ × σ) (view : σ → τ) (asked : γ → β)
    (h : Hides step view asked) (cs ds : List γ) (s t : σ) (hview : view s = view t)
    (hasked : cs.map asked = ds.map asked) :
    answers step cs s = answers step ds t ∧ view (final step cs s) = view (final step ds t) := by
  induction cs generalizing ds s t with
  | nil =>
    rw [List.map_nil, eq_comm, List.map_eq_nil_iff] at hasked
    rw [hasked]
    exact ⟨rfl,hview⟩
  | cons c cs ih =>
    cases ds with
    | nil => cases hasked
    | cons d ds =>
      rw [List.map_cons, List.map_cons, List.cons.injEq] at hasked
      obtain ⟨hanswer,hnext⟩ := h s t c d hview hasked.1
      obtain ⟨hrest,hlast⟩ := ih ds _ _ hnext hasked.2
      exact ⟨by rw [answers, answers, hanswer, hrest],hlast⟩

end Grandma.Unwinding

import Mathlib.Tactic

/-!
# Traversals that carry a state

A list is visited in order; every visit yields a value and may change a state
that the next visit sees.
-/

set_option autoImplicit false

namespace Grandma.Traversal

variable {α β γ σ : Type*}

def traverse (f : α → σ → β × σ) : List α → σ → List β × σ
  | [], s => ([],s)
  | a::as, s =>
    let (b,s) := f a s
    let (bs,s) := traverse f as s
    (b::bs,s)

def stateAt (f : α → σ → β × σ) : List α → σ → ℕ → σ
  | [], s, _ => s
  | _::_, s, 0 => s
  | a::as, s, i+1 => stateAt f as (f a s).2 i

theorem traverse_get (f : α → σ → β × σ) (as : List α) (s : σ) (i : ℕ) :
    (traverse f as s).1[i]? = as[i]?.map (fun a => (f a (stateAt f as s i)).1) := by
  induction as generalizing s i with
  | nil => simp [traverse]
  | cons a as ih =>
    cases i with
    | zero => simp [traverse, stateAt]
    | succ i => simpa [traverse, stateAt] using ih (f a s).2 i

theorem traverse_length (f : α → σ → β × σ) (as : List α) (s : σ) :
    (traverse f as s).1.length = as.length := by
  induction as generalizing s with
  | nil => rfl
  | cons a as ih => simp [traverse, ih]

theorem traverse_append (f : α → σ → β × σ) (as bs : List α) (s : σ) :
    traverse f (as++bs) s =
      ((traverse f as s).1++(traverse f bs (traverse f as s).2).1,
        (traverse f bs (traverse f as s).2).2) := by
  induction as generalizing s with
  | nil => simp [traverse]
  | cons a as ih => simp [traverse, ih]

theorem traverse_map (f : β → σ → γ × σ) (g : α → β) (as : List α) (s : σ) :
    traverse f (as.map g) s = traverse (fun a => f (g a)) as s := by
  induction as generalizing s with
  | nil => rfl
  | cons a as ih => simp only [List.map_cons, traverse, ih]

theorem traverse_values (f : α → σ → β × σ) (g : β → γ) (as : List α) (s : σ) :
    traverse (fun a s => (g (f a s).1,(f a s).2)) as s =
      ((traverse f as s).1.map g,(traverse f as s).2) := by
  induction as generalizing s with
  | nil => rfl
  | cons a as ih => simp only [traverse, ih, List.map_cons]

theorem traverse_nested (g : α → List γ) (f : α → γ → σ → β × σ) (as : List α) (s : σ) :
    ((traverse (fun a => traverse (f a) (g a)) as s).1.flatten,
        (traverse (fun a => traverse (f a) (g a)) as s).2) =
      traverse (fun p : α × γ => f p.1 p.2) (as.flatMap (fun a => (g a).map (fun c => (a,c)))) s := by
  induction as generalizing s with
  | nil => rfl
  | cons a as ih =>
    rw [List.flatMap_cons, traverse_append, traverse_map, ← ih]
    rfl

theorem traverse_still (f : α → σ → β × σ) (v : α → β) (as : List α) (s : σ)
    (h : ∀ a ∈ as, f a s = (v a,s)) : traverse f as s = (as.map v,s) := by
  induction as with
  | nil => rfl
  | cons a as ih =>
    rw [traverse, h a (by simp)]
    simp only [ih (fun b hb => h b (by simp [hb])), List.map_cons]

theorem traverse_logged (f : α → σ → β × σ) (g : α → σ × List γ → β × (σ × List γ))
    (written : α → List γ) (as : List α) (s : σ) (log : List γ)
    (h : ∀ a ∈ as, ∀ s log, g a (s,log) = ((f a s).1,((f a s).2,log++written a))) :
    traverse g as (s,log) =
      ((traverse f as s).1,((traverse f as s).2,log++as.flatMap written)) := by
  induction as generalizing s log with
  | nil => simp [traverse]
  | cons a as ih =>
    rw [traverse, h a List.mem_cons_self]
    simp only [ih _ _ (fun b hb => h b (List.mem_cons_of_mem _ hb)), traverse, List.flatMap_cons,
      List.append_assoc]

end Grandma.Traversal

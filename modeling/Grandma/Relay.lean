import Mathlib.Tactic

/-!
# Two queues in a row

Items wait in a first queue. Serving the item at the front yields any number
of results, which wait in a second queue until they are collected together;
they are collected only when no item is waiting. Whatever the events are, no
item and no result is lost, repeated or overtaken.
-/

set_option autoImplicit false

namespace Grandma.Relay

variable {α β : Type*}

structure State (α β : Type*) where
  waiting : List α
  ready : List β

inductive Event (α β : Type*) where
  | arrive (a : α)
  | serve (a : α) (bs : List β)
  | collect (bs : List β)

inductive Step : State α β → Event α β → State α β → Prop
  | arrive (as : List α) (bs : List β) (a : α) : Step ⟨as,bs⟩ (.arrive a) ⟨as++[a],bs⟩
  | serve (a : α) (as : List α) (bs new : List β) : Step ⟨a::as,bs⟩ (.serve a new) ⟨as,bs++new⟩
  | collect (bs : List β) : Step ⟨[],bs⟩ (.collect bs) ⟨[],[]⟩

inductive Path : State α β → List (Event α β) → State α β → Prop
  | nil (s : State α β) : Path s [] s
  | cons (s r t : State α β) (e : Event α β) (es : List (Event α β)) (step : Step s e r)
      (path : Path r es t) : Path s (e::es) t

def arrived : List (Event α β) → List α
  | [] => []
  | .arrive a::es => a::arrived es
  | .serve _ _::es => arrived es
  | .collect _::es => arrived es

def served : List (Event α β) → List (α × List β)
  | [] => []
  | .arrive _::es => served es
  | .serve a bs::es => (a,bs)::served es
  | .collect _::es => served es

def collected : List (Event α β) → List β
  | [] => []
  | .arrive _::es => collected es
  | .serve _ _::es => collected es
  | .collect bs::es => bs++collected es

theorem path_append (s r t : State α β) (es fs : List (Event α β)) (h : Path s es r)
    (h' : Path r fs t) : Path s (es++fs) t := by
  induction h with
  | nil s => exact h'
  | cons s q r e es step path ih => exact .cons s q t e _ step (ih h')

theorem arrived_append (es fs : List (Event α β)) : arrived (es++fs) = arrived es++arrived fs := by
  induction es with
  | nil => rfl
  | cons e es ih => cases e <;> simp [arrived, ih]

theorem collected_append (es fs : List (Event α β)) :
    collected (es++fs) = collected es++collected fs := by
  induction es with
  | nil => rfl
  | cons e es ih => cases e <;> simp [collected, ih]

theorem mem_served (a : α) (bs : List β) (es : List (Event α β)) :
    (a,bs) ∈ served es ↔ .serve a bs ∈ es := by
  induction es with
  | nil => simp [served]
  | cons e es ih => cases e <;> simp [served, ih]

theorem path_arrivals (as new : List α) (bs : List β) :
    Path ⟨as,bs⟩ (new.map Event.arrive) ⟨as++new,bs⟩ := by
  induction new generalizing as with
  | nil =>
    rw [List.append_nil]
    exact .nil _
  | cons a new ih =>
    have h := ih (as++[a])
    rw [List.append_assoc, List.singleton_append] at h
    exact .cons _ _ _ _ _ (.arrive as bs a) h

@[simp] theorem arrived_arrivals (new : List α) :
    arrived (new.map (Event.arrive (β := β))) = new := by
  induction new with
  | nil => rfl
  | cons a new ih => rw [List.map_cons, arrived, ih]

@[simp] theorem collected_arrivals (new : List α) :
    collected (new.map (Event.arrive (β := β))) = [] := by
  induction new with
  | nil => rfl
  | cons a new ih => rw [List.map_cons, collected, ih]

/-- What has arrived was served, in the order of arrival, or is still waiting. -/
theorem path_waiting (s t : State α β) (es : List (Event α β)) (h : Path s es t) :
    s.waiting++arrived es = (served es).map Prod.fst++t.waiting := by
  induction h with
  | nil s => simp [arrived, served]
  | cons s r t e es step path ih =>
    cases step with
    | arrive as bs a =>
      simp only [arrived, served] at ih ⊢
      rw [← ih]
      simp
    | serve a as bs new =>
      simp only [arrived, served, List.map_cons, List.cons_append] at ih ⊢
      rw [ih]
    | collect bs => exact ih

/-- What serving has yielded was collected, in order, or is still ready. -/
theorem path_ready (s t : State α β) (es : List (Event α β)) (h : Path s es t) :
    s.ready++(served es).flatMap Prod.snd = collected es++t.ready := by
  induction h with
  | nil s => simp [collected, served]
  | cons s r t e es step path ih =>
    cases step with
    | arrive as bs a => exact ih
    | serve a as bs new =>
      simp only [collected, served, List.flatMap_cons] at ih ⊢
      rw [← ih, List.append_assoc]
    | collect bs =>
      simp only [collected, served, List.nil_append] at ih ⊢
      rw [ih, List.append_assoc]

/-- Behind an item that is never served everything stands still. -/
theorem path_stuck (s t : State α β) (es : List (Event α β)) (h : Path s es t) (a : α)
    (as : List α) (hs : s.waiting = a::as) (hnever : ∀ bs, .serve a bs ∉ es) :
    t.waiting = a::as++arrived es ∧ t.ready = s.ready ∧ served es = [] ∧ collected es = [] := by
  induction h generalizing as with
  | nil s => simp [hs, arrived, served, collected]
  | cons s r t e es step path ih =>
    have hrest : ∀ bs, .serve a bs ∉ es := fun bs hm => hnever bs (List.mem_cons_of_mem _ hm)
    cases step with
    | arrive cs bs b =>
      have h := ih (as++[b]) (by rw [show cs = a::as from hs]; rfl) hrest
      simpa [arrived, served, collected] using h
    | serve b cs bs new =>
      cases hs
      exact absurd List.mem_cons_self (hnever new)
    | collect bs => cases hs

end Grandma.Relay

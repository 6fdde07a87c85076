import Mathlib.Data.List.Perm.Subperm
import Mathlib.Tactic

/-!
# Accounts of an outbox

Items are added to an outbox one by one, and a flush takes everything that is
pending. An item may be added without ever becoming pending, and a flushed
batch may or may not arrive. The account keeps what was ever added, what has
arrived and what is still pending; an item that is in neither of the last two
is lost.
-/

set_option autoImplicit false

namespace Grandma.Outbox

variable {α : Type*}

inductive Event (α : Type*) where
  | add (a : α) (waits : Bool)
  | flush (arrives : Bool)

structure Account (α : Type*) where
  added : List α
  arrived : List α
  pending : List α

def opening : Account α := { added := [], arrived := [], pending := [] }

def enter (s : Account α) : Event α → Account α
  | .add a waits => { s with added := s.added++[a],
                             pending := if waits then s.pending++[a] else s.pending }
  | .flush arrives => { s with arrived := if arrives then s.arrived++s.pending else s.arrived,
                               pending := [] }

def enterAll : Account α → List (Event α) → Account α
  | s, [] => s
  | s, e::es => enterAll (enter s e) es

def Lossless (s : Account α) : Event α → Prop
  | .add _ waits => waits = true
  | .flush arrives => arrives = true ∨ s.pending = []

def AllLossless : Account α → List (Event α) → Prop
  | _, [] => True
  | s, e::es => Lossless s e ∧ AllLossless (enter s e) es

def Kept (s : Account α) : Prop := s.added.Subperm (s.arrived++s.pending)

theorem lossless_balance (s : Account α) (es : List (Event α))
    (hb : s.added = s.arrived++s.pending) (hl : AllLossless s es) :
    (enterAll s es).added = (enterAll s es).arrived++(enterAll s es).pending := by
  induction es generalizing s with
  | nil => exact hb
  | cons e es ih =>
    apply ih _ _ hl.2
    cases e with
    | add a waits =>
      have hwaits : waits = true := hl.1
      simp [enter, hb, hwaits]
    | flush arrives => rcases hl.1 with h | h <;> cases arrives <;> simp_all [enter]

theorem deficit_grows (s : Account α) (es : List (Event α)) :
    s.added.length+(enterAll s es).arrived.length+(enterAll s es).pending.length ≤
      (enterAll s es).added.length+s.arrived.length+s.pending.length := by
  induction es generalizing s with
  | nil => simp [enterAll]
  | cons e es ih =>
    have h := ih (enter s e)
    simp only [enterAll]
    cases e with
    | add a waits =>
      cases waits <;> simp [enter] at h ⊢ <;> omega
    | flush arrives =>
      cases arrives <;> simp [enter] at h ⊢ <;> omega

/-- From a balanced account, everything is kept exactly when no event loses
anything. The way back goes by counting: what is lost leaves a deficit. -/
theorem kept_iff (s : Account α) (es : List (Event α)) (hb : s.added = s.arrived++s.pending) :
    Kept (enterAll s es) ↔ AllLossless s es := by
  constructor
  · intro hk
    have hlen := hk.length_le
    rw [List.length_append] at hlen
    clear hk
    induction es generalizing s with
    | nil => trivial
    | cons e es ih =>
      have hgrow := deficit_grows (enter s e) es
      have hs := congrArg List.length hb
      rw [List.length_append] at hs
      simp only [enterAll] at hlen
      have hl : Lossless s e := by
        cases e with
        | add a waits =>
          cases waits with
          | true => rfl
          | false =>
            simp only [enter, Bool.false_eq_true, if_false, List.length_append,
              List.length_singleton] at hgrow hlen
            omega
        | flush arrives =>
          cases arrives with
          | true => exact Or.inl rfl
          | false =>
            right
            apply List.eq_nil_of_length_eq_zero
            simp only [enter, Bool.false_eq_true, if_false, List.length_nil] at hgrow hlen
            omega
      have hb' : (enter s e).added = (enter s e).arrived++(enter s e).pending :=
        lossless_balance s [e] hb ⟨hl,trivial⟩
      exact ⟨hl,ih _ hb' hlen⟩
  · intro hl
    rw [Kept, lossless_balance s es hb hl]

end Grandma.Outbox

import Mathlib.Data.List.Sigma

/-!
# Writes that overwrite

A write absorbs an earlier one under the same key, and writes under different
keys can be exchanged, both up to an equivalence of states. Then nothing counts
of a run of writes but the last one under every key. Runs are listed with the
latest write in front.
-/

set_option autoImplicit false

namespace Grandma.Overwriting

variable {σ κ δ : Type*}

structure Laws (write : κ → δ → σ → σ) (R : σ → σ → Prop) : Prop where
  same : Equivalence R
  lift : ∀ k d s t, R s t → R (write k d s) (write k d t)
  exchange : ∀ k j d e s, k ≠ j → R (write k d (write j e s)) (write j e (write k d s))
  absorb : ∀ k d e s, R (write k d (write k e s)) (write k d s)

def run (write : κ → δ → σ → σ) : List (Σ _ : κ, δ) → σ → σ
  | [], s => s
  | w::ws, s => write w.1 w.2 (run write ws s)

section Runs
variable (write : κ → δ → σ → σ) (R : σ → σ → Prop) (h : Laws write R)
include h

theorem run_perm (ws ws' : List (Σ _ : κ, δ)) (hperm : ws.Perm ws') (hkeys : ws.NodupKeys)
    (s : σ) : R (run write ws s) (run write ws' s) := by
  induction hperm with
  | nil => exact h.same.refl _
  | cons w _ ih => exact h.lift w.1 w.2 _ _ (ih (List.nodupKeys_cons.mp hkeys).2)
  | swap w v ws =>
    have hne := (List.nodupKeys_cons.mp hkeys).1
    rw [List.keys_cons, List.mem_cons, not_or] at hne
    exact h.exchange v.1 w.1 v.2 w.2 _ hne.1
  | trans hperm _ ih ih' =>
    exact h.same.trans (ih hkeys) (ih' ((List.perm_nodupKeys hperm).mp hkeys))

variable [DecidableEq κ]

theorem run_erase (k : κ) (d : δ) (ws : List (Σ _ : κ, δ)) (s : σ) :
    R (write k d (run write ws s)) (write k d (run write (ws.kerase k) s)) := by
  induction ws with
  | nil => exact h.same.refl _
  | cons w ws ih =>
    by_cases hw : k = w.1
    · rw [List.kerase_cons_eq hw, run, hw]
      exact h.absorb w.1 d w.2 _
    · rw [List.kerase_cons_ne hw, run, run]
      have hover := h.lift w.1 w.2 _ _ ih
      exact h.same.trans (h.exchange k w.1 d w.2 _ hw)
        (h.same.trans hover (h.same.symm (h.exchange k w.1 d w.2 _ hw)))

theorem run_dedup (ws : List (Σ _ : κ, δ)) (s : σ) :
    R (run write ws s) (run write ws.dedupKeys s) := by
  induction ws with
  | nil => exact h.same.refl _
  | cons w ws ih =>
    rw [List.dedupKeys_cons, List.kinsert_def, run, run]
    exact h.same.trans (h.lift w.1 w.2 _ _ ih) (run_erase write R h w.1 w.2 ws.dedupKeys s)

/-- Runs with the same last write under every key end alike. -/
theorem run_last (ws ws' : List (Σ _ : κ, δ)) (hlast : ∀ k, ws.dlookup k = ws'.dlookup k)
    (s : σ) : R (run write ws s) (run write ws' s) := by
  have hperm : ws.dedupKeys.Perm ws'.dedupKeys := by
    apply List.lookup_ext (List.nodupKeys_dedupKeys ws) (List.nodupKeys_dedupKeys ws')
    intro k d
    rw [List.dlookup_dedupKeys, List.dlookup_dedupKeys, hlast k]
  have hruns := run_perm write R h _ _ hperm (List.nodupKeys_dedupKeys ws) s
  exact h.same.trans (run_dedup write R h ws s)
    (h.same.trans hruns (h.same.symm (run_dedup write R h ws' s)))

end Runs

end Grandma.Overwriting

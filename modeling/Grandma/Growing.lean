import Grandma.OrderedMap
import Mathlib.Data.List.Forall2

/-!
# Maps that grow

A map grows when it keeps every key with a value that stands in a relation to
the old one. Its entries then contain those of the map before, in their order.
-/

set_option autoImplicit false

namespace Grandma.OrderedMap

variable {κ ν : Type*} [LinearOrder κ]

def Grows (R : ν → ν → Prop) (m n : OrderedMap κ ν) : Prop :=
  ∀ k v, m.find k = some v → ∃ v', n.find k = some v' ∧ R v v'

theorem grows_refl (R : ν → ν → Prop) (hR : ∀ v, R v v) (m : OrderedMap κ ν) : Grows R m m :=
  fun _ v h => ⟨v,h,hR v⟩

theorem grows_trans (R : ν → ν → Prop) (hR : ∀ u v w, R u v → R v w → R u w)
    (m n o : OrderedMap κ ν) (hmn : Grows R m n) (hno : Grows R n o) : Grows R m o := by
  intro k u hu
  obtain ⟨v,hv,huv⟩ := hmn k u hu
  obtain ⟨w,hw,hvw⟩ := hno k v hv
  exact ⟨w,hw,hR u v w huv hvw⟩

theorem grows_set (R : ν → ν → Prop) (hR : ∀ v, R v v) (m : OrderedMap κ ν) (k : κ) (v : ν)
    (h : ∀ u, m.find k = some u → R u v) : Grows R m (m.set k v) := by
  intro j u hu
  rw [find_set]
  by_cases hj : j = k
  · subst hj
    rw [if_pos rfl]
    exact ⟨v,rfl,h u hu⟩
  · rw [if_neg hj]
    exact ⟨u,hu,hR u⟩

/-- The induction is on the later entries: their first key is either the first
key of the earlier ones or in front of all of them. -/
theorem sorted_sublist (R : ν → ν → Prop) (es fs : List (κ × ν)) (hes : Sorted es) (hfs : Sorted fs)
    (h : ∀ k v, (k,v) ∈ es → ∃ v', (k,v') ∈ fs ∧ R v v') :
    List.SublistForall₂ (fun e f => e.1 = f.1 ∧ R e.2 f.2) es fs := by
  induction fs generalizing es with
  | nil =>
    cases es with
    | nil => exact .nil
    | cons e es =>
      obtain ⟨v',hv',-⟩ := h e.1 e.2 List.mem_cons_self
      cases hv'
  | cons f fs ih =>
    cases es with
    | nil => exact .nil
    | cons e es =>
      rw [Sorted, List.pairwise_cons] at hes hfs
      have hlater : ∀ k v, (k,v) ∈ e::es → k ≠ f.1 → ∃ v', (k,v') ∈ fs ∧ R v v' := by
        intro k v hkv hk
        obtain ⟨v',hv',hR⟩ := h k v hkv
        rcases List.mem_cons.mp hv' with rfl | hv'
        · exact absurd rfl hk
        · exact ⟨v',hv',hR⟩
      by_cases he : e.1 = f.1
      · obtain ⟨v',hv',hR⟩ := h e.1 e.2 List.mem_cons_self
        have hvalue : R e.2 f.2 := by
          rcases List.mem_cons.mp hv' with hv' | hv'
          · rwa [← hv']
          · exact absurd (hfs.1 _ hv') (by simp [he])
        apply List.SublistForall₂.cons ⟨he,hvalue⟩
        apply ih es hes.2 hfs.2
        intro k v hkv
        have hne : k ≠ f.1 := by
          rw [← he]
          exact (hes.1 _ hkv).ne'
        exact hlater k v (List.mem_cons_of_mem _ hkv) hne
      · apply List.SublistForall₂.cons_right
        apply ih (e::es) (List.pairwise_cons.mpr hes) hfs.2
        obtain ⟨v',hv',-⟩ := hlater e.1 e.2 List.mem_cons_self he
        have hfront : f.1 < e.1 := hfs.1 (e.1,v') hv'
        intro k v hkv
        have hne : k ≠ f.1 := by
          rcases List.mem_cons.mp hkv with rfl | hkv
          · exact he
          · exact (hfront.trans (hes.1 _ hkv)).ne'
        exact hlater k v hkv hne

theorem grows_entries (R : ν → ν → Prop) (m n : OrderedMap κ ν) (h : Grows R m n) :
    List.SublistForall₂ (fun e f => e.1 = f.1 ∧ R e.2 f.2) m.entries n.entries := by
  apply sorted_sublist R _ _ m.sorted n.sorted
  intro k v hkv
  obtain ⟨v',hv',hR⟩ := h k v ((mem_entries m k v).mp hkv)
  exact ⟨v',(mem_entries n k v').mpr hv',hR⟩

theorem sublist_map {α β γ δ : Type*} (R : α → β → Prop) (S : γ → δ → Prop) (f : α → γ) (g : β → δ)
    (hfg : ∀ a b, R a b → S (f a) (g b)) (as : List α) (bs : List β)
    (h : List.SublistForall₂ R as bs) : List.SublistForall₂ S (as.map f) (bs.map g) := by
  induction h with
  | nil => exact .nil
  | cons hR _ ih => exact ih.cons (hfg _ _ hR)
  | cons_right _ ih => exact ih.cons_right

theorem sublist_eq {α : Type*} (as bs : List α) (h : List.SublistForall₂ Eq as bs) :
    as.Sublist bs := by
  obtain ⟨cs,hcs,hsub⟩ := List.sublistForall₂_iff.mp h
  rw [List.forall₂_eq_eq_eq] at hcs
  rwa [hcs]

theorem sublist_append {α β : Type*} (R : α → β → Prop) (as cs : List α) (bs ds : List β)
    (hab : List.SublistForall₂ R as bs) (hcd : List.SublistForall₂ R cs ds) :
    List.SublistForall₂ R (as++cs) (bs++ds) := by
  induction hab with
  | @nil bs =>
    rw [List.nil_append]
    induction bs with
    | nil => exact hcd
    | cons b bs ih => exact ih.cons_right
  | cons hR _ ih => exact ih.cons hR
  | cons_right _ ih => exact ih.cons_right

theorem sublist_flatMap {α β γ δ : Type*} (R : α → β → Prop) (S : γ → δ → Prop) (f : α → List γ)
    (g : β → List δ) (hfg : ∀ a b, R a b → List.SublistForall₂ S (f a) (g b)) (as : List α)
    (bs : List β) (h : List.SublistForall₂ R as bs) :
    List.SublistForall₂ S (as.flatMap f) (bs.flatMap g) := by
  induction h with
  | nil => exact .nil
  | @cons a b as bs hR _ ih =>
    rw [List.flatMap_cons, List.flatMap_cons]
    exact sublist_append S _ _ _ _ (hfg a b hR) ih
  | @cons_right b as bs _ ih =>
    rw [List.flatMap_cons]
    exact sublist_append S [] _ _ _ .nil ih

end Grandma.OrderedMap

import Grandma.LabelTree
import Mathlib.Data.List.Forall2

/-!
# Trees up to the order of siblings

Siblings with one label are told apart by their order, siblings with different
labels by their labels. Two trees are alike when they differ only in how the
latter are mixed. Writes along different paths commute up to this.
-/

set_option autoImplicit false

namespace Grandma.LabelTree

variable {κ α : Type*} [DecidableEq κ]

def named (k : κ) (cs : List (LabelTree κ α)) : List (LabelTree κ α) :=
  cs.filter (fun c => c.label = k)

inductive Alike : LabelTree κ α → LabelTree κ α → Prop
  | node (l : κ) (v : α) (cs ds : List (LabelTree κ α))
      (below : ∀ k, List.Forall₂ Alike (named k cs) (named k ds)) : Alike (node l v cs) (node l v ds)

theorem alike_refl (t : LabelTree κ α) : Alike t t := by
  induction t with
  | node l v cs ih =>
    apply Alike.node
    intro k
    rw [List.forall₂_same]
    intro c hc
    exact ih c (List.mem_of_mem_filter hc)

theorem alike_same (cs : List (LabelTree κ α)) : List.Forall₂ Alike cs cs := by
  rw [List.forall₂_same]
  intro c _
  exact alike_refl c

theorem alike_iff (t s : LabelTree κ α) : Alike t s ↔ t.label = s.label ∧ t.val = s.val ∧
    ∀ k, List.Forall₂ Alike (named k t.children) (named k s.children) := by
  constructor
  · intro h
    cases h with
    | node l v cs ds below => exact ⟨rfl,rfl,below⟩
  · rintro ⟨hl,hv,hbelow⟩
    cases t with
    | node l v cs =>
      cases s with
      | node l' v' ds =>
        cases hl
        cases hv
        exact .node l v cs ds hbelow

theorem child_named (k : κ) (cs : List (LabelTree κ α)) : child k cs = (named k cs).head? := by
  rw [named, List.head?_filter, child]

/-- `ds` has `d` in front of the siblings with label `k`: in the place of the
first one of `cs`, if there is one. All other siblings are those of `cs`. -/
def Placed (k : κ) (d : LabelTree κ α) (cs ds : List (LabelTree κ α)) : Prop :=
  ∀ j, named j ds = if j = k then d::(named k cs).tail else named j cs

theorem placed_putBack (k : κ) (c d : LabelTree κ α) (cs : List (LabelTree κ α))
    (hc : child k cs = some c) (hd : d.label = k) : Placed k d cs (putBack k d cs) := by
  intro j
  induction cs with
  | nil => cases hc
  | cons b cs ih =>
    rw [child_cons] at hc
    by_cases hb : b.label = k
    · rw [putBack, if_pos hb]
      by_cases hj : j = k
      · simp [named, hd, hb, hj]
      · have hkj : k ≠ j := Ne.symm hj
        simp [named, hd, hb, hj, hkj]
    · rw [if_neg hb] at hc
      rw [putBack, if_neg hb]
      have ih := ih hc
      by_cases hj : j = k
      · subst hj
        rw [if_pos rfl] at ih ⊢
        simpa [named, hb] using ih
      · rw [if_neg hj] at ih ⊢
        by_cases hbj : b.label = j
        · simpa [named, hbj] using ih
        · simpa [named, hbj] using ih

theorem placed_append (k : κ) (d : LabelTree κ α) (cs : List (LabelTree κ α))
    (hc : child k cs = none) (hd : d.label = k) : Placed k d cs (cs++[d]) := by
  intro j
  have hnone : named k cs = [] := by
    rwa [child_named, List.head?_eq_none_iff] at hc
  rw [named, List.filter_append, ← named]
  by_cases hj : j = k
  · simp [hj, hd, hnone]
  · have hkj : k ≠ j := Ne.symm hj
    simp [hj, hd, hkj]

theorem placed_child (k j : κ) (d : LabelTree κ α) (cs ds : List (LabelTree κ α))
    (h : Placed k d cs ds) : child j ds = if j = k then some d else child j cs := by
  rw [child_named, h j]
  split_ifs
  · rfl
  · exact (child_named j cs).symm

theorem placed_again (k : κ) (c d : LabelTree κ α) (cs ds es : List (LabelTree κ α))
    (hc : Placed k c cs ds) (hd : Placed k d ds es) : Placed k d cs es := by
  intro j
  rw [hd j, hc j, hc k, if_pos rfl, List.tail_cons]
  split_ifs <;> rfl

theorem placed_comm (k j : κ) (hj : j ≠ k) (c d : LabelTree κ α)
    (cs as ads bs bcs : List (LabelTree κ α)) (ha : Placed k c cs as) (had : Placed j d as ads)
    (hb : Placed j d cs bs) (hbc : Placed k c bs bcs) (i : κ) : named i ads = named i bcs := by
  rw [had i, hbc i, ha i, hb i, ha j, hb k, if_neg hj, if_neg (Ne.symm hj)]
  by_cases hi : i = j
  · simp [hi, hj]
  · simp [hi]

theorem placed_alike (k : κ) (c d : LabelTree κ α) (hcd : Alike c d)
    (cs as bs : List (LabelTree κ α)) (ha : Placed k c cs as) (hb : Placed k d cs bs) (i : κ) :
    List.Forall₂ Alike (named i as) (named i bs) := by
  rw [ha i, hb i]
  split_ifs
  · exact List.Forall₂.cons hcd (alike_same _)
  · exact alike_same _

/-- A write along a path places a node with the first label of the path, made
from the first sibling with this label or from a new one. -/
theorem write_placed (f : α → α) (blank : ℕ → α) (t s : LabelTree κ α) (k : κ) (ks : List κ)
    (h : writeAt true f blank t (k::ks) = some s) :
    s.label = t.label ∧ s.val = t.val ∧
      ∃ d, writeAt true f (fun n => blank (n+1))
          ((child k t.children).getD (node k (blank 0) [])) ks = some d ∧
        Placed k d t.children s.children := by
  have hl := write_label true f (k::ks) blank t s h
  obtain ⟨hv,⟨c,d,hc,hd,hw,hs⟩ | ⟨d,hc,hd,-,hw,hs⟩⟩ := write_cons true f blank t s k ks h
  · refine ⟨hl,hv,d,by rw [hc, Option.getD_some, hw],?_⟩
    rw [hs]
    exact placed_putBack k c d t.children hc hd
  · refine ⟨hl,hv,d,by rw [hc, Option.getD_none, hw],?_⟩
    rw [hs]
    exact placed_append k d t.children hc hd

theorem write_below_root (f g : α → α) (blank : ℕ → α) (t a ab b ba : LabelTree κ α) (j : κ)
    (js : List κ) (ha : writeAt true f blank t [] = some a)
    (hab : writeAt true g blank a (j::js) = some ab)
    (hb : writeAt true g blank t (j::js) = some b)
    (hba : writeAt true f blank b [] = some ba) : ab = ba := by
  cases t with
  | node l v cs =>
    cases Option.some.inj ha
    simp only [writeAt] at hab hb
    cases hc : child j cs with
    | some c =>
      simp only [hc] at hab hb
      obtain ⟨d,hd,rfl⟩ := Option.map_eq_some_iff.mp hab
      rw [hd] at hb
      cases hb
      exact Option.some.inj hba
    | none =>
      simp only [hc, if_true] at hab hb
      obtain ⟨d,hd,rfl⟩ := Option.map_eq_some_iff.mp hab
      rw [hd] at hb
      cases hb
      exact Option.some.inj hba

/-- Writes along different paths commute up to the order of siblings. The
induction goes down the part that the paths share; where they part, each write
leaves alone the siblings that the other one looks at. -/
theorem writes_alike (f g : α → α) (ks js : List κ) (hne : ks ≠ js) (blank : ℕ → α)
    (t a ab b ba : LabelTree κ α) (ha : writeAt true f blank t ks = some a)
    (hab : writeAt true g blank a js = some ab) (hb : writeAt true g blank t js = some b)
    (hba : writeAt true f blank b ks = some ba) : Alike ab ba := by
  induction ks generalizing js blank t a ab b ba with
  | nil =>
    obtain ⟨j,js,rfl⟩ := List.exists_cons_of_ne_nil (Ne.symm hne)
    rw [write_below_root f g blank t a ab b ba j js ha hab hb hba]
    exact alike_refl ba
  | cons k ks ih =>
    cases js with
    | nil =>
      rw [write_below_root g f blank t b ba a ab k ks hb hba ha hab]
      exact alike_refl ab
    | cons j js =>
      obtain ⟨hal,hav,c,hc,ha⟩ := write_placed f blank t a k ks ha
      obtain ⟨habl,habv,cd,hcd,hab⟩ := write_placed g blank a ab j js hab
      obtain ⟨hbl,hbv,d,hd,hb⟩ := write_placed g blank t b j js hb
      obtain ⟨hbal,hbav,dc,hdc,hba⟩ := write_placed f blank b ba k ks hba
      rw [alike_iff, habl, hal, hbal, hbl, habv, hav, hbav, hbv]
      refine ⟨rfl,rfl,?_⟩
      by_cases hj : j = k
      · subst hj
        rw [placed_child j j c _ _ ha, if_pos rfl, Option.getD_some] at hcd
        rw [placed_child j j d _ _ hb, if_pos rfl, Option.getD_some] at hdc
        have hne : ks ≠ js := fun h => hne (by rw [h])
        exact placed_alike j cd dc (ih js hne _ _ c cd d dc hc hcd hd hdc) _ _ _
          (placed_again j c cd _ _ _ ha hab) (placed_again j d dc _ _ _ hb hba)
      · have hkj : k ≠ j := Ne.symm hj
        rw [placed_child k j c _ _ ha, if_neg hj, hd] at hcd
        rw [placed_child j k d _ _ hb, if_neg hkj, hc] at hdc
        cases hcd
        cases hdc
        intro i
        rw [placed_comm k j hj _ _ _ _ _ _ _ ha hab hb hba i]
        exact alike_same _

theorem alike_symm (t s : LabelTree κ α) (h : Alike t s) : Alike s t := by
  induction t generalizing s with
  | node l v cs ih =>
    cases h with
    | node _ _ _ ds below =>
      apply Alike.node
      intro k
      have hsym : ∀ c ∈ named k cs, ∀ d, Alike c d → Alike d c :=
        fun c hc => ih c (List.mem_of_mem_filter hc)
      have hboth := (List.forall₂_and_left _ _).mpr ⟨hsym,below k⟩
      exact (hboth.imp (fun c d hcd => hcd.1 d hcd.2)).flip

theorem same_trans (cs ds es : List (LabelTree κ α))
    (htrans : ∀ c ∈ cs, ∀ d e, Alike c d → Alike d e → Alike c e)
    (hcd : List.Forall₂ Alike cs ds) (hde : List.Forall₂ Alike ds es) :
    List.Forall₂ Alike cs es := by
  induction hcd generalizing es with
  | nil => exact hde
  | cons hc _ ih =>
    cases hde with
    | cons hd hde =>
      exact List.Forall₂.cons (htrans _ List.mem_cons_self _ _ hc hd)
        (ih _ (fun c hm => htrans c (List.mem_cons_of_mem _ hm)) hde)

theorem alike_trans (t s r : LabelTree κ α) (hts : Alike t s) (hsr : Alike s r) : Alike t r := by
  induction t generalizing s r with
  | node l v cs ih =>
    cases hts with
    | node _ _ _ ds below =>
      cases hsr with
      | node _ _ _ es below' =>
        apply Alike.node
        intro k
        exact same_trans _ _ _ (fun c hc => ih c (List.mem_of_mem_filter hc)) (below k) (below' k)

theorem alike_equivalence : Equivalence (Alike (κ := κ) (α := α)) where
  refl := alike_refl
  symm := fun h => alike_symm _ _ h
  trans := fun hts hsr => alike_trans _ _ _ hts hsr

theorem alike_child (k : κ) (v : α) (cs ds : List (LabelTree κ α))
    (h : List.Forall₂ Alike (named k cs) (named k ds)) :
    Alike ((child k cs).getD (node k v [])) ((child k ds).getD (node k v [])) := by
  rw [child_named, child_named]
  generalize named k cs = as at h ⊢
  generalize named k ds = bs at h ⊢
  cases h with
  | nil => exact alike_refl _
  | cons hcd _ => exact hcd

theorem placed_lift (k : κ) (c d : LabelTree κ α) (hcd : Alike c d)
    (cs as ds bs : List (LabelTree κ α)) (ha : Placed k c cs as) (hb : Placed k d ds bs)
    (h : ∀ j, List.Forall₂ Alike (named j cs) (named j ds)) (i : κ) :
    List.Forall₂ Alike (named i as) (named i bs) := by
  rw [ha i, hb i]
  split_ifs
  · apply List.Forall₂.cons hcd
    rw [← List.drop_one, ← List.drop_one]
    exact List.forall₂_drop 1 (h k)
  · exact h i

theorem write_lift (f : α → α) (ks : List κ) (blank : ℕ → α) (t s a b : LabelTree κ α)
    (h : Alike t s) (ha : writeAt true f blank t ks = some a)
    (hb : writeAt true f blank s ks = some b) : Alike a b := by
  induction ks generalizing blank t s a b with
  | nil =>
    cases h with
    | node l v cs ds below =>
      cases Option.some.inj ha
      cases Option.some.inj hb
      exact .node l (f v) cs ds below
  | cons k ks ih =>
    obtain ⟨hl,hv,hbelow⟩ := (alike_iff t s).mp h
    obtain ⟨hal,hav,c,hc,ha⟩ := write_placed f blank t a k ks ha
    obtain ⟨hbl,hbv,d,hd,hb⟩ := write_placed f blank s b k ks hb
    rw [alike_iff, hal, hbl, hav, hbv]
    have hcd := ih _ _ _ c d (alike_child k (blank 0) _ _ (hbelow k)) hc hd
    exact ⟨hl,hv,placed_lift k c d hcd _ _ _ _ ha hb hbelow⟩

theorem write_absorb (f g : α → α) (hf : ∀ v, f (g v) = f v) (ks : List κ) (blank : ℕ → α)
    (t a b c : LabelTree κ α) (ha : writeAt true g blank t ks = some a)
    (hb : writeAt true f blank a ks = some b) (hc : writeAt true f blank t ks = some c) :
    Alike b c := by
  induction ks generalizing blank t a b c with
  | nil =>
    cases t with
    | node l v cs =>
      cases Option.some.inj ha
      cases Option.some.inj hb
      cases Option.some.inj hc
      rw [hf]
      exact alike_refl _
  | cons k ks ih =>
    obtain ⟨hal,hav,ca,hca,ha⟩ := write_placed g blank t a k ks ha
    obtain ⟨hbl,hbv,cb,hcb,hb⟩ := write_placed f blank a b k ks hb
    obtain ⟨hcl,hcv,cc,hcc,hc⟩ := write_placed f blank t c k ks hc
    rw [placed_child k k ca _ _ ha, if_pos rfl, Option.getD_some] at hcb
    rw [alike_iff, hbl, hal, hcl, hbv, hav, hcv]
    have hbelow := ih _ _ ca cb cc hca hcb hcc
    exact ⟨rfl,rfl,placed_alike k cb cc hbelow _ _ _ (placed_again k ca cb _ _ _ ha hb) hc⟩

end Grandma.LabelTree

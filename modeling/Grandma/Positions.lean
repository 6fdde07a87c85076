import Grandma.LabelTree
import Grandma.OrderedMap

/-!
# Positions in a labelled tree

Labels need not tell siblings apart, positions do: a position is the list of
child indices on the way down. Descending by labels stops at the position at
which every step takes the first sibling of its label. A reader may also take
another sibling than the first, and may refuse to go below a leaf.
-/

set_option autoImplicit false

namespace Grandma.LabelTree

variable {κ α : Type*}

def walk : LabelTree κ α → List ℕ → Option (LabelTree κ α)
  | t, [] => some t
  | t, i::is => t.children[i]?.bind (fun c => c.walk is)

def names : LabelTree κ α → List ℕ → Option (List κ)
  | _, [] => some []
  | t, i::is => t.children[i]?.bind (fun c => (c.names is).map (fun ks => c.label::ks))

@[simp] theorem walk_nil (t : LabelTree κ α) : t.walk [] = some t := by
  cases t
  rfl

@[simp] theorem walk_cons (t : LabelTree κ α) (i : ℕ) (is : List ℕ) :
    t.walk (i::is) = t.children[i]?.bind (fun c => c.walk is) := by
  cases t
  rfl

@[simp] theorem names_nil (t : LabelTree κ α) : t.names [] = some [] := by
  cases t
  rfl

@[simp] theorem names_cons (t : LabelTree κ α) (i : ℕ) (is : List ℕ) :
    t.names (i::is) =
      t.children[i]?.bind (fun c => (c.names is).map (fun ks => c.label::ks)) := by
  cases t
  rfl

theorem names_step (t : LabelTree κ α) (i : ℕ) (is : List ℕ) (ks : List κ) :
    t.names (i::is) = some ks ↔
      ∃ c js, t.children[i]? = some c ∧ c.names is = some js ∧ ks = c.label::js := by
  rw [names_cons]
  constructor
  · intro h
    obtain ⟨c,hc,h⟩ := Option.bind_eq_some_iff.mp h
    obtain ⟨js,hjs,rfl⟩ := Option.map_eq_some_iff.mp h
    exact ⟨c,js,hc,hjs,rfl⟩
  · rintro ⟨c,js,hc,hjs,rfl⟩
    simp [hc, hjs]

def First : LabelTree κ α → List ℕ → Prop
  | _, [] => True
  | t, i::is => ∀ c, t.children[i]? = some c →
      (∀ (j : ℕ) (d : LabelTree κ α), j < i → t.children[j]? = some d → d.label ≠ c.label) ∧
        c.First is

theorem first_cons (t : LabelTree κ α) (i : ℕ) (is : List ℕ) :
    t.First (i::is) ↔ ∀ c, t.children[i]? = some c →
      (∀ (j : ℕ) (d : LabelTree κ α), j < i → t.children[j]? = some d → d.label ≠ c.label) ∧
        c.First is := by
  cases t
  rfl

section First
variable [DecidableEq κ]

def childIndex (k : κ) (cs : List (LabelTree κ α)) : Option ℕ :=
  cs.findIdx? (fun c => c.label = k)

def position : LabelTree κ α → List κ → Option (List ℕ)
  | _, [] => some []
  | t, k::ks => (childIndex k t.children).bind
      (fun i => t.children[i]?.bind (fun c => (c.position ks).map (fun is => i::is)))

@[simp] theorem position_nil (t : LabelTree κ α) : t.position [] = some [] := by
  cases t
  rfl

@[simp] theorem position_cons (t : LabelTree κ α) (k : κ) (ks : List κ) :
    t.position (k::ks) = (childIndex k t.children).bind
      (fun i => t.children[i]?.bind (fun c => (c.position ks).map (fun is => i::is))) := by
  cases t
  rfl

theorem childIndex_iff (k : κ) (cs : List (LabelTree κ α)) (i : ℕ) :
    childIndex k cs = some i ↔ ∃ c, cs[i]? = some c ∧ c.label = k ∧
      ∀ (j : ℕ) (d : LabelTree κ α), j < i → cs[j]? = some d → d.label ≠ k := by
  rw [childIndex, List.findIdx?_eq_some_iff_getElem]
  constructor
  · rintro ⟨hi,hk,hbefore⟩
    have hother : ∀ (j : ℕ) (d : LabelTree κ α), j < i → cs[j]? = some d → d.label ≠ k := by
      intro j d hj hd
      obtain ⟨hlt,rfl⟩ := List.getElem?_eq_some_iff.mp hd
      simpa using hbefore j hj
    exact ⟨cs[i],List.getElem?_eq_getElem hi,by simpa using hk,hother⟩
  · rintro ⟨c,hc,hk,hbefore⟩
    obtain ⟨hi,rfl⟩ := List.getElem?_eq_some_iff.mp hc
    exact ⟨hi,by simpa using hk,fun j hj => by
      simpa using hbefore j _ hj (List.getElem?_eq_getElem (hj.trans hi))⟩

theorem child_index (k : κ) (cs : List (LabelTree κ α)) :
    child k cs = (childIndex k cs).bind (fun i => cs[i]?) :=
  List.find?_eq_bind_findIdx?_getElem?

theorem descend_position (t : LabelTree κ α) (ks : List κ) :
    t.descend ks = (t.position ks).bind t.walk := by
  induction ks generalizing t with
  | nil => simp
  | cons k ks ih =>
    rw [descend_cons, position_cons, child_index]
    cases childIndex k t.children with
    | none => rfl
    | some i =>
      simp only [Option.bind_some]
      cases hc : t.children[i]? with
      | none => rfl
      | some c =>
        simp only [Option.bind_some]
        rw [ih]
        cases c.position ks with
        | none => rfl
        | some is => simp [hc]

theorem position_step (t : LabelTree κ α) (k : κ) (ks : List κ) (i : ℕ) (is : List ℕ) :
    t.position (k::ks) = some (i::is) ↔ ∃ c, t.children[i]? = some c ∧ c.label = k ∧
      (∀ (j : ℕ) (d : LabelTree κ α), j < i → t.children[j]? = some d → d.label ≠ k) ∧
        c.position ks = some is := by
  rw [position_cons]
  constructor
  · intro h
    obtain ⟨j,hj,h⟩ := Option.bind_eq_some_iff.mp h
    obtain ⟨c,hc,h⟩ := Option.bind_eq_some_iff.mp h
    obtain ⟨js,hjs,h⟩ := Option.map_eq_some_iff.mp h
    cases h
    obtain ⟨c',hc',hk,hbefore⟩ := (childIndex_iff k t.children i).mp hj
    rw [hc] at hc'
    cases hc'
    exact ⟨c,hc,hk,hbefore,hjs⟩
  · rintro ⟨c,hc,hk,hbefore,his⟩
    have hindex : childIndex k t.children = some i :=
      (childIndex_iff k t.children i).mpr ⟨c,hc,hk,hbefore⟩
    simp [hindex, hc, his]

/-- A descent stops at a position exactly when it spells the labels on the way
and takes the first sibling every time. -/
theorem position_iff (t : LabelTree κ α) (ks : List κ) (is : List ℕ) :
    t.position ks = some is ↔ t.names is = some ks ∧ t.First is := by
  induction ks generalizing t is with
  | nil =>
    cases is with
    | nil => simp [First]
    | cons i is =>
      rw [names_step]
      simp
  | cons k ks ih =>
    cases is with
    | nil =>
      rw [position_cons, names_nil]
      simp [Option.bind_eq_some_iff]
    | cons i is =>
      rw [position_step, names_step, first_cons]
      constructor
      · rintro ⟨c,hc,hk,hbefore,hposition⟩
        obtain ⟨hnames,hfirst⟩ := (ih c is).mp hposition
        constructor
        · exact ⟨c,ks,hc,hnames,by rw [hk]⟩
        · intro d hd
          rw [hc] at hd
          cases hd
          rw [hk]
          exact ⟨hbefore,hfirst⟩
      · rintro ⟨⟨c,js,hc,hnames,heq⟩,hfirst⟩
        obtain ⟨rfl,rfl⟩ := List.cons.inj heq
        obtain ⟨hbefore,hbelow⟩ := hfirst c hc
        exact ⟨c,hc,rfl,hbefore,(ih c is).mpr ⟨hnames,hbelow⟩⟩

end First

/-- The node reached from a list of siblings by a path, where `sel` selects one
of several siblings and nothing is looked for below a leaf. -/
def reach (sel : List (LabelTree κ α) → κ → Option (LabelTree κ α)) (leaf : α → Bool) :
    List (LabelTree κ α) → List κ → Option (LabelTree κ α)
  | _, [] => none
  | cs, [k] => sel cs k
  | cs, k::j::ks => (sel cs k).bind
      (fun c => if leaf c.val then none else reach sel leaf c.children (j::ks))

theorem reach_down (sel : List (LabelTree κ α) → κ → Option (LabelTree κ α)) (leaf : α → Bool)
    (cs : List (LabelTree κ α)) (k : κ) (ks : List κ) (c : LabelTree κ α)
    (hc : sel cs k = some c) (hleaf : leaf c.val = false) (hks : ks ≠ []) :
    reach sel leaf cs (k::ks) = reach sel leaf c.children ks := by
  cases ks with
  | nil => exact absurd rfl hks
  | cons j ks => simp [reach, hc, hleaf]

theorem reach_ne_nil (sel : List (LabelTree κ α) → κ → Option (LabelTree κ α)) (leaf : α → Bool)
    (cs : List (LabelTree κ α)) (ks : List κ) (m : LabelTree κ α)
    (h : reach sel leaf cs ks = some m) : ks ≠ [] := by
  rintro rfl
  cases h

theorem reach_label (sel : List (LabelTree κ α) → κ → Option (LabelTree κ α)) (leaf : α → Bool)
    (hsel : ∀ cs k c, sel cs k = some c → c.label = k) (cs : List (LabelTree κ α)) (ks : List κ)
    (m : LabelTree κ α) (h : reach sel leaf cs ks = some m) : ks = ks.dropLast++[m.label] := by
  induction ks generalizing cs with
  | nil => cases h
  | cons k ks ih =>
    cases ks with
    | nil =>
      have hl := hsel cs k m h
      simp [hl]
    | cons j ks =>
      obtain ⟨c,hc,h⟩ := Option.bind_eq_some_iff.mp h
      split at h
      · cases h
      · have ih := ih c.children h
        rw [List.dropLast_cons_of_ne_nil (List.cons_ne_nil j ks), List.cons_append, ← ih]

section Select
variable [DecidableEq κ]

def firstChild (cs : List (LabelTree κ α)) (k : κ) : Option (LabelTree κ α) := child k cs

def lastChild (p : LabelTree κ α → Bool) (cs : List (LabelTree κ α)) (k : κ) :
    Option (LabelTree κ α) :=
  cs.reverse.find? (fun c => c.label = k && p c)

theorem last_child (p : LabelTree κ α → Bool) (cs : List (LabelTree κ α)) (k : κ)
    (c : LabelTree κ α) (h : lastChild p cs k = some c) : c ∈ cs ∧ c.label = k ∧ p c = true := by
  have hsat : c.label = k ∧ p c = true := by simpa using List.find?_some h
  exact ⟨List.mem_reverse.mp (List.mem_of_find?_eq_some h),hsat⟩

theorem last_distinct (p : LabelTree κ α → Bool) (cs : List (LabelTree κ α))
    (hd : (cs.map label).Nodup) (k : κ) : lastChild p cs k = (child k cs).filter p := by
  cases hc : child k cs with
  | none =>
    have hnone := List.find?_eq_none.mp hc
    rw [lastChild, Option.filter_none, List.find?_eq_none]
    intro c hm
    have hl : c.label ≠ k := by simpa using hnone c (List.mem_reverse.mp hm)
    simp [hl]
  | some c =>
    have hl := child_label k cs c hc
    have honly : ∀ d ∈ cs, d.label = k → d = c := by
      intro d hm hk
      have hd' := child_distinct cs hd d hm
      rw [hk, hc] at hd'
      exact (Option.some.inj hd').symm
    cases hlast : lastChild p cs k with
    | none =>
      have hnone := List.find?_eq_none.mp hlast c
        (List.mem_reverse.mpr (child_mem k cs c hc))
      have hp : p c = false := by simpa [hl] using hnone
      rw [Option.filter_some_neg hp]
    | some d =>
      obtain ⟨hmem,hk,hp⟩ := last_child p cs k d hlast
      have heq := honly d hmem hk
      rw [heq] at hp ⊢
      rw [Option.filter_some_pos hp]

end Select

theorem collect_children [LinearOrder κ] [DecidableEq κ] {ν : Type*}
    (f : LabelTree κ α → Option ν) (cs : List (LabelTree κ α)) (k : κ) :
    OrderedMap.lookup k (OrderedMap.collect label f [] cs) =
      (lastChild (fun c => (f c).isSome) cs k).bind f := by
  rw [OrderedMap.lookup_collect, OrderedMap.lookup, Option.or_none, lastChild]

def Distinct (cs : List (LabelTree κ α)) : Prop :=
  (cs.map label).Nodup ∧ ∀ c ∈ cs, WellNamed (fun _ => True) c

theorem wellNamed_distinct (ok : κ → Prop) (t : LabelTree κ α) (hw : WellNamed ok t) :
    Distinct t.children := by
  cases hw with
  | node l v cs distinct _ below =>
    exact ⟨distinct,fun c hc => wellNamed_weaken ok _ (fun _ _ => trivial) c (below c hc)⟩

theorem distinct_below (cs : List (LabelTree κ α)) (hd : Distinct cs) (c : LabelTree κ α)
    (hc : c ∈ cs) : Distinct c.children := by
  have hw := hd.2 c hc
  cases hw with
  | node l v ds distinct _ below => exact ⟨distinct,below⟩

theorem distinct_wellNamed (t : LabelTree κ α) (hd : Distinct t.children) :
    WellNamed (fun _ => True) t := by
  cases t with
  | node l v cs => exact .node l v cs hd.1 (fun _ _ => trivial) hd.2

theorem proper_prefixes (P : List κ → Prop) (k j : κ) (ks : List κ) :
    (∀ js, js ≠ [] → js <+: k::j::ks → js ≠ k::j::ks → P js) ↔
      P [k] ∧ ∀ js, js ≠ [] → js <+: j::ks → js ≠ j::ks → P (k::js) := by
  constructor
  · intro h
    constructor
    · exact h [k] (by simp) (by simp) (by simp)
    · intro js _ hprefix hne
      exact h (k::js) (by simp) (by simpa using hprefix) (by simpa using hne)
  · rintro ⟨hfirst,hrest⟩ js hjs hprefix hne
    obtain ⟨i,js,rfl⟩ := List.exists_cons_of_ne_nil hjs
    obtain ⟨rfl,htail⟩ := List.cons_prefix_cons.mp hprefix
    by_cases hnil : js = []
    · rw [hnil]
      exact hfirst
    · exact hrest js hnil htail (fun h => hne (by rw [h]))

theorem single_prefix (P : List κ → Prop) (k : κ) :
    ∀ js, js ≠ [] → js <+: [k] → js ≠ [k] → P js := by
  intro js hjs hprefix hne
  obtain ⟨i,js,rfl⟩ := List.exists_cons_of_ne_nil hjs
  obtain ⟨rfl,htail⟩ := List.cons_prefix_cons.mp hprefix
  have hnil : js = [] := List.prefix_nil.mp htail
  exact absurd (by rw [hnil]) hne

section Descend
variable [DecidableEq κ]

theorem walk_descend (t : LabelTree κ α) (hd : Distinct t.children) (is : List ℕ)
    (ks : List κ) (m : LabelTree κ α) (hm : t.walk is = some m) (hk : t.names is = some ks) :
    t.descend ks = some m := by
  induction is generalizing t ks with
  | nil =>
    rw [names_nil] at hk
    cases hk
    rwa [descend_nil, ← walk_nil]
  | cons i is ih =>
    obtain ⟨c,ks,hc,hks,rfl⟩ := (names_step t i is ks).mp hk
    rw [walk_cons, hc, Option.bind_some] at hm
    have hmem : c ∈ t.children := List.mem_of_getElem? hc
    rw [descend_cons, child_distinct t.children hd.1 c hmem, Option.bind_some]
    exact ih c (distinct_below t.children hd c hmem) ks hm hks

/-- A node is reached by its path unless there is a leaf on the way. -/
theorem reach_descend (leaf : α → Bool) (t : LabelTree κ α) (ks : List κ) (m : LabelTree κ α) :
    reach firstChild leaf t.children ks = some m ↔ ks ≠ [] ∧ t.descend ks = some m ∧
      ∀ js, js ≠ [] → js <+: ks → js ≠ ks →
        (t.descend js).map (fun c => leaf c.val) = some false := by
  induction ks generalizing t with
  | nil => simp [reach]
  | cons k ks ih =>
    have hchild : firstChild t.children k = child k t.children := rfl
    cases ks with
    | nil =>
      have hnone := single_prefix
        (fun js => (t.descend js).map (fun c => leaf c.val) = some false) k
      rw [reach, hchild]
      constructor
      · intro hc
        exact ⟨by simp,by simpa using hc,hnone⟩
      · rintro ⟨-,hc,-⟩
        simpa using hc
    | cons j ks =>
      rw [reach, hchild, proper_prefixes]
      cases hc : child k t.children with
      | none => simp [hc]
      | some c =>
        have hdown : ∀ js, t.descend (k::js) = c.descend js := by
          intro js
          rw [descend_cons, hc, Option.bind_some]
        simp only [Option.bind_some, hdown, descend_nil, Option.map_some]
        by_cases hleaf : leaf c.val = true
        · simp [hleaf]
        · rw [if_neg hleaf, ih c]
          simp [hleaf]

theorem childless_iff (t m : LabelTree κ α) (ks : List κ) (hm : t.descend ks = some m) :
    m.children = [] ↔ ∀ k, t.descend (ks++[k]) = none := by
  have hstep : ∀ k, t.descend (ks++[k]) = child k m.children := by
    intro k
    induction ks generalizing t with
    | nil =>
      rw [descend_nil] at hm
      cases hm
      simp
    | cons j ks ih =>
      rw [descend_cons] at hm
      obtain ⟨c,hc,hm⟩ := Option.bind_eq_some_iff.mp hm
      rw [List.cons_append, descend_cons, hc, Option.bind_some, ih c hm]
  constructor
  · intro hnil k
    rw [hstep, hnil]
    rfl
  · intro hnone
    rw [List.eq_nil_iff_forall_not_mem]
    intro c hc
    have h := hnone c.label
    rw [hstep] at h
    simpa using List.find?_eq_none.mp h c hc

end Descend

inductive Bare (leaf : α → Bool) : LabelTree κ α → Prop
  | node (l : κ) (v : α) (cs : List (LabelTree κ α)) (bare : leaf v = true → cs = [])
      (below : ∀ c ∈ cs, Bare leaf c) : Bare leaf (node l v cs)

theorem bare_map {β : Type*} (leaf : β → Bool) (g : α → β) (t : LabelTree κ α)
    (h : Bare (fun v => leaf (g v)) t) : Bare leaf (t.map g) := by
  induction h with
  | node l v cs bare below ih =>
    rw [map_node]
    apply Bare.node
    · intro hleaf
      rw [bare hleaf, List.map_nil]
    · intro c hc
      obtain ⟨d,hd,rfl⟩ := List.mem_map.mp hc
      exact ih d hd

theorem bare_reach [DecidableEq κ] (leaf : α → Bool) (t m : LabelTree κ α)
    (hb : ∀ c ∈ t.children, Bare leaf c) (ks : List κ) (hks : ks ≠ [])
    (hm : t.descend ks = some m) : reach firstChild leaf t.children ks = some m := by
  induction ks generalizing t with
  | nil => exact absurd rfl hks
  | cons k ks ih =>
    rw [descend_cons] at hm
    obtain ⟨c,hc,hm⟩ := Option.bind_eq_some_iff.mp hm
    cases ks with
    | nil =>
      rw [descend_nil] at hm
      cases hm
      exact hc
    | cons j ks =>
      cases hb c (child_mem k _ c hc) with
      | node l v cs bare below =>
        have hleaf : leaf v = false := by
          by_contra hleaf
          rw [bare (by simpa using hleaf)] at hm
          cases hm
        rw [reach_down firstChild leaf t.children k (j::ks) _ hc hleaf (by simp)]
        exact ih _ below (by simp) hm

end Grandma.LabelTree

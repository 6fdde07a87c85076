import Mathlib.Tactic

/-!
# Ordered trees addressed by label paths

A node carries a label, a payload and an ordered list of children. A path is
resolved by taking, at every level, the first child with the wanted label;
siblings may share a label, and then only the first of them is reachable.
Writing along a path changes one payload, and may create the nodes that are
missing on the way. Labels and payloads are arbitrary.
-/

set_option autoImplicit false

namespace Grandma

inductive LabelTree (κ α : Type*) where
  | node (label : κ) (val : α) (children : List (LabelTree κ α))

namespace LabelTree

variable {κ α β : Type*}

def label : LabelTree κ α → κ
  | node l _ _ => l

def val : LabelTree κ α → α
  | node _ v _ => v

def children : LabelTree κ α → List (LabelTree κ α)
  | node _ _ cs => cs

@[simp] theorem label_node (l : κ) (v : α) (cs : List (LabelTree κ α)) :
    (node l v cs).label = l := rfl

@[simp] theorem val_node (l : κ) (v : α) (cs : List (LabelTree κ α)) :
    (node l v cs).val = v := rfl

@[simp] theorem children_node (l : κ) (v : α) (cs : List (LabelTree κ α)) :
    (node l v cs).children = cs := rfl

@[elab_as_elim, induction_eliminator]
theorem by_children {motive : LabelTree κ α → Prop}
    (node : ∀ l v cs, (∀ c ∈ cs, motive c) → motive (node l v cs))
    (t : LabelTree κ α) : motive t := by
  refine LabelTree.rec (motive_2 := fun cs => ∀ c ∈ cs, motive c) node ?_ ?_ t
  · simp
  · intro c cs hc hcs d hd
    rcases List.mem_cons.mp hd with rfl | hd
    · exact hc
    · exact hcs d hd

mutual
def map (g : α → β) : LabelTree κ α → LabelTree κ β
  | node l v cs => node l (g v) (mapAll g cs)

def mapAll (g : α → β) : List (LabelTree κ α) → List (LabelTree κ β)
  | [] => []
  | c::cs => map g c::mapAll g cs
end

theorem mapAll_eq (g : α → β) (cs : List (LabelTree κ α)) : mapAll g cs = cs.map (map g) := by
  induction cs with
  | nil => rfl
  | cons c cs ih => rw [mapAll, ih, List.map_cons]

@[simp] theorem map_node (g : α → β) (l : κ) (v : α) (cs : List (LabelTree κ α)) :
    (node l v cs).map g = node l (g v) (cs.map (map g)) := by
  rw [map, mapAll_eq]

@[simp] theorem map_label (g : α → β) (t : LabelTree κ α) : (t.map g).label = t.label := by
  cases t
  rw [map_node, label_node, label_node]

@[simp] theorem map_children (g : α → β) (t : LabelTree κ α) :
    (t.map g).children = t.children.map (map g) := by
  cases t
  rw [map_node, children_node, children_node]

@[simp] theorem map_val (g : α → β) (t : LabelTree κ α) : (t.map g).val = g t.val := by
  cases t
  rw [map_node, val_node, val_node]

inductive WellNamed (ok : κ → Prop) : LabelTree κ α → Prop
  | node (l : κ) (v : α) (cs : List (LabelTree κ α)) (distinct : (cs.map label).Nodup)
      (named : ∀ c ∈ cs, ok c.label) (below : ∀ c ∈ cs, WellNamed ok c) : WellNamed ok (node l v cs)

theorem wellNamed_weaken (ok ok' : κ → Prop) (h : ∀ k, ok k → ok' k) (t : LabelTree κ α)
    (hw : WellNamed ok t) : WellNamed ok' t := by
  induction hw with
  | node l v cs distinct named below ih =>
    exact .node l v cs distinct (fun c hc => h _ (named c hc)) ih

theorem map_wellNamed (ok : κ → Prop) (g : α → β) (t : LabelTree κ α)
    (h : WellNamed ok (t.map g)) : WellNamed ok t := by
  induction t with
  | node l v cs ih =>
    rw [map_node] at h
    cases h with
    | node _ _ _ distinct named below =>
      apply WellNamed.node
      · simpa [List.map_map, Function.comp_def] using distinct
      · intro c hc
        simpa using named _ (List.mem_map_of_mem hc)
      · intro c hc
        exact ih c hc (below _ (List.mem_map_of_mem hc))

section Lookup
variable [DecidableEq κ]

def child (k : κ) (cs : List (LabelTree κ α)) : Option (LabelTree κ α) :=
  cs.find? (fun c => c.label = k)

def descend : LabelTree κ α → List κ → Option (LabelTree κ α)
  | t, [] => some t
  | t, k::ks => (child k t.children).bind (fun c => c.descend ks)

def putBack (k : κ) (d : LabelTree κ α) : List (LabelTree κ α) → List (LabelTree κ α)
  | [] => []
  | c::cs => if c.label = k then d::cs else c::putBack k d cs

/-- Change the payload at the end of a path. A missing child is created with
payload `blank n` at depth `n` when `add` is set; otherwise there is no result. -/
def writeAt (add : Bool) (f : α → α) : (ℕ → α) → LabelTree κ α → List κ → Option (LabelTree κ α)
  | _, node l v cs, [] => some (node l (f v) cs)
  | blank, node l v cs, k::ks =>
    match child k cs with
    | some c => (writeAt add f (fun n => blank (n+1)) c ks).map (fun d => node l v (putBack k d cs))
    | none => if add then (writeAt add f (fun n => blank (n+1)) (node k (blank 0) []) ks).map
        (fun d => node l v (cs++[d])) else none

theorem child_label (k : κ) (cs : List (LabelTree κ α)) (c : LabelTree κ α)
    (h : child k cs = some c) : c.label = k := by
  simpa using List.find?_some h

theorem child_mem (k : κ) (cs : List (LabelTree κ α)) (c : LabelTree κ α)
    (h : child k cs = some c) : c ∈ cs :=
  List.mem_of_find?_eq_some h

theorem child_cons (k : κ) (c : LabelTree κ α) (cs : List (LabelTree κ α)) :
    child k (c::cs) = if c.label = k then some c else child k cs := by
  by_cases h : c.label = k <;> simp [child, h]

theorem child_distinct (cs : List (LabelTree κ α)) (hd : (cs.map label).Nodup)
    (c : LabelTree κ α) (hc : c ∈ cs) : child c.label cs = some c := by
  induction cs with
  | nil => simp at hc
  | cons d cs ih =>
    obtain ⟨hfresh,hcs⟩ := List.nodup_cons.mp hd
    rw [child_cons]
    rcases List.mem_cons.mp hc with rfl | hc
    · rw [if_pos rfl]
    · have hne : d.label ≠ c.label := fun h => hfresh (h ▸ List.mem_map_of_mem hc)
      rw [if_neg hne, ih hcs hc]

theorem child_map (g : α → β) (k : κ) (cs : List (LabelTree κ α)) :
    child k (cs.map (map g)) = (child k cs).map (map g) := by
  simp [child, List.find?_map]

theorem map_putBack (g : α → β) (k : κ) (c d : LabelTree κ α) (cs : List (LabelTree κ α))
    (hc : child k cs = some c) (hd : d.map g = c.map g) :
    (putBack k d cs).map (map g) = cs.map (map g) := by
  induction cs with
  | nil => simp [child] at hc
  | cons e cs ih =>
    rw [child_cons] at hc
    by_cases he : e.label = k
    · rw [if_pos he] at hc
      rw [putBack, if_pos he, List.map_cons, List.map_cons, hd, Option.some.inj hc]
    · rw [if_neg he] at hc
      rw [putBack, if_neg he, List.map_cons, List.map_cons, ih hc]

theorem image_putBack (g : α → β) (k : κ) (d : LabelTree κ α) (cs : List (LabelTree κ α)) :
    (putBack k d cs).map (map g) = putBack k (d.map g) (cs.map (map g)) := by
  induction cs with
  | nil => rfl
  | cons c cs ih =>
    rw [List.map_cons, putBack, putBack, map_label]
    split_ifs
    · rw [List.map_cons]
    · rw [List.map_cons, ih]

theorem child_putBack (k j : κ) (d : LabelTree κ α) (cs : List (LabelTree κ α))
    (hd : d.label = k) :
    child j (putBack k d cs) = if j = k then (child k cs).map (fun _ => d) else child j cs := by
  induction cs with
  | nil => simp [putBack, child]
  | cons c cs ih =>
    by_cases hc : c.label = k
    · rw [putBack, if_pos hc, child_cons, child_cons, child_cons, hd, if_pos hc]
      by_cases hj : j = k
      · simp [hj]
      · have hkj : k ≠ j := Ne.symm hj
        rw [if_neg hkj, if_neg hj, if_neg (hc ▸ hkj)]
    · rw [putBack, if_neg hc, child_cons, child_cons, child_cons, ih, if_neg hc]
      by_cases hj : j = k
      · rw [if_pos hj, if_neg (hj ▸ hc), if_pos hj]
      · rw [if_neg hj, if_neg hj]

theorem child_append_fresh (k j : κ) (d : LabelTree κ α) (cs : List (LabelTree κ α))
    (hd : d.label = k) (hk : child k cs = none) :
    child j (cs++[d]) = if j = k then some d else child j cs := by
  have hcs : ∀ c ∈ cs, c.label ≠ k := by simpa [child] using hk
  by_cases hj : j = k
  · subst hj
    rw [if_pos rfl, child, List.find?_append]
    rw [show cs.find? (fun c => c.label = j) = none from hk]
    simp [hd]
  · have hkj : k ≠ j := Ne.symm hj
    rw [if_neg hj, child, List.find?_append]
    simp [child, hd, hkj]

@[simp] theorem descend_nil (t : LabelTree κ α) : t.descend [] = some t := by
  cases t
  rfl

@[simp] theorem descend_cons (t : LabelTree κ α) (k : κ) (ks : List κ) :
    t.descend (k::ks) = (child k t.children).bind (fun c => c.descend ks) := by
  cases t
  rfl

theorem descend_map (g : α → β) (t : LabelTree κ α) (ks : List κ) :
    (t.map g).descend ks = (t.descend ks).map (map g) := by
  induction ks generalizing t with
  | nil => simp
  | cons k ks ih =>
    rw [descend_cons, descend_cons, map_children, child_map]
    cases child k t.children with
    | none => rfl
    | some c => exact ih c

theorem descend_named (ok : κ → Prop) (t s : LabelTree κ α) (ks : List κ) (hw : WellNamed ok t)
    (h : t.descend ks = some s) : ∀ k ∈ ks, ok k := by
  induction ks generalizing t with
  | nil => simp
  | cons k ks ih =>
    rw [descend_cons] at h
    obtain ⟨c,hc,hs⟩ := Option.bind_eq_some_iff.mp h
    cases hw with
    | node l v cs _ named below =>
      intro j hj
      rcases List.mem_cons.mp hj with rfl | hj
      · have hn := named c (child_mem _ _ _ hc)
        rwa [child_label _ _ _ hc] at hn
      · exact ih c (below c (child_mem _ _ _ hc)) hs j hj

theorem write_label (add : Bool) (f : α → α) (ks : List κ) (blank : ℕ → α)
    (t s : LabelTree κ α) (h : writeAt add f blank t ks = some s) : s.label = t.label := by
  cases t with
  | node l v cs =>
    cases ks with
    | nil =>
      cases Option.some.inj h
      rfl
    | cons k ks =>
      simp only [writeAt] at h
      split at h
      · obtain ⟨d,-,rfl⟩ := Option.map_eq_some_iff.mp h
        rfl
      · split at h
        · obtain ⟨d,-,rfl⟩ := Option.map_eq_some_iff.mp h
          rfl
        · cases h

/-- What a write along a nonempty path does to the children: the first child on
the path is changed, or a new last child is created and changed. -/
theorem write_cons (add : Bool) (f : α → α) (blank : ℕ → α) (t s : LabelTree κ α)
    (k : κ) (ks : List κ) (h : writeAt add f blank t (k::ks) = some s) :
    s.val = t.val ∧
      ((∃ c d, child k t.children = some c ∧ d.label = k ∧
          writeAt add f (fun n => blank (n+1)) c ks = some d ∧
          s.children = putBack k d t.children) ∨
        (∃ d, child k t.children = none ∧ d.label = k ∧ add = true ∧
          writeAt add f (fun n => blank (n+1)) (node k (blank 0) []) ks = some d ∧
          s.children = t.children++[d])) := by
  cases t with
  | node l v cs =>
    simp only [writeAt] at h
    split at h
    · rename_i c hc
      obtain ⟨d,hd,rfl⟩ := Option.map_eq_some_iff.mp h
      have hl : d.label = k := (write_label _ _ _ _ _ _ hd).trans (child_label k _ c hc)
      exact ⟨rfl,Or.inl ⟨c,d,hc,hl,hd,rfl⟩⟩
    · rename_i hc
      split at h
      · rename_i hadd
        obtain ⟨d,hd,rfl⟩ := Option.map_eq_some_iff.mp h
        have hl : d.label = k := write_label _ _ _ _ _ _ hd
        exact ⟨rfl,Or.inr ⟨d,hc,hl,hadd,hd,rfl⟩⟩
      · cases h

theorem write_child (add : Bool) (f : α → α) (blank : ℕ → α) (t s : LabelTree κ α)
    (k : κ) (ks : List κ) (h : writeAt add f blank t (k::ks) = some s) (j : κ) (hj : j ≠ k) :
    child j s.children = child j t.children := by
  obtain ⟨-,⟨c,d,-,hl,-,hs⟩ | ⟨d,hc,hl,-,-,hs⟩⟩ := write_cons add f blank t s k ks h
  · rw [hs, child_putBack k j d _ hl, if_neg hj]
  · rw [hs, child_append_fresh k j d _ hl hc, if_neg hj]

theorem write_child_same (add : Bool) (f : α → α) (blank : ℕ → α) (t s : LabelTree κ α)
    (k : κ) (ks : List κ) (h : writeAt add f blank t (k::ks) = some s) :
    ∃ c d, (child k t.children).getD (node k (blank 0) []) = c ∧
      writeAt add f (fun n => blank (n+1)) c ks = some d ∧ child k s.children = some d := by
  obtain ⟨-,⟨c,d,hc,hl,hd,hs⟩ | ⟨d,hc,hl,-,hd,hs⟩⟩ := write_cons add f blank t s k ks h
  · exact ⟨c,d,by simp [hc],hd,by rw [hs, child_putBack k k d _ hl, if_pos rfl, hc]; rfl⟩
  · exact ⟨_,d,by simp [hc],hd,by rw [hs, child_append_fresh k k d _ hl hc, if_pos rfl]⟩

theorem write_creates (f : α → α) (ks : List κ) (blank : ℕ → α) (t : LabelTree κ α) :
    ∃ s, writeAt true f blank t ks = some s := by
  induction ks generalizing blank t with
  | nil =>
    cases t
    exact ⟨_,rfl⟩
  | cons k ks ih =>
    cases t with
    | node l v cs =>
      simp only [writeAt]
      split
      · rename_i c _
        obtain ⟨s,hs⟩ := ih (fun n => blank (n+1)) c
        exact ⟨_,by rw [hs]; rfl⟩
      · obtain ⟨s,hs⟩ := ih (fun n => blank (n+1)) (node k (blank 0) [])
        exact ⟨_,by rw [hs]; rfl⟩

theorem write_resolves (f : α → α) (ks : List κ) (blank : ℕ → α) (t : LabelTree κ α) :
    (writeAt false f blank t ks).isSome = (t.descend ks).isSome := by
  induction ks generalizing blank t with
  | nil =>
    cases t
    rfl
  | cons k ks ih =>
    cases t with
    | node l v cs =>
      simp only [writeAt, descend_cons, children_node]
      cases hc : child k cs with
      | none => simp
      | some c => simpa using ih (fun n => blank (n+1)) c

theorem write_map (f : α → α) (g : α → β) (hf : ∀ v, g (f v) = g v) (ks : List κ) (blank : ℕ → α)
    (t s : LabelTree κ α) (h : writeAt false f blank t ks = some s) : s.map g = t.map g := by
  induction ks generalizing blank t s with
  | nil =>
    cases t with
    | node l v cs =>
      cases Option.some.inj h
      rw [map_node, map_node, hf]
  | cons k ks ih =>
    have hl := write_label _ _ _ _ _ _ h
    obtain ⟨hv,⟨c,d,hc,-,hd,hs⟩ | ⟨d,-,-,hadd,-⟩⟩ := write_cons false f blank t s k ks h
    · cases t with
      | node l v cs =>
        cases s with
        | node l' v' cs' =>
          simp only [label_node, val_node, children_node] at hl hv hs hc
          rw [map_node, map_node, hl, hv, hs, map_putBack g k c d cs hc (ih _ c d hd)]
    · cases hadd

theorem write_image (add : Bool) (f : α → α) (f' : β → β) (g : α → β)
    (hf : ∀ v, g (f v) = f' (g v)) (ks : List κ) (blank : ℕ → α) (t : LabelTree κ α) :
    (writeAt add f blank t ks).map (map g) =
      writeAt add f' (fun n => g (blank n)) (t.map g) ks := by
  induction ks generalizing blank t with
  | nil =>
    cases t with
    | node l v cs => simp [writeAt, hf]
  | cons k ks ih =>
    cases t with
    | node l v cs =>
      rw [map_node]
      simp only [writeAt, child_map]
      cases child k cs with
      | some c =>
        simp only [Option.map_some]
        rw [← ih (fun n => blank (n+1)) c, Option.map_map, Option.map_map]
        congr 1
        funext d
        simp [image_putBack]
      | none =>
        simp only [Option.map_none]
        have hnew := ih (fun n => blank (n+1)) (node k (blank 0) [])
        rw [map_node, List.map_nil] at hnew
        rw [← hnew]
        split_ifs
        · rw [Option.map_map, Option.map_map]
          congr 1
          funext d
          simp
        · rfl

theorem write_existing (f : α → α) (ks : List κ) (blank : ℕ → α) (t s : LabelTree κ α)
    (h : writeAt false f blank t ks = some s) : writeAt true f blank t ks = some s := by
  induction ks generalizing blank t s with
  | nil =>
    cases t
    exact h
  | cons k ks ih =>
    cases t with
    | node l v cs =>
      simp only [writeAt] at h ⊢
      cases hc : child k cs with
      | none => simp [hc] at h
      | some c =>
        simp only [hc] at h ⊢
        obtain ⟨d,hd,rfl⟩ := Option.map_eq_some_iff.mp h
        rw [ih _ c d hd]
        rfl

def readAt (obs : α → β) (none₀ : β) (t : LabelTree κ α) (ks : List κ) : β :=
  ((t.descend ks).map (fun s => obs s.val)).getD none₀

theorem read_cons (obs : α → β) (none₀ : β) (t : LabelTree κ α) (k : κ) (ks : List κ) :
    t.readAt obs none₀ (k::ks) =
      ((child k t.children).map (fun c => c.readAt obs none₀ ks)).getD none₀ := by
  rw [readAt, descend_cons]
  cases child k t.children <;> rfl

theorem read_blank (obs : α → β) (none₀ : β) (k : κ) (v : α) (hv : obs v = none₀) (ks : List κ) :
    (node k v []).readAt obs none₀ ks = none₀ := by
  cases ks with
  | nil => simpa [readAt] using hv
  | cons j ks => rw [read_cons]; rfl

/-- A write is a point update of the map from paths to observations. The
induction is on the path and carries the whole tree: the intermediate nodes
that get created read as `none₀`, which is what their absence read as. -/
theorem read_write (add : Bool) (f : α → α) (obs : α → β) (none₀ d : β) (hf : ∀ v, obs (f v) = d)
    (ks : List κ) (blank : ℕ → α) (hb : ∀ n, obs (blank n) = none₀) (t s : LabelTree κ α)
    (h : writeAt add f blank t ks = some s) (js : List κ) :
    s.readAt obs none₀ js = if js = ks then d else t.readAt obs none₀ js := by
  induction ks generalizing blank t s js with
  | nil =>
    cases t with
    | node l v cs =>
      cases Option.some.inj h
      cases js with
      | nil => simpa [readAt] using hf v
      | cons j js => rw [if_neg (by simp), read_cons, read_cons]; rfl
  | cons k ks ih =>
    cases js with
    | nil =>
      have hv := (write_cons add f blank t s k ks h).1
      rw [if_neg (by simp)]
      simp [readAt, hv]
    | cons j js =>
      by_cases hj : j = k
      · subst hj
        obtain ⟨c,e,hc,he,hs⟩ := write_child_same add f blank t s j ks h
        have hih := ih (fun n => blank (n+1)) (fun n => hb (n+1)) c e he js
        have hold : c.readAt obs none₀ js = t.readAt obs none₀ (j::js) := by
          rw [read_cons, ← hc]
          cases child j t.children with
          | none => exact read_blank obs none₀ j (blank 0) (hb 0) js
          | some c => rfl
        rw [read_cons, hs, Option.map_some, Option.getD_some, hih, hold]
        simp
      · rw [read_cons, write_child add f blank t s k ks h j hj, ← read_cons, if_neg (by simp [hj])]

theorem putBack_labels (k : κ) (d : LabelTree κ α) (hd : d.label = k)
    (cs : List (LabelTree κ α)) : (putBack k d cs).map label = cs.map label := by
  induction cs with
  | nil => rfl
  | cons c cs ih =>
    rw [putBack]
    split_ifs with hc
    · rw [List.map_cons, List.map_cons, hd, hc]
    · rw [List.map_cons, List.map_cons, ih]

theorem mem_putBack (k : κ) (c d : LabelTree κ α) (cs : List (LabelTree κ α))
    (h : c ∈ putBack k d cs) : c = d ∨ c ∈ cs := by
  induction cs with
  | nil => cases h
  | cons e cs ih =>
    rw [putBack] at h
    split_ifs at h with he
    · rcases List.mem_cons.mp h with rfl | h
      · exact Or.inl rfl
      · exact Or.inr (List.mem_cons_of_mem e h)
    · rcases List.mem_cons.mp h with rfl | h
      · exact Or.inr List.mem_cons_self
      · exact (ih h).imp_right (List.mem_cons_of_mem e)

theorem write_wellNamed (ok : κ → Prop) (add : Bool) (f : α → α) (ks : List κ)
    (hks : ∀ k ∈ ks, ok k) (blank : ℕ → α) (t s : LabelTree κ α) (hw : WellNamed ok t)
    (h : writeAt add f blank t ks = some s) : WellNamed ok s := by
  induction ks generalizing blank t s with
  | nil =>
    cases hw with
    | node l v cs distinct named below =>
      cases Option.some.inj h
      exact .node l (f v) cs distinct named below
  | cons k ks ih =>
    have hk : ok k := hks k List.mem_cons_self
    have ih := ih (fun j hj => hks j (List.mem_cons_of_mem k hj)) (fun n => blank (n+1))
    obtain ⟨-,hcases⟩ := write_cons add f blank t s k ks h
    cases hw with
    | node l v cs distinct named below =>
      cases s with
      | node l' v' ds =>
        simp only [children_node] at hcases
        rcases hcases with ⟨c,d,hc,hl,hd,rfl⟩ | ⟨d,hc,hl,-,hd,rfl⟩
        · have hwd := ih c d (below c (child_mem k cs c hc)) hd
          apply WellNamed.node
          · rwa [putBack_labels k d hl]
          · intro e he
            rcases mem_putBack k e d cs he with rfl | he
            · rwa [hl]
            · exact named e he
          · intro e he
            rcases mem_putBack k e d cs he with rfl | he
            · exact hwd
            · exact below e he
        · have hcs : ∀ c ∈ cs, c.label ≠ k := by simpa [child] using hc
          have hwd := ih _ d (.node k (blank 0) [] List.nodup_nil (by simp) (by simp)) hd
          apply WellNamed.node
          · rw [List.map_append, List.nodup_append]
            exact ⟨distinct,by simp,by simpa [hl] using hcs⟩
          · simpa [or_imp, forall_and, hl, hk] using named
          · simpa [or_imp, forall_and, hwd] using below

/-- After a write with creation there are the nodes that were there, with what
`f` leaves alone in their payloads, and blank ones at the prefixes that were
missing. -/
theorem descend_write (f : α → α) (obs : α → β) (hf : ∀ v, obs (f v) = obs v) (ks : List κ)
    (blank : ℕ → α) (t s : LabelTree κ α) (h : writeAt true f blank t ks = some s)
    (js : List κ) : (s.descend js).map (fun c => obs c.val) =
      ((t.descend js).map (fun c => obs c.val)).or
        (if js <+: ks then some (obs (blank (js.length-1))) else none) := by
  induction ks generalizing blank t s js with
  | nil =>
    cases t with
    | node l v cs =>
      cases Option.some.inj h
      cases js with
      | nil => simp [hf]
      | cons j js => simp
  | cons k ks ih =>
    cases js with
    | nil => simp [(write_cons true f blank t s k ks h).1]
    | cons j js =>
      rw [descend_cons, descend_cons]
      by_cases hj : j = k
      · subst hj
        obtain ⟨c,d,hc,hd,hs⟩ := write_child_same true f blank t s j ks h
        have ih := ih (fun n => blank (n+1)) c d hd js
        have hprefix : j::js <+: j::ks ↔ js <+: ks := by simp
        rw [hs, Option.bind_some, ih]
        cases hold : child j t.children with
        | some e =>
          have hce : e = c := by simpa [hold] using hc
          cases js with
          | nil => simp [hce]
          | cons i js => simp [hce, hprefix]
        | none =>
          have hblank : node j (blank 0) [] = c := by simpa [hold] using hc
          cases js with
          | nil => simp [← hblank]
          | cons i js => simp [← hblank, child, hprefix]
      · have hprefix : ¬ j::js <+: k::ks := by simp [hj]
        rw [write_child true f blank t s k ks h j hj, if_neg hprefix, Option.or_none]

end Lookup

end LabelTree

end Grandma

import Mathlib.Data.List.Lex
import Mathlib.Tactic

/-!
# Ordered maps as strictly sorted entry lists

A map is a list of entries with strictly increasing keys, so that two maps
with the same lookups are the same list and a traversal visits the keys in
order. Writing a key replaces its entry; inserting keeps an entry that is
already there. Nothing here depends on what keys or values are.
-/

set_option autoImplicit false

namespace Grandma.OrderedMap

universe u v

section Entries
variable {κ : Type u} {ν : Type v} [LinearOrder κ]

def assign (k : κ) (v : ν) : List (κ × ν) → List (κ × ν)
  | [] => [(k,v)]
  | e::es => if k < e.1 then (k,v)::e::es else if k = e.1 then (k,v)::es else e::assign k v es

def lookup (k : κ) : List (κ × ν) → Option ν
  | [] => none
  | e::es => if k = e.1 then some e.2 else lookup k es

def Sorted (es : List (κ × ν)) : Prop := es.Pairwise (fun a b => a.1 < b.1)

/-- The lookup law needs no order: the first entry under a key is the one replaced. -/
theorem lookup_assign (k j : κ) (v : ν) (es : List (κ × ν)) :
    lookup j (assign k v es) = if j = k then some v else lookup j es := by
  induction es with
  | nil => simp [assign, lookup]
  | cons e es ih =>
    by_cases hlt : k < e.1
    · rw [assign, if_pos hlt, lookup]
    · by_cases heq : k = e.1
      · rw [assign, if_neg hlt, if_pos heq, lookup, lookup, heq]
        split_ifs <;> rfl
      · rw [assign, if_neg hlt, if_neg heq, lookup, lookup, ih]
        by_cases hj : j = e.1
        · have hk : j ≠ k := fun h => heq (h.symm.trans hj)
          rw [if_pos hj, if_neg hk, if_pos hj]
        · rw [if_neg hj, if_neg hj]

theorem mem_assign (k : κ) (v : ν) (es : List (κ × ν)) (x : κ × ν)
    (h : x ∈ assign k v es) : x = (k,v) ∨ x ∈ es := by
  induction es with
  | nil => simpa [assign] using h
  | cons e es ih =>
    simp only [assign] at h
    split_ifs at h with hlt heq
    · simpa using h
    · rcases List.mem_cons.mp h with h | h
      · exact Or.inl h
      · exact Or.inr (List.mem_cons_of_mem _ h)
    · rcases List.mem_cons.mp h with h | h
      · exact Or.inr (by simp [h])
      · exact (ih h).imp id (List.mem_cons_of_mem _)

theorem assign_sorted (k : κ) (v : ν) (es : List (κ × ν)) (hs : Sorted es) :
    Sorted (assign k v es) := by
  induction es with
  | nil => simp [assign, Sorted]
  | cons e es ih =>
    obtain ⟨he,hes⟩ := List.pairwise_cons.mp hs
    simp only [assign]
    split_ifs with hlt heq
    · apply List.pairwise_cons.mpr
      constructor
      · intro x hx
        rcases List.mem_cons.mp hx with rfl | hx
        · exact hlt
        · exact hlt.trans (he x hx)
      · exact hs
    · exact List.pairwise_cons.mpr ⟨fun x hx => heq ▸ he x hx,hes⟩
    · apply List.pairwise_cons.mpr
      constructor
      · intro x hx
        rcases mem_assign k v es x hx with rfl | hx
        · exact lt_of_le_of_ne (not_lt.mp hlt) (Ne.symm heq)
        · exact he x hx
      · exact ih hes

theorem sorted_nodup (es : List (κ × ν)) (hs : Sorted es) : (es.map Prod.fst).Nodup := by
  apply List.pairwise_map.mpr
  apply hs.imp
  intro a b h
  exact ne_of_lt h

theorem mem_iff_lookup (es : List (κ × ν)) (hn : (es.map Prod.fst).Nodup) (k : κ) (v : ν) :
    (k,v) ∈ es ↔ lookup k es = some v := by
  induction es with
  | nil => simp [lookup]
  | cons e es ih =>
    obtain ⟨he,hes⟩ := List.nodup_cons.mp hn
    rw [List.mem_cons, lookup, Prod.ext_iff]
    by_cases hk : k = e.1
    · have hfresh : (k,v) ∉ es := fun h => he (List.mem_map.mpr ⟨(k,v),h,hk⟩)
      rw [if_pos hk, Option.some.injEq]
      exact ⟨fun h => h.elim (fun h => h.2.symm) (fun h => absurd h hfresh),
        fun h => Or.inl ⟨hk,h.symm⟩⟩
    · simp [hk, ih hes]

theorem entries_ext (es fs : List (κ × ν)) (hes : Sorted es) (hfs : Sorted fs)
    (h : ∀ k, lookup k es = lookup k fs) : es = fs := by
  have hn := sorted_nodup es hes
  have hm := sorted_nodup fs hfs
  have hmem : ∀ x, x ∈ es ↔ x ∈ fs := by
    rintro ⟨k,v⟩
    rw [mem_iff_lookup es hn, mem_iff_lookup fs hm, h]
  have hperm : es.Perm fs := (List.perm_ext_iff_of_nodup hn.of_map hm.of_map).mpr hmem
  exact hperm.eq_of_pairwise (fun a b _ _ hab hba => absurd hab hba.asymm) hes hfs

theorem lookup_map {μ : Type*} (f : ν → μ) (k : κ) (es : List (κ × ν)) :
    lookup k (es.map (fun e => (e.1,f e.2))) = (lookup k es).map f := by
  induction es with
  | nil => rfl
  | cons e es ih =>
    rw [List.map_cons, lookup, lookup, ih]
    by_cases h : k = e.1
    · rw [if_pos h, if_pos h, Option.map_some]
    · rw [if_neg h, if_neg h]

section Collect
variable {α : Type*}

def collect (key : α → κ) (f : α → Option ν) : List (κ × ν) → List α → List (κ × ν)
  | es, [] => es
  | es, a::as =>
    match f a with
    | some v => collect key f (assign (key a) v es) as
    | none => collect key f es as

/-- The last element under a key that has a value decides, however the equality
of keys is decided. -/
theorem lookup_collect [DecidableEq κ] (key : α → κ) (f : α → Option ν) (k : κ) (as : List α)
    (es : List (κ × ν)) : lookup k (collect key f es as) =
      ((as.reverse.find? (fun a => key a = k && (f a).isSome)).bind f).or (lookup k es) := by
  induction as generalizing es with
  | nil => rfl
  | cons a as ih =>
    rw [collect, List.reverse_cons, List.find?_append]
    cases hfind : as.reverse.find? (fun a => key a = k && (f a).isSome) with
    | some b =>
      have hb : (f b).isSome := by
        have h := List.find?_some hfind
        simp only [Bool.and_eq_true] at h
        exact h.2
      obtain ⟨v,hv⟩ := Option.isSome_iff_exists.mp hb
      cases f a <;> simp [ih, hfind, hv]
    | none =>
      cases hf : f a with
      | none => simp [ih, hfind, hf]
      | some v =>
        by_cases hk : key a = k
        · simp [ih, hfind, hf, hk, lookup_assign]
        · have hk' : k ≠ key a := Ne.symm hk
          simp [ih, hfind, hf, hk, hk', lookup_assign]

theorem collect_sorted (key : α → κ) (f : α → Option ν) (as : List α) (es : List (κ × ν))
    (hs : Sorted es) : Sorted (collect key f es as) := by
  induction as generalizing es with
  | nil => exact hs
  | cons a as ih =>
    rw [collect]
    split
    · exact ih _ (assign_sorted _ _ es hs)
    · exact ih _ hs

theorem mem_keys (k : κ) (es : List (κ × ν)) : k ∈ es.map Prod.fst ↔ (lookup k es).isSome := by
  induction es with
  | nil => simp [lookup]
  | cons e es ih =>
    rw [List.map_cons, List.mem_cons, ih, lookup]
    by_cases h : k = e.1 <;> simp [h]

theorem collect_keys (key : α → κ) (f : α → Option ν) (as : List α)
    (hf : ∀ a ∈ as, (f a).isSome) (k : κ) :
    k ∈ (collect key f [] as).map Prod.fst ↔ k ∈ as.map key := by
  rw [mem_keys, lookup_collect, lookup, Option.or_none, List.mem_map]
  constructor
  · intro h
    obtain ⟨v,hv⟩ := Option.isSome_iff_exists.mp h
    obtain ⟨a,ha,-⟩ := Option.bind_eq_some_iff.mp hv
    have hkey := List.find?_some ha
    simp only [Bool.and_eq_true, decide_eq_true_eq] at hkey
    exact ⟨a,List.mem_reverse.mp (List.mem_of_find?_eq_some ha),hkey.1⟩
  · rintro ⟨a,ha,rfl⟩
    cases hfind : as.reverse.find? (fun b => key b = key a && (f b).isSome) with
    | none =>
      have hnot := List.find?_eq_none.mp hfind a (List.mem_reverse.mpr ha)
      simp [hf a ha] at hnot
    | some b => exact hf b (List.mem_reverse.mp (List.mem_of_find?_eq_some hfind))

theorem collect_length_iff (key : α → κ) (f : α → Option ν) (as : List α)
    (hf : ∀ a ∈ as, (f a).isSome) :
    (collect key f [] as).length = as.length ↔ (as.map key).Nodup := by
  have hkeys := collect_keys key f as hf
  have hnodup := sorted_nodup _ (collect_sorted key f as [] List.Pairwise.nil)
  constructor
  · intro hlen
    have hsub : ((collect key f [] as).map Prod.fst).Subperm (as.map key) :=
      List.subperm_of_subset hnodup (fun k hk => (hkeys k).mp hk)
    have hperm := hsub.perm_of_length_le (by simp [hlen])
    exact hperm.nodup_iff.mp hnodup
  · intro hdistinct
    have hperm := (List.perm_ext_iff_of_nodup hnodup hdistinct).mpr hkeys
    simpa using hperm.length_eq

end Collect

end Entries

end Grandma.OrderedMap

/-- Entries with strictly increasing keys. -/
structure Grandma.OrderedMap (κ ν : Type*) [LinearOrder κ] where
  entries : List (κ × ν)
  sorted : Grandma.OrderedMap.Sorted entries

namespace Grandma.OrderedMap

variable {κ ν : Type*} [LinearOrder κ]

def empty : OrderedMap κ ν := ⟨[],List.Pairwise.nil⟩

def find (m : OrderedMap κ ν) (k : κ) : Option ν := lookup k m.entries

def set (m : OrderedMap κ ν) (k : κ) (v : ν) : OrderedMap κ ν :=
  ⟨assign k v m.entries,assign_sorted k v m.entries m.sorted⟩

/-- Insert `v` under `k` unless `k` is already bound. -/
def insert (m : OrderedMap κ ν) (k : κ) (v : ν) : OrderedMap κ ν :=
  match m.find k with
  | some _ => m
  | none => m.set k v

@[simp] theorem find_empty (k : κ) : (empty : OrderedMap κ ν).find k = none := rfl

@[simp] theorem find_set (m : OrderedMap κ ν) (k j : κ) (v : ν) :
    (m.set k v).find j = if j = k then some v else m.find j :=
  lookup_assign k j v m.entries

theorem insert_fresh (m : OrderedMap κ ν) (k : κ) (v : ν) (h : m.find k = none) :
    m.insert k v = m.set k v := by
  simp [insert, h]

theorem mem_entries (m : OrderedMap κ ν) (k : κ) (v : ν) :
    (k,v) ∈ m.entries ↔ m.find k = some v :=
  mem_iff_lookup m.entries (sorted_nodup m.entries m.sorted) k v

theorem ext_find (m n : OrderedMap κ ν) (h : ∀ k, m.find k = n.find k) : m = n := by
  have he := entries_ext m.entries n.entries m.sorted n.sorted h
  cases m
  cases n
  cases he
  rfl

def map {μ : Type*} (f : ν → μ) (m : OrderedMap κ ν) : OrderedMap κ μ :=
  ⟨m.entries.map (fun e => (e.1,f e.2)),by
    rw [Sorted, List.pairwise_map]
    exact m.sorted⟩

@[simp] theorem find_map {μ : Type*} (f : ν → μ) (m : OrderedMap κ ν) (k : κ) :
    (m.map f).find k = (m.find k).map f :=
  lookup_map f k m.entries

end Grandma.OrderedMap

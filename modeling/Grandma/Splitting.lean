import Grandma.Helper

/-!
# Splitting and joining paths

A path is split at its separators, and its segments are joined again by the same
separators. One separator in front and one behind get lost on the way; every
other empty segment is kept.
-/

set_option autoImplicit false

namespace Grandma.Splitting
open Helper

def withoutLeading (p : Str) : Str := if p.head? = some '/' then p.tail else p

def withoutTrailing (p : Str) : Str := if p.getLast? = some '/' then p.dropLast else p

theorem vectorize_leading (p : Str) : vectorizePath p = getlines [] (withoutLeading p) := by
  rw [withoutLeading]
  split_ifs with h
  · obtain ⟨s,rfl⟩ := List.head?_eq_some_iff.mp h
    exact vectorize_slash s
  · exact vectorize_plain p h

theorem withoutTrailing_append (s t : Str) (ht : t ≠ []) :
    withoutTrailing (s++t) = s++withoutTrailing t := by
  rw [withoutTrailing, withoutTrailing, List.getLast?_append_of_ne_nil s ht,
    List.dropLast_append_of_ne_nil ht]
  split_ifs <;> rfl

theorem withoutTrailing_plain (s : Str) (hs : '/' ∉ s) : withoutTrailing s = s := by
  rw [withoutTrailing, if_neg]
  intro h
  exact hs (List.mem_of_getLast? h)

theorem withoutTrailing_slash (s : Str) : withoutTrailing (s++['/']) = s := by
  simp [withoutTrailing]

theorem getlines_empty (seg p : Str) (h : getlines seg p = []) : p = [] := by
  induction p generalizing seg with
  | nil => rfl
  | cons c p ih =>
    rw [getlines] at h
    split_ifs at h
    have hnil := ih (seg++[c]) h
    rw [hnil, getlines, if_neg (by simp)] at h
    cases h

/-- Joining undoes the loop of `getline`, except for a separator at the end: it
ends a segment and begins no other. -/
theorem joined_getlines (seg p : Str) (hseg : '/' ∉ seg) :
    joined (getlines seg p) = withoutTrailing (seg++p) := by
  induction p generalizing seg with
  | nil =>
    rw [getlines, List.append_nil, withoutTrailing_plain seg hseg]
    split_ifs with h
    · rw [h, joined]
    · simp [joined, absolute]
  | cons c p ih =>
    rw [getlines]
    split_ifs with hc
    · subst hc
      cases hrest : getlines [] p with
      | nil =>
        rw [getlines_empty [] p hrest, withoutTrailing_slash]
        simp [joined, absolute]
      | cons u us =>
        have hp : p ≠ [] := by
          rintro rfl
          cases hrest
        have hjoin := ih [] (by simp)
        rw [hrest, List.nil_append] at hjoin
        have hslash : withoutTrailing ('/'::p) = '/'::withoutTrailing p :=
          withoutTrailing_append ['/'] p hp
        rw [joined, absolute_joined, hjoin, withoutTrailing_append _ _ (List.cons_ne_nil '/' p),
          hslash]
    · have hnew : '/' ∉ seg++[c] := by simp [hseg, Ne.symm hc]
      rw [ih (seg++[c]) hnew, List.append_assoc, List.singleton_append]

theorem getlines_trailing (us : List Str) (u : Str) (hu : '/' ∉ u) (hus : ∀ s ∈ us, '/' ∉ s) :
    getlines [] (joined (u::us)++['/']) = u::us := by
  induction us generalizing u with
  | nil =>
    have hjoin : joined [u]++['/'] = u ++ '/'::[] := by simp [joined, absolute]
    rw [hjoin, getlines_segment [] u [] hu]
    rfl
  | cons s us ih =>
    have hjoin : joined (u::s::us)++['/'] = u ++ '/'::(joined (s::us)++['/']) := by
      rw [joined, absolute_joined, List.append_assoc, List.cons_append]
    rw [hjoin, getlines_segment [] u _ hu, ih s (hus s (by simp)) (fun t ht => hus t (by simp [ht]))]
    rfl

theorem vectorize_trailing (us : List Str) (hne : us ≠ []) (hus : ∀ u ∈ us, u ≠ [] ∧ '/' ∉ u) :
    vectorizePath (joined us++['/']) = us ∧ vectorizePath ('/'::(joined us++['/'])) = us := by
  obtain ⟨u,us,rfl⟩ := List.exists_cons_of_ne_nil hne
  obtain ⟨hu,hplain⟩ := hus u (by simp)
  have hlines := getlines_trailing us u hplain (fun s hs => (hus s (by simp [hs])).2)
  have hhead : (joined (u::us)++['/']).head? ≠ some '/' := by
    have hjoin : joined (u::us) ≠ [] := by simp [joined, hu]
    rw [List.head?_append_of_ne_nil _ hjoin]
    exact joined_head u us hu hplain
  rw [vectorize_plain _ hhead, vectorize_slash]
  exact ⟨hlines,hlines⟩

/-- Splitting undoes the joining of segments that are not empty, also with a
separator in front or behind; and joining undoes the splitting of any text, up
to one separator in front and then one behind. -/
theorem split_join_inverse (us : List Str) (hus : ∀ u ∈ us, u ≠ [] ∧ '/' ∉ u) (p : Str) :
    (vectorizePath (joined us) = us ∧
      (us ≠ [] → vectorizePath ('/'::joined us) = us ∧ vectorizePath (joined us++['/']) = us ∧
        vectorizePath ('/'::(joined us++['/'])) = us)) ∧
    (∀ s ∈ vectorizePath p, '/' ∉ s) ∧
    joined (vectorizePath p) = withoutTrailing (withoutLeading p) := by
  constructor
  · constructor
    · exact vectorize_names us hus
    · intro hne
      obtain ⟨htrailing,hboth⟩ := vectorize_trailing us hne hus
      have hleading : vectorizePath ('/'::joined us) = us := by
        obtain ⟨u,us,rfl⟩ := List.exists_cons_of_ne_nil hne
        rw [← absolute_joined]
        exact vectorize_absolute (u::us) hus
      exact ⟨hleading,htrailing,hboth⟩
  constructor
  · exact vectorize_slash_free p
  · rw [vectorize_leading, joined_getlines [] _ (by simp), List.nil_append]

theorem split_join_inverse_sample :
    (vectorizePath "Foo/Bar".toList = ["Foo".toList,"Bar".toList] ∧
      (["Foo".toList,"Bar".toList] ≠ [] →
        vectorizePath "/Foo/Bar".toList = ["Foo".toList,"Bar".toList] ∧
        vectorizePath "Foo/Bar/".toList = ["Foo".toList,"Bar".toList] ∧
        vectorizePath "/Foo/Bar/".toList = ["Foo".toList,"Bar".toList])) ∧
    (∀ s ∈ vectorizePath "//a///".toList, '/' ∉ s) ∧
    joined (vectorizePath "//a///".toList) = "/a//".toList :=
  split_join_inverse ["Foo".toList,"Bar".toList] (by decide) "//a///".toList

theorem getlines_append (seg p q : Str) :
    getlines seg (p ++ '/'::q) = getlines seg (p++['/'])++getlines [] q := by
  induction p generalizing seg with
  | nil => simp [getlines]
  | cons c p ih =>
    rw [List.cons_append, List.cons_append, getlines, getlines]
    split_ifs
    · rw [ih, List.cons_append]
    · rw [ih]

theorem last_slash (p : Str) :
    ('/'::p).getLast? = some '/' ↔ p = [] ∨ p.getLast? = some '/' := by
  cases p with
  | nil => simp
  | cons c p => simp

theorem getlines_close (seg p : Str) : getlines seg (p++['/']) =
    getlines seg p++(if seg++p = [] ∨ p.getLast? = some '/' then [[]] else []) := by
  induction p generalizing seg with
  | nil => by_cases hseg : seg = [] <;> simp [getlines, hseg]
  | cons c p ih =>
    rw [List.cons_append, getlines, getlines]
    by_cases hc : c = '/'
    · subst hc
      rw [if_pos rfl, if_pos rfl, ih, List.cons_append]
      simp only [last_slash, List.nil_append, List.append_eq_nil_iff, reduceCtorEq, and_false,
        false_or]
    · rw [if_neg hc, if_neg hc, ih, List.getLast?_cons]
      cases p.getLast? with
      | none => simp [hc]
      | some d => simp

theorem getlines_start (q : Str) :
    getlines [] q = (if q.head? = some '/' then [[]] else [])++vectorizePath q := by
  by_cases hq : q.head? = some '/'
  · obtain ⟨s,rfl⟩ := List.head?_eq_some_iff.mp hq
    rw [if_pos hq, vectorize_slash]
    rfl
  · rw [if_neg hq, vectorize_plain q hq, List.nil_append]

/-- Two paths put together at a separator have the segments of both. Where the
first one ends with a separator there is an empty segment in between, and one
more where the second one starts with a separator. -/
theorem vectorize_append (p q : Str) :
    vectorizePath (p ++ '/'::q) =
      vectorizePath p++(if p.getLast? = some '/' then [[]] else [])++
        (if q.head? = some '/' then [[]] else [])++vectorizePath q := by
  rw [List.append_assoc, ← getlines_start q]
  cases p with
  | nil => simp [vectorizePath, getlines]
  | cons c p =>
    by_cases hc : c = '/'
    · subst hc
      rw [List.cons_append, vectorize_slash, vectorize_slash, getlines_append, getlines_close]
      simp only [last_slash, List.nil_append, List.append_assoc]
    · have hplain : ∀ s, vectorizePath (c::s) = getlines [] (c::s) :=
        fun s => vectorize_plain _ (by simpa using hc)
      rw [List.cons_append, hplain, hplain, ← List.cons_append, getlines_append, getlines_close]
      simp

end Grandma.Splitting

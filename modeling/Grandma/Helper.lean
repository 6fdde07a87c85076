import Mathlib.Data.Char
import Mathlib.Tactic

/-!
# Strings, faults and the helper class

A `std::string` is a list of characters. A call of the C++ program that does
not return is a fault: an exception by its kind, undefined behaviour, or a
loop that never ends. `npos` is `none`, and the three ways in which the program
passes a search result on to `substr` are kept apart, because they treat
`npos` differently.
-/

set_option autoImplicit false

namespace Grandma

abbrev Str := List Char

inductive Fault where
  | parseError
  | typeError
  | outOfRange
  | invalidArgument
  | undefined
  | diverges
  deriving DecidableEq, Repr

def Fault.Thrown (e : Fault) : Prop := e ≠ .undefined ∧ e ≠ .diverges

instance (e : Fault) : Decidable e.Thrown := inferInstanceAs (Decidable (_ ∧ _))

/-- `std::string::find`: the first position of `pat`. -/
def find (pat : Str) : Str → Option ℕ
  | [] => if pat = [] then some 0 else none
  | c::s => if pat.isPrefixOf (c::s) then some 0 else (find pat s).map (fun n => n+1)

/-- `s.substr(0, delim)`: a length of `npos` takes everything. -/
def substrTo (s : Str) (delim : Option ℕ) : Str :=
  match delim with
  | some n => s.take n
  | none => s

/-- `s.substr(delim + 1)`: `npos + 1` is position zero. -/
def substrPast (s : Str) (delim : Option ℕ) : Str :=
  match delim with
  | some n => s.drop (n+1)
  | none => s

/-- `s.substr(delim)`: position `npos` is past the end of every string. -/
def substrFrom (s : Str) (delim : Option ℕ) : Except Fault Str :=
  match delim with
  | some n => .ok (s.drop n)
  | none => .error .outOfRange

theorem find_char_none (c : Char) (s : Str) (h : c ∉ s) : find [c] s = none := by
  induction s with
  | nil => rfl
  | cons d s ih =>
    obtain ⟨hd,hs⟩ := List.ne_and_not_mem_of_not_mem_cons h
    simp [find, List.isPrefixOf, hd, ih hs]

theorem find_char (c : Char) (s t : Str) (h : c ∉ s) : find [c] (s++c::t) = some s.length := by
  induction s with
  | nil => simp [find, List.isPrefixOf]
  | cons d s ih =>
    obtain ⟨hd,hs⟩ := List.ne_and_not_mem_of_not_mem_cons h
    simp [find, List.isPrefixOf, hd, ih hs]

theorem cut_at (c : Char) (s t : Str) (h : c ∉ s) :
    substrTo (s++c::t) (find [c] (s++c::t)) = s ∧
      substrPast (s++c::t) (find [c] (s++c::t)) = t ∧
      substrFrom (s++c::t) (find [c] (s++c::t)) = .ok (c::t) := by
  have hsnoc : s++c::t = (s++[c])++t := by simp
  rw [find_char c s t h]
  constructor
  · simp [substrTo]
  constructor
  · rw [hsnoc]
    simp [substrPast, List.drop_append]
  · simp [substrFrom]

theorem substrFrom_found (c : Char) (s : Str) :
    (∃ r, substrFrom s (find [c] s) = .ok r) ↔ c ∈ s := by
  by_cases h : c ∈ s
  · obtain ⟨a,b,rfl,ha⟩ := List.eq_append_cons_of_mem h
    rw [(cut_at c a b ha).2.2]
    simp
  · rw [find_char_none c s h]
    simp [substrFrom, h]

namespace Helper

/-- The loop `while(getline(ss, segment, '/'))`. The end of the input ends a
segment only when something was read after the last separator. -/
def getlines (segment : Str) : Str → List Str
  | [] => if segment = [] then [] else [segment]
  | c::s => if c = '/' then segment::getlines [] s else getlines (segment++[c]) s

def vectorizePath (path : Str) : List Str :=
  match path with
  | '/'::rest => getlines [] rest
  | _ => getlines [] path

theorem getlines_segment (seg s t : Str) (h : '/' ∉ s) :
    getlines seg (s ++ '/'::t) = (seg++s)::getlines [] t := by
  induction s generalizing seg with
  | nil => simp [getlines]
  | cons c s ih =>
    obtain ⟨hc,hs⟩ := List.ne_and_not_mem_of_not_mem_cons h
    rw [List.cons_append, getlines, if_neg (Ne.symm hc), ih _ hs]
    simp

theorem getlines_last (seg s : Str) (h : '/' ∉ s) :
    getlines seg s = if seg++s = [] then [] else [seg++s] := by
  induction s generalizing seg with
  | nil => simp [getlines]
  | cons c s ih =>
    obtain ⟨hc,hs⟩ := List.ne_and_not_mem_of_not_mem_cons h
    rw [getlines, if_neg (Ne.symm hc), ih _ hs]
    simp

theorem vectorize_slash (s : Str) : vectorizePath ('/'::s) = getlines [] s := rfl

theorem vectorize_plain (s : Str) (h : s.head? ≠ some '/') : vectorizePath s = getlines [] s := by
  unfold vectorizePath
  split
  · simp at h
  · rfl

def absolute (us : List Str) : Str := us.flatMap (fun u => '/'::u)

theorem absolute_cons (u : Str) (us : List Str) : absolute (u::us) = '/'::(u++absolute us) := by
  simp [absolute]

theorem absolute_down (uriPrefix u : Str) (us : List Str) :
    (uriPrefix ++ '/' :: u)++absolute us = uriPrefix++absolute (u::us) := by
  simp [absolute]

theorem getlines_absolute (us : List Str) (u : Str) (hu : '/' ∉ u) (hus : ∀ s ∈ us, '/' ∉ s)
    (hne : (us.getLast?.getD u) ≠ []) : getlines [] (u++absolute us) = u::us := by
  induction us generalizing u with
  | nil => simpa [absolute, getlines_last [] u hu] using hne
  | cons s us ih =>
    have hs : '/' ∉ s := hus s (by simp)
    rw [absolute_cons, getlines_segment [] u _ hu, ih s hs (fun t ht => hus t (by simp [ht]))]
    · rfl
    · simpa [List.getLast?_cons] using hne

theorem vectorize_absolute (us : List Str) (hus : ∀ u ∈ us, u ≠ [] ∧ '/' ∉ u) :
    vectorizePath (absolute us) = us := by
  cases us with
  | nil => rfl
  | cons u us =>
    have hlast : us.getLast?.getD u ≠ [] := by
      cases h : us.getLast? with
      | none => simpa using (hus u (by simp)).1
      | some s => simpa using (hus s (by simp [List.mem_of_getLast? h])).1
    rw [absolute_cons, vectorize_slash,
      getlines_absolute us u (hus u (by simp)).2 (fun s hs => (hus s (by simp [hs])).2) hlast]

def joined : List Str → Str
  | [] => []
  | u::us => u++absolute us

theorem getlines_exact (us : List Str) (u : Str) (hu : '/' ∉ u) (hus : ∀ s ∈ us, '/' ∉ s)
    (hlen : (getlines [] (u++absolute us)).length = us.length+1) :
    getlines [] (u++absolute us) = u::us := by
  induction us generalizing u with
  | nil =>
    have hnil : absolute [] = [] := rfl
    rw [hnil, List.append_nil, getlines_last [] u hu] at hlen ⊢
    by_cases h : [] ++ u = []
    · rw [if_pos h] at hlen
      cases hlen
    · rw [if_neg h]
      rfl
  | cons s us ih =>
    have hs : '/' ∉ s := hus s (by simp)
    rw [absolute_cons, getlines_segment [] u _ hu] at hlen ⊢
    rw [ih s hs (fun t ht => hus t (by simp [ht])) (by simpa using hlen)]
    rfl

theorem getlines_slash_free (seg p : Str) (hseg : '/' ∉ seg) : ∀ s ∈ getlines seg p, '/' ∉ s := by
  induction p generalizing seg with
  | nil =>
    intro s hs
    rw [getlines] at hs
    split_ifs at hs
    · cases hs
    · rw [List.mem_singleton.mp hs]
      exact hseg
  | cons c p ih =>
    intro s hs
    rw [getlines] at hs
    split_ifs at hs with hc
    · rcases List.mem_cons.mp hs with rfl | hs
      · exact hseg
      · exact ih [] (by simp) s hs
    · have hnew : '/' ∉ seg++[c] := by
        simp [hseg, Ne.symm hc]
      exact ih _ hnew s hs

theorem vectorize_slash_free (p : Str) : ∀ s ∈ vectorizePath p, '/' ∉ s := by
  unfold vectorizePath
  split <;> exact getlines_slash_free [] _ (by simp)

theorem getlines_length (seg p : Str) : (getlines seg p).length ≤ p.count '/'+1 := by
  induction p generalizing seg with
  | nil =>
    rw [getlines]
    split_ifs <;> simp
  | cons c p ih =>
    rw [getlines]
    split_ifs with hc
    · have h := ih []
      rw [hc, List.count_cons_self, List.length_cons]
      omega
    · have h := ih (seg++[c])
      rw [List.count_cons_of_ne hc]
      exact h

theorem absolute_count (us : List Str) (hus : ∀ s ∈ us, '/' ∉ s) :
    (absolute us).count '/' = us.length := by
  induction us with
  | nil => rfl
  | cons u us ih =>
    have hu : u.count '/' = 0 := List.count_eq_zero.mpr (hus u (by simp))
    rw [absolute_cons, List.count_cons_self, List.count_append, hu,
      ih (fun s hs => hus s (by simp [hs]))]
    simp

theorem joined_head (u : Str) (us : List Str) (hne : u ≠ []) (hu : '/' ∉ u) :
    (joined (u::us)).head? ≠ some '/' := by
  obtain ⟨c,u',rfl⟩ := List.exists_cons_of_ne_nil hne
  rw [joined, List.cons_append, List.head?_cons]
  rintro ⟨rfl⟩
  simp at hu

theorem absolute_joined (u : Str) (us : List Str) : absolute (u::us) = '/'::joined (u::us) :=
  absolute_cons u us

/-- When no segment gets lost, splitting undoes the joining. A first name that
is empty loses one, since the separator behind it is taken for a leading one. -/
theorem vectorize_joined (us : List Str) (hus : ∀ s ∈ us, '/' ∉ s)
    (hlen : (vectorizePath (joined us)).length = us.length) :
    vectorizePath (joined us) = us ∧ vectorizePath (absolute us) = us := by
  cases us with
  | nil => exact ⟨rfl,rfl⟩
  | cons u us =>
    have hu : '/' ∉ u := hus u (by simp)
    have htail : ∀ s ∈ us, '/' ∉ s := fun s hs => hus s (by simp [hs])
    have hhead : (joined (u::us)).head? ≠ some '/' := by
      by_cases hne : u = []
      · subst hne
        cases us with
        | nil => simp [joined, absolute]
        | cons s us =>
          have hcons : joined ([]::s::us) = '/'::(s++absolute us) := by simp [joined, absolute]
          have hs : s.count '/' = 0 := List.count_eq_zero.mpr (htail s (by simp))
          have hcount := absolute_count us (fun t ht => htail t (by simp [ht]))
          have hbound := getlines_length [] (s++absolute us)
          rw [hcons, vectorize_slash, List.length_cons, List.length_cons] at hlen
          rw [List.count_append, hs, hcount] at hbound
          omega
      · exact joined_head u us hne hu
    rw [vectorize_plain _ hhead] at hlen ⊢
    rw [absolute_joined, vectorize_slash]
    have hexact := getlines_exact us u hu htail hlen
    exact ⟨hexact,hexact⟩

theorem vectorize_names (us : List Str) (hus : ∀ u ∈ us, u ≠ [] ∧ '/' ∉ u) :
    vectorizePath (joined us) = us := by
  cases us with
  | nil => rfl
  | cons u us =>
    obtain ⟨hne,hu⟩ := hus u (by simp)
    rw [vectorize_plain _ (joined_head u us hne hu), ← vectorize_slash, ← absolute_joined]
    exact vectorize_absolute (u::us) hus

inductive Protocol where
  | HTTP
  | HTTPS
  deriving DecidableEq, Repr

structure URL where
  protocol : Protocol
  server : Str
  port : ℤ
  path : Str
  deriving DecidableEq, Repr

def isSpace (c : Char) : Bool :=
  c = ' ' || c = '\t' || c = '\n' || c = '\x0b' || c = '\x0c' || c = '\r'

/-- `std::stoi`: white space, an optional sign, then as many digits as there
are; whatever follows the digits is ignored. -/
def stoi (s : Str) : Except Fault ℤ :=
  let rest := s.dropWhile isSpace
  let negative := rest.head? = some '-'
  let unsigned := if rest.head? = some '-' ∨ rest.head? = some '+' then rest.tail else rest
  let digits := unsigned.takeWhile Char.isDigit
  let magnitude : ℤ := Nat.ofDigitChars 10 digits 0
  let value := if negative then -magnitude else magnitude
  if digits = [] then .error .invalidArgument
  else if -2147483648 ≤ value ∧ value ≤ 2147483647 then .ok value
  else .error .outOfRange

def protocolOf (s : Str) : Option Protocol :=
  if s = "http".toList ∨ s = "HTTP".toList then some .HTTP
  else if s = "https".toList ∨ s = "HTTPS".toList then some .HTTPS
  else none

/-- The result comes with the members as they are left, also when `std::stoi`
throws after the protocol and the path have been assigned. -/
def URL.parseFromString (u : URL) (s : Str) : Except Fault Bool × URL :=
  match find "://".toList s with
  | none => (.ok false,u)
  | some delim =>
    match protocolOf (s.take delim) with
    | none => (.ok false,u)
    | some protocol =>
      let s := s.drop (delim+3)
      let slash := find "/".toList s
      let path := match slash with
        | none => "/".toList
        | some n => s.drop n
      let s := substrTo s slash
      let u := { u with protocol := protocol, path := path }
      match find ":".toList s with
      | none => (.ok true,{ u with port := 8080, server := s })
      | some n =>
        match stoi (s.drop (n+1)) with
        | .error e => (.error e,u)
        | .ok port => (.ok true,{ u with port := port, server := s.take n })

end Helper

end Grandma

import Grandma.Helper
import Mathlib.Data.List.TakeWhile

/-!
# Server URLs

What an address of a server looks like as a text, and what the parser makes of
texts that are addresses and of texts that are not. The parser gives up before
it has assigned anything, or it does not give up at all.
-/

set_option autoImplicit false

namespace Grandma.ServerUrl
open Helper

inductive Scheme where
  | http
  | HTTP
  | https
  | HTTPS

def Scheme.text : Scheme → Str
  | http => "http".toList
  | HTTP => "HTTP".toList
  | https => "https".toList
  | HTTPS => "HTTPS".toList

def Scheme.protocol : Scheme → Protocol
  | http => .HTTP
  | HTTP => .HTTP
  | https => .HTTPS
  | HTTPS => .HTTPS

def portText : Option Str → Str
  | none => []
  | some digits => ':'::digits

/-- The parts of `scheme "://" server [":" port] [path]`. -/
structure Address where
  scheme : Scheme
  server : Str
  port : Option Str
  path : Str
  named : server ≠ []
  plain : '/' ∉ server ∧ ':' ∉ server
  numbered : ∀ digits ∈ port, digits ≠ [] ∧ (∀ c ∈ digits, c.isDigit) ∧
    Nat.ofDigitChars 10 digits 0 ≤ 65535
  rooted : path = [] ∨ path.head? = some '/'

def Address.text (a : Address) : Str :=
  a.scheme.text++("://".toList++((a.server++portText a.port)++a.path))

def Address.url (a : Address) : URL :=
  { protocol := a.scheme.protocol, server := a.server,
    port := (a.port.map (fun digits => (Nat.ofDigitChars 10 digits 0 : ℤ))).getD 8080,
    path := if a.path = [] then "/".toList else a.path }

def Malformed (s : Str) : Prop := ∀ a : Address, a.text ≠ s

theorem scheme_found (scheme : Scheme) (t : Str) :
    find "://".toList (scheme.text++("://".toList++t)) = some scheme.text.length := by
  cases scheme <;> rfl

theorem scheme_protocol (scheme : Scheme) : protocolOf scheme.text = some scheme.protocol := by
  cases scheme <;> rfl

theorem protocol_scheme (s : Str) (protocol : Protocol) (h : protocolOf s = some protocol) :
    ∃ scheme : Scheme, scheme.text = s ∧ scheme.protocol = protocol := by
  rw [protocolOf] at h
  split_ifs at h with hhttp hhttps
  · cases h
    rcases hhttp with rfl | rfl
    · exact ⟨.http,rfl,rfl⟩
    · exact ⟨.HTTP,rfl,rfl⟩
  · cases h
    rcases hhttps with rfl | rfl
    · exact ⟨.https,rfl,rfl⟩
    · exact ⟨.HTTPS,rfl,rfl⟩

theorem find_found (pat s : Str) (n : ℕ) (h : find pat s = some n) :
    ∃ t, s = s.take n++(pat++t) := by
  induction s generalizing n with
  | nil =>
    rw [find] at h
    split_ifs at h with hpat
    cases h
    exact ⟨[],by simp [hpat]⟩
  | cons c s ih =>
    rw [find] at h
    split_ifs at h with hpat
    · cases h
      obtain ⟨t,ht⟩ := List.isPrefixOf_iff_prefix.mp hpat
      exact ⟨t,by simp [ht]⟩
    · obtain ⟨m,hm,rfl⟩ := Option.map_eq_some_iff.mp h
      obtain ⟨t,ht⟩ := ih m hm
      refine ⟨t,?_⟩
      rw [List.take_succ_cons, List.cons_append, ← ht]

/-- The parser from the point where the scheme has been taken off. -/
def parseRest (u : URL) (protocol : Protocol) (s : Str) : Except Fault Bool × URL :=
  let slash := find "/".toList s
  let path := match slash with
    | none => "/".toList
    | some n => s.drop n
  let s := substrTo s slash
  let u := { u with protocol := protocol, path := path }
  match find ":".toList s with
  | none => (.ok true,{ u with port := 8080, server := s })
  | some n =>
    match stoi (s.drop (n+1)) with
    | .error e => (.error e,u)
    | .ok port => (.ok true,{ u with port := port, server := s.take n })

theorem parse_scheme (u : URL) (scheme : Scheme) (t : Str) :
    u.parseFromString (scheme.text++("://".toList++t)) = parseRest u scheme.protocol t := by
  have hdrop : (scheme.text++("://".toList++t)).drop (scheme.text.length+3) = t := by
    cases scheme <;> rfl
  rw [URL.parseFromString, scheme_found]
  simp only
  rw [List.take_left, scheme_protocol, hdrop]
  rfl

/-- The parser gives up exactly on the texts without a scheme, and then it has
not assigned anything. -/
theorem parse_cases (u : URL) (s : Str) :
    (u.parseFromString s = (.ok false,u) ∧
      ∀ (scheme : Scheme) (t : Str), s ≠ scheme.text++("://".toList++t)) ∨
    ∃ (scheme : Scheme) (t : Str), s = scheme.text++("://".toList++t) ∧
      u.parseFromString s = parseRest u scheme.protocol t := by
  by_cases h : ∃ (scheme : Scheme) (t : Str), s = scheme.text++("://".toList++t)
  · obtain ⟨scheme,t,rfl⟩ := h
    exact Or.inr ⟨scheme,t,rfl,parse_scheme u scheme t⟩
  · have hnone : ∀ (scheme : Scheme) (t : Str), s ≠ scheme.text++("://".toList++t) :=
      fun scheme t hs => h ⟨scheme,t,hs⟩
    refine Or.inl ⟨?_,hnone⟩
    rw [URL.parseFromString]
    cases hfind : find "://".toList s with
    | none => rfl
    | some delim =>
      simp only
      cases hprotocol : protocolOf (s.take delim) with
      | none => rfl
      | some protocol =>
        obtain ⟨scheme,htext,-⟩ := protocol_scheme _ protocol hprotocol
        obtain ⟨t,ht⟩ := find_found _ s delim hfind
        rw [← htext] at ht
        exact absurd ht (hnone scheme t)

theorem rest_cases (u : URL) (protocol : Protocol) (s : Str) :
    (parseRest u protocol s).1 = .ok true ∨
      ∃ port e, stoi port = .error e ∧ (parseRest u protocol s).1 = .error e := by
  simp only [parseRest]
  generalize substrTo s (find "/".toList s) = host
  cases find ":".toList host with
  | none => exact Or.inl rfl
  | some n =>
    simp only
    cases hport : stoi (host.drop (n+1)) with
    | error e => exact Or.inr ⟨host.drop (n+1),e,hport,rfl⟩
    | ok port => exact Or.inl rfl

theorem digit_plain (c : Char) (h : c.isDigit) :
    isSpace c = false ∧ c ≠ '-' ∧ c ≠ '+' ∧ c ≠ '/' := by
  constructor
  · by_contra hspace
    simp only [isSpace, Bool.not_eq_false, Bool.or_eq_true, decide_eq_true_eq] at hspace
    rcases hspace with ((((rfl | rfl) | rfl) | rfl) | rfl) | rfl <;> simp at h
  · refine ⟨?_,?_,?_⟩ <;> rintro rfl <;> simp at h

theorem stoi_digits (digits : Str) (hne : digits ≠ []) (hd : ∀ c ∈ digits, c.isDigit)
    (hle : Nat.ofDigitChars 10 digits 0 ≤ 2147483647) :
    stoi digits = .ok (Nat.ofDigitChars 10 digits 0 : ℤ) := by
  have hall : digits.takeWhile Char.isDigit = digits := List.takeWhile_eq_self_iff.mpr hd
  obtain ⟨c,ds,rfl⟩ := List.exists_cons_of_ne_nil hne
  obtain ⟨hspace,hminus,hplus,-⟩ := digit_plain c (hd c List.mem_cons_self)
  have hrest : (c::ds).dropWhile isSpace = c::ds := by simp [hspace]
  have hrange : (-2147483648 : ℤ) ≤ (Nat.ofDigitChars 10 (c::ds) 0 : ℤ) ∧
      (Nat.ofDigitChars 10 (c::ds) 0 : ℤ) ≤ 2147483647 := by
    constructor <;> omega
  have hminus : (c::ds).head? ≠ some '-' := by simpa using hminus
  have hplus : (c::ds).head? ≠ some '+' := by simpa using hplus
  simp only [stoi, hrest, hminus, hplus, or_self, if_false, hall, hne, if_pos hrange]

theorem host_cut (host path : Str) (hhost : '/' ∉ host)
    (hpath : path = [] ∨ path.head? = some '/') :
    substrTo (host++path) (find "/".toList (host++path)) = host ∧
    (match find "/".toList (host++path) with
      | none => "/".toList
      | some n => (host++path).drop n) = if path = [] then "/".toList else path := by
  have hslash : "/".toList = ['/'] := rfl
  rcases hpath with rfl | hhead
  · rw [hslash, List.append_nil, find_char_none '/' host hhost, if_pos rfl]
    exact ⟨rfl,rfl⟩
  · obtain ⟨s,rfl⟩ := List.head?_eq_some_iff.mp hhead
    rw [hslash, find_char '/' host s hhost, if_neg (by simp)]
    simp [substrTo]

theorem server_cut (server : Str) (port : Option Str) (hserver : ':' ∉ server) :
    find ":".toList (server++portText port) = port.map (fun _ => server.length) := by
  have hcolon : ":".toList = [':'] := rfl
  rw [hcolon]
  cases port with
  | none =>
    rw [portText, List.append_nil]
    exact find_char_none ':' server hserver
  | some digits => exact find_char ':' server digits hserver

theorem port_slash (port : Option Str)
    (h : ∀ digits ∈ port, ∀ c ∈ digits, c.isDigit) : '/' ∉ portText port := by
  cases port with
  | none => simp [portText]
  | some digits =>
    intro hmem
    rcases List.mem_cons.mp hmem with hslash | hmem
    · cases hslash
    · exact (digit_plain '/' (h digits rfl '/' hmem)).2.2.2 rfl

theorem parse_address (u : URL) (a : Address) : u.parseFromString a.text = (.ok true,a.url) := by
  have hhost : '/' ∉ a.server++portText a.port := by
    have hport := port_slash a.port (fun digits hd => (a.numbered digits hd).2.1)
    simp [a.plain.1, hport]
  obtain ⟨hserver,hpath⟩ := host_cut (a.server++portText a.port) a.path hhost a.rooted
  rw [Address.text, parse_scheme]
  simp only [parseRest]
  rw [hserver, hpath, server_cut a.server a.port a.plain.2]
  cases hport : a.port with
  | none => simp [Address.url, hport, portText]
  | some digits =>
    obtain ⟨hne,hdigits,hle⟩ := a.numbered digits hport
    have hdrop : (a.server++portText (some digits)).drop (a.server.length+1) = digits := by
      simp [portText, List.drop_append]
    simp only [Option.map_some]
    rw [hdrop, stoi_digits digits hne hdigits (by omega)]
    simp [Address.url, hport]

/-- Parsing undoes rendering: every part of the address comes back, whatever the
path contains. -/
theorem parse_rendered (u : URL) (scheme : Scheme) (server : Str) (port : Option ℕ) (rest : Str)
    (hserver : server ≠ [] ∧ '/' ∉ server ∧ ':' ∉ server) (hport : ∀ n ∈ port, n ≤ 65535)
    (hrest : rest = [] ∨ rest.head? = some '/') :
    u.parseFromString (scheme.text++("://".toList++
        ((server++portText (port.map (Nat.toDigits 10)))++rest))) =
      (.ok true,{ protocol := scheme.protocol, server := server, port := port.getD 8080,
                  path := if rest = [] then "/".toList else rest }) := by
  have hnumbered : ∀ digits ∈ port.map (Nat.toDigits 10), digits ≠ [] ∧
      (∀ c ∈ digits, c.isDigit) ∧ Nat.ofDigitChars 10 digits 0 ≤ 65535 := by
    intro digits hd
    obtain ⟨n,hn,rfl⟩ := Option.map_eq_some_iff.mp hd
    refine ⟨Nat.toDigits_ne_nil,?_,?_⟩
    · intro c hc
      exact Nat.isDigit_of_mem_toDigits (by decide) (by decide) hc
    · rw [Nat.ofDigitChars_ten_toDigits]
      exact hport n hn
  have hparse := parse_address u ⟨scheme,server,_,rest,hserver.1,hserver.2,hnumbered,hrest⟩
  rw [Address.text, Address.url] at hparse
  rw [hparse]
  cases port with
  | none => rfl
  | some n => simp [Nat.ofDigitChars_ten_toDigits]

def unparsed : URL := { protocol := .HTTP, server := "s".toList, port := 1, path := "/q".toList }

theorem parse_rendered_sample : unparsed.parseFromString "https://h:443/a:b/c://d".toList =
    (.ok true,{ protocol := .HTTPS, server := "h".toList, port := 443,
                path := "/a:b/c://d".toList }) :=
  parse_rendered unparsed .https "h".toList (some 443) "/a:b/c://d".toList (by decide) (by decide)
    (by decide)

/-- A malformed URL is rejected, with no exception and all members as they were,
exactly when no scheme stands in front. -/
theorem rejected_iff (u : URL) (s : Str) :
    (Malformed s → u.parseFromString s = (.ok false,u)) ↔
      (Malformed s → ∀ scheme : Scheme, ¬ scheme.text++"://".toList <+: s) := by
  constructor
  · intro h hs scheme hprefix
    obtain ⟨t,ht⟩ := hprefix
    have hreject := h hs
    rw [← ht, List.append_assoc, parse_scheme] at hreject
    rcases rest_cases u scheme.protocol t with haccept | ⟨port,e,-,hthrow⟩
    · rw [hreject] at haccept
      cases haccept
    · rw [hreject] at hthrow
      cases hthrow
  · intro h hs
    rcases parse_cases u s with ⟨hreject,-⟩ | ⟨scheme,t,rfl,-⟩
    · exact hreject
    · exact absurd ⟨t,List.append_assoc _ _ _⟩ (h hs scheme)

/-- A port that is no number makes `std::stoi` throw when the protocol and the
path have been assigned; a server without a name is accepted. -/
theorem malformed_accepted :
    (Malformed "https://h:x/p".toList ∧ unparsed.parseFromString "https://h:x/p".toList =
      (.error .invalidArgument,{ unparsed with protocol := .HTTPS, path := "/p".toList })) ∧
    (Malformed "http://".toList ∧ unparsed.parseFromString "http://".toList =
      (.ok true,{ protocol := .HTTP, server := [], port := 8080, path := "/".toList })) := by
  have hthrow : unparsed.parseFromString "https://h:x/p".toList =
      (.error .invalidArgument,{ unparsed with protocol := .HTTPS, path := "/p".toList }) := rfl
  have haccept : unparsed.parseFromString "http://".toList =
      (.ok true,{ protocol := .HTTP, server := [], port := 8080, path := "/".toList }) := rfl
  constructor
  · refine ⟨?_,hthrow⟩
    intro a ha
    have hparse := parse_address unparsed a
    rw [ha, hthrow] at hparse
    cases hparse
  · refine ⟨?_,haccept⟩
    intro a ha
    have hparse := parse_address unparsed a
    rw [ha, haccept] at hparse
    have hserver : a.url.server = [] := by rw [← (Prod.mk.inj hparse).2]
    exact a.named hserver

end Grandma.ServerUrl

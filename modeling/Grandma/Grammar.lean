import Grandma.ServerUrl

/-!
# The grammar of server URLs

The parser of server URLs takes more than it says it does: any number that
`std::stoi` can read stands for a port, whatever comes behind the digits, and
nothing stands for a server. The rules below say what it makes of every text.
-/

set_option autoImplicit false

namespace Grandma.Grammar
open Helper ServerUrl

inductive Sign where
  | none
  | plus
  | minus

def Sign.text : Sign → Str
  | none => []
  | plus => ['+']
  | minus => ['-']

def Sign.apply (n : ℕ) : Sign → ℤ
  | none => n
  | plus => n
  | minus => -n

structure Number where
  spaces : Str
  sign : Sign
  digits : Str
  ignored : Str
  blank : ∀ c ∈ spaces, isSpace c
  nonempty : digits ≠ []
  numeric : ∀ c ∈ digits, c.isDigit
  complete : ∀ c, ignored.head? = some c → c.isDigit = false

def Number.text (n : Number) : Str := n.spaces++(n.sign.text++(n.digits++n.ignored))

def Number.value (n : Number) : ℤ := n.sign.apply (Nat.ofDigitChars 10 n.digits 0)

def InRange (z : ℤ) : Prop := -2147483648 ≤ z ∧ z ≤ 2147483647

instance (z : ℤ) : Decidable (InRange z) := inferInstanceAs (Decidable (_ ∧ _))

theorem digits_read (n : Number) : (n.digits++n.ignored).takeWhile Char.isDigit = n.digits := by
  rw [List.takeWhile_append_of_pos n.numeric]
  cases hignored : n.ignored with
  | nil => simp
  | cons c cs => simp [n.complete c (by rw [hignored]; rfl)]

theorem spaces_skipped (n : Number) :
    n.text.dropWhile isSpace = n.sign.text++(n.digits++n.ignored) := by
  rw [Number.text, List.dropWhile_append_of_pos n.blank]
  obtain ⟨c,ds,hdigits⟩ := List.exists_cons_of_ne_nil n.nonempty
  have hc := (digit_plain c (n.numeric c (by simp [hdigits]))).1
  cases n.sign with
  | none => simp [Sign.text, hdigits, hc]
  | plus => rfl
  | minus => rfl

theorem stoi_number (n : Number) :
    stoi n.text = if InRange n.value then .ok n.value else .error .outOfRange := by
  obtain ⟨c,ds,hdigits⟩ := List.exists_cons_of_ne_nil n.nonempty
  obtain ⟨-,hminus,hplus,-⟩ := digit_plain c (n.numeric c (by simp [hdigits]))
  have hread := digits_read n
  have hne := n.nonempty
  rw [stoi, spaces_skipped]
  cases hsign : n.sign with
  | none =>
    have hhead : (n.digits++n.ignored).head? = some c := by simp [hdigits]
    simp [Sign.text, hhead, hminus, hplus, hread, hne, Number.value, hsign, Sign.apply, InRange]
  | plus =>
    simp [Sign.text, hread, hne, Number.value, hsign, Sign.apply, InRange]
  | minus =>
    simp [Sign.text, hread, hne, Number.value, hsign, Sign.apply, InRange]

theorem sign_taken (s : Str) : ∃ (sign : Sign) (t : Str), s = sign.text++t ∧
    (if s.head? = some '-' ∨ s.head? = some '+' then s.tail else s) = t := by
  by_cases hminus : s.head? = some '-'
  · obtain ⟨t,rfl⟩ := List.head?_eq_some_iff.mp hminus
    exact ⟨.minus,t,rfl,rfl⟩
  · by_cases hplus : s.head? = some '+'
    · obtain ⟨t,rfl⟩ := List.head?_eq_some_iff.mp hplus
      exact ⟨.plus,t,rfl,rfl⟩
    · exact ⟨.none,s,rfl,if_neg (by simp [hminus, hplus])⟩

theorem stoi_cases (s : Str) : (∃ n : Number, n.text = s) ∨ stoi s = .error .invalidArgument := by
  obtain ⟨sign,t,hs,ht⟩ := sign_taken (s.dropWhile isSpace)
  by_cases hdigits : t.takeWhile Char.isDigit = []
  · right
    rw [stoi]
    simp only [ht, hdigits, if_true]
  · left
    have hcomplete : ∀ c, (t.dropWhile Char.isDigit).head? = some c → c.isDigit = false := by
      intro c hc
      have hnot := List.head?_dropWhile_not Char.isDigit t
      rwa [hc] at hnot
    refine ⟨⟨s.takeWhile isSpace,sign,t.takeWhile Char.isDigit,t.dropWhile Char.isDigit,
      fun c hc => List.mem_takeWhile_imp hc,hdigits,fun c hc => List.mem_takeWhile_imp hc,
      hcomplete⟩,?_⟩
    rw [Number.text, List.takeWhile_append_dropWhile, ← hs, List.takeWhile_append_dropWhile]

structure Parts where
  scheme : Scheme
  server : Str
  port : Option Str
  path : Str
  plain : '/' ∉ server ∧ ':' ∉ server
  inside : ∀ p ∈ port, '/' ∉ p
  rooted : path = [] ∨ path.head? = some '/'

def Parts.text (a : Parts) : Str :=
  a.scheme.text++("://".toList++((a.server++portText a.port)++a.path))

/-- The members that are assigned before the port is read. -/
def Parts.begin (a : Parts) (u : URL) : URL :=
  { u with protocol := a.scheme.protocol, path := if a.path = [] then "/".toList else a.path }

def Parts.url (a : Parts) (port : ℤ) : URL :=
  { protocol := a.scheme.protocol, server := a.server, port := port,
    path := if a.path = [] then "/".toList else a.path }

/-- What the parser makes of a text, and of the members of its object. -/
inductive Reads (u : URL) : Str → Except Fault Bool × URL → Prop
  | foreign (s : Str) (h : ∀ scheme : Scheme, ¬ scheme.text++"://".toList <+: s) :
      Reads u s (.ok false,u)
  | standard (a : Parts) (noPort : a.port = none) : Reads u a.text (.ok true,a.url 8080)
  | numbered (a : Parts) (n : Number) (port : a.port = some n.text) (range : InRange n.value) :
      Reads u a.text (.ok true,a.url n.value)
  | overflowing (a : Parts) (n : Number) (port : a.port = some n.text)
      (range : ¬ InRange n.value) : Reads u a.text (.error .outOfRange,a.begin u)
  | unnumbered (a : Parts) (p : Str) (port : a.port = some p) (h : ∀ n : Number, n.text ≠ p) :
      Reads u a.text (.error .invalidArgument,a.begin u)

theorem parse_parts (u : URL) (a : Parts) : u.parseFromString a.text =
    match a.port with
    | none => (.ok true,a.url 8080)
    | some p =>
      match stoi p with
      | .error e => (.error e,a.begin u)
      | .ok n => (.ok true,a.url n) := by
  have hhost : '/' ∉ a.server++portText a.port := by
    rw [List.mem_append, not_or]
    refine ⟨a.plain.1,?_⟩
    cases hport : a.port with
    | none => simp [portText]
    | some p => simp [portText, a.inside p hport]
  obtain ⟨hserver,hpath⟩ := host_cut (a.server++portText a.port) a.path hhost a.rooted
  rw [Parts.text, parse_scheme]
  simp only [parseRest]
  rw [hserver, hpath, server_cut a.server a.port a.plain.2]
  cases hport : a.port with
  | none => simp [Parts.url, portText]
  | some p =>
    have hdrop : (a.server++portText (some p)).drop (a.server.length+1) = p := by
      simp [portText, List.drop_append]
    simp only [Option.map_some]
    rw [hdrop]
    cases stoi p with
    | error e => rfl
    | ok n => simp [Parts.url]

theorem cut_exists (c : Char) (s : Str) :
    ∃ a b, s = a++b ∧ c ∉ a ∧ (b = [] ∨ b.head? = some c) := by
  induction s with
  | nil => exact ⟨[],[],rfl,by simp,Or.inl rfl⟩
  | cons d s ih =>
    by_cases hd : d = c
    · exact ⟨[],d::s,rfl,by simp,Or.inr (by rw [hd]; rfl)⟩
    · obtain ⟨a,b,hs,ha,hb⟩ := ih
      exact ⟨d::a,b,by rw [hs]; rfl,by simp [ha, Ne.symm hd],hb⟩

theorem parts_exist (scheme : Scheme) (t : Str) :
    ∃ a : Parts, a.text = scheme.text++("://".toList++t) := by
  obtain ⟨host,path,ht,hhost,hpath⟩ := cut_exists '/' t
  obtain ⟨server,rest,hcut,hserver,hrest⟩ := cut_exists ':' host
  rw [hcut, List.mem_append, not_or] at hhost
  rcases hrest with rfl | hhead
  · refine ⟨⟨scheme,server,none,path,⟨hhost.1,hserver⟩,by simp,hpath⟩,?_⟩
    rw [Parts.text, portText, ht, hcut]
  · obtain ⟨p,rfl⟩ := List.head?_eq_some_iff.mp hhead
    have hinside : ∀ q ∈ some p, '/' ∉ q := by
      intro q hq
      cases hq
      exact fun hmem => hhost.2 (List.mem_cons_of_mem _ hmem)
    refine ⟨⟨scheme,server,some p,path,⟨hhost.1,hserver⟩,hinside,hpath⟩,?_⟩
    rw [Parts.text, portText, ht, hcut]

theorem reads_parsed (u : URL) (s : Str) (r : Except Fault Bool × URL) (h : Reads u s r) :
    u.parseFromString s = r := by
  cases h with
  | foreign s h =>
    rcases parse_cases u s with ⟨hreject,-⟩ | ⟨scheme,t,hs,-⟩
    · exact hreject
    · exact absurd ⟨t,by rw [hs, List.append_assoc]⟩ (h scheme)
  | standard a noPort => rw [parse_parts, noPort]
  | numbered a n port range =>
    rw [parse_parts, port]
    simp only [stoi_number, if_pos range]
  | overflowing a n port range =>
    rw [parse_parts, port]
    simp only [stoi_number, if_neg range]
  | unnumbered a p port h =>
    rw [parse_parts, port]
    rcases stoi_cases p with ⟨n,hn⟩ | hinvalid
    · exact absurd hn (h n)
    · simp only [hinvalid]

theorem reads_total (u : URL) (s : Str) : ∃ r, Reads u s r := by
  by_cases hscheme : ∃ (scheme : Scheme) (t : Str), scheme.text++("://".toList++t) = s
  · obtain ⟨scheme,t,rfl⟩ := hscheme
    obtain ⟨a,ha⟩ := parts_exist scheme t
    rw [← ha]
    cases hport : a.port with
    | none => exact ⟨_,.standard a hport⟩
    | some p =>
      by_cases hnumber : ∃ n : Number, n.text = p
      · obtain ⟨n,rfl⟩ := hnumber
        by_cases hrange : InRange n.value
        · exact ⟨_,.numbered a n hport hrange⟩
        · exact ⟨_,.overflowing a n hport hrange⟩
      · exact ⟨_,.unnumbered a p hport (fun n hn => hnumber ⟨n,hn⟩)⟩
  · refine ⟨_,.foreign s ?_⟩
    rintro scheme ⟨t,ht⟩
    exact hscheme ⟨scheme,t,by rw [← ht, List.append_assoc]⟩

/-- The parser follows the rules, and nothing else. -/
theorem parse_iff (u : URL) (s : Str) (r : Except Fault Bool × URL) :
    u.parseFromString s = r ↔ Reads u s r := by
  constructor
  · rintro rfl
    obtain ⟨r,hr⟩ := reads_total u s
    rwa [reads_parsed u s r hr]
  · exact reads_parsed u s r

/-- A port with a sign and something behind it, and no server. -/
example : URL.parseFromString ⟨.HTTPS,[],0,[]⟩ "http://:\t+80%/p".toList =
    (.ok true,{ protocol := .HTTP, server := [], port := 80, path := "/p".toList }) := rfl

end Grandma.Grammar

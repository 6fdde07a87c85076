import Mathlib.Tactic

/-!
# Digits of one width regrouped into digits of another

A list of digits below `2 ^ w` is a string of bits, the highest bit of the
first digit first. Spreading forgets where the digits were; gathering cuts the
bits into digits of another width and drops what does not fill one. Nothing
here depends on what the digits stand for.
-/

set_option autoImplicit false

namespace Grandma.Regrouping

/-- The `w` low bits of `n`, the highest first. -/
def bits : ℕ → ℕ → List Bool
  | 0, _ => []
  | w+1, n => n.testBit w::bits w n

def value : List Bool → ℕ
  | [] => 0
  | b::bs => b.toNat*2^bs.length+value bs

@[simp] theorem bits_length (w n : ℕ) : (bits w n).length = w := by
  induction w with
  | zero => rfl
  | succ w ih => rw [bits, List.length_cons, ih]

theorem bits_add (u v n : ℕ) : bits (u+v) n = bits u (n/2^v)++bits v n := by
  induction u with
  | zero => simp [bits]
  | succ u ih =>
    have hu : u+1+v = u+v+1 := by omega
    rw [hu, bits, bits, ih, Nat.testBit_div_two_pow]
    rfl

theorem bits_low (w v n : ℕ) (h : w ≤ v) : bits w (n%2^v) = bits w n := by
  induction w with
  | zero => rfl
  | succ w ih =>
    have hw : w < v := h
    rw [bits, bits, ih (by omega), Nat.testBit_mod_two_pow]
    simp [hw]

theorem bits_join (u v m n : ℕ) (hn : n < 2^v) :
    bits u m++bits v n = bits (u+v) (m*2^v+n) := by
  have hdiv : (m*2^v+n)/2^v = m := by
    rw [Nat.mul_comm, Nat.mul_add_div (Nat.two_pow_pos v), Nat.div_eq_of_lt hn, Nat.add_zero]
  have hmod : (m*2^v+n)%2^v = n := by
    rw [Nat.mul_comm, Nat.mul_add_mod, Nat.mod_eq_of_lt hn]
  rw [bits_add, hdiv, ← bits_low v v (m*2^v+n) (Nat.le_refl v), hmod]

theorem bits_zero (w : ℕ) : bits w 0 = List.replicate w false := by
  induction w with
  | zero => rfl
  | succ w ih => rw [bits, ih, Nat.zero_testBit, List.replicate_succ]

theorem value_lt (bs : List Bool) : value bs < 2^bs.length := by
  induction bs with
  | nil => simp [value]
  | cons b bs ih =>
    rw [value, List.length_cons, Nat.pow_succ]
    cases b <;> simp <;> omega

theorem bits_value (bs : List Bool) : bits bs.length (value bs) = bs := by
  induction bs with
  | nil => rfl
  | cons b bs ih =>
    have hlt := value_lt bs
    rw [value, List.length_cons, Nat.add_comm bs.length 1, ← bits_join 1 _ _ _ hlt, ih]
    cases b <;> rfl

theorem value_bits (w n : ℕ) : value (bits w n) = n%2^w := by
  induction w with
  | zero => simp [bits, value, Nat.mod_one]
  | succ w ih =>
    rw [bits, value, bits_length, ih, Nat.toNat_testBit, Nat.mod_pow_succ, Nat.mul_comm,
      Nat.add_comm]

def spread (w : ℕ) (ds : List ℕ) : List Bool := ds.flatMap (bits w)

@[simp] theorem spread_nil (w : ℕ) : spread w [] = [] := rfl

@[simp] theorem spread_cons (w d : ℕ) (ds : List ℕ) : spread w (d::ds) = bits w d++spread w ds :=
  rfl

theorem spread_append (w : ℕ) (ds es : List ℕ) : spread w (ds++es) = spread w ds++spread w es :=
  List.flatMap_append

@[simp] theorem spread_length (w : ℕ) (ds : List ℕ) : (spread w ds).length = w*ds.length := by
  induction ds with
  | nil => simp
  | cons d ds ih =>
    rw [spread_cons, List.length_append, bits_length, ih, List.length_cons, Nat.mul_succ]
    omega

def Below (w : ℕ) (ds : List ℕ) : Prop := ∀ d ∈ ds, d < 2^w

def groups (w : ℕ) : ℕ → List Bool → List ℕ
  | 0, _ => []
  | n+1, bs => value (bs.take w)::groups w n (bs.drop w)

def gather (w : ℕ) (bs : List Bool) : List ℕ := groups w (bs.length/w) bs

theorem gather_short (w : ℕ) (bs : List Bool) (h : bs.length < w) : gather w bs = [] := by
  rw [gather, Nat.div_eq_of_lt h]
  rfl

@[simp] theorem gather_nil (w : ℕ) : gather w [] = [] := by simp [gather, groups]

theorem gather_cons (w d : ℕ) (bs : List Bool) (hw : 0 < w) :
    gather w (bits w d++bs) = d%2^w::gather w bs := by
  rw [gather, List.length_append, bits_length, Nat.add_comm, Nat.add_div_right _ hw, groups,
    List.take_left' (bits_length w d), List.drop_left' (bits_length w d), value_bits]
  rfl

/-- Digits that were spread are gathered again; bits behind them do not matter
unless they fill digits of their own. -/
theorem gather_spread (w : ℕ) (ds : List ℕ) (bs : List Bool) (hw : 0 < w) (hds : Below w ds) :
    gather w (spread w ds++bs) = ds++gather w bs := by
  induction ds with
  | nil => rfl
  | cons d ds ih =>
    have hd : d%2^w = d := Nat.mod_eq_of_lt (hds d (by simp))
    rw [spread_cons, List.append_assoc, gather_cons w d _ hw, hd,
      ih (fun e he => hds e (by simp [he]))]
    rfl

theorem groups_below (w n : ℕ) (bs : List Bool) : Below w (groups w n bs) := by
  induction n generalizing bs with
  | zero => simp [Below, groups]
  | succ n ih =>
    intro d hd
    rcases List.mem_cons.mp hd with rfl | hd
    · calc value (bs.take w) < 2^(bs.take w).length := value_lt _
        _ ≤ 2^w := Nat.pow_le_pow_right (by omega) (by simp)
    · exact ih _ d hd

theorem gather_below (w : ℕ) (bs : List Bool) : Below w (gather w bs) := groups_below w _ bs

theorem groups_length (w n : ℕ) (bs : List Bool) : (groups w n bs).length = n := by
  induction n generalizing bs with
  | zero => rfl
  | succ n ih => rw [groups, List.length_cons, ih]

theorem gather_length (w : ℕ) (bs : List Bool) : (gather w bs).length = bs.length/w :=
  groups_length w _ bs

theorem spread_groups (w n : ℕ) (bs : List Bool) (h : w*n ≤ bs.length) :
    spread w (groups w n bs) = bs.take (w*n) := by
  induction n generalizing bs with
  | zero => simp [groups]
  | succ n ih =>
    have hlen : (bs.take w).length = w := by
      rw [List.length_take]
      apply Nat.min_eq_left
      calc w ≤ w*(n+1) := Nat.le_mul_of_pos_right w (by omega)
        _ ≤ bs.length := h
    have hrest : w*n ≤ (bs.drop w).length := by
      rw [List.length_drop]
      rw [Nat.mul_succ] at h
      omega
    have hbits := bits_value (bs.take w)
    rw [hlen] at hbits
    rw [groups, spread_cons, hbits, ih _ hrest, Nat.mul_succ, Nat.add_comm, List.take_add]

theorem spread_gather (w : ℕ) (bs : List Bool) :
    spread w (gather w bs) = bs.take (w*(bs.length/w)) :=
  spread_groups w _ bs (Nat.mul_div_le bs.length w)

theorem spread_take (w n : ℕ) (ds : List ℕ) : spread w (ds.take n) = (spread w ds).take (w*n) := by
  induction n generalizing ds with
  | zero => simp
  | succ n ih =>
    cases ds with
    | nil => simp
    | cons d ds =>
      rw [List.take_succ_cons, spread_cons, spread_cons, ih, Nat.mul_succ, Nat.add_comm,
        List.take_append, bits_length, Nat.add_sub_cancel_left,
        List.take_of_length_le (l := bits w d) (by simp)]

theorem gather_append (w : ℕ) (as bs : List Bool) (hw : 0 < w) (h : w ∣ as.length) :
    gather w (as++bs) = gather w as++gather w bs := by
  have has : spread w (gather w as) = as := by
    rw [spread_gather, Nat.mul_div_cancel' h, List.take_length]
  have hjoin := gather_spread w (gather w as) bs hw (gather_below w as)
  rwa [has] at hjoin

theorem groups_take (w k n : ℕ) (bs : List Bool) (h : w*k ≤ n) :
    groups w k (bs.take n) = groups w k bs := by
  induction k generalizing n bs with
  | zero => rfl
  | succ k ih =>
    rw [Nat.mul_succ] at h
    rw [groups, groups, List.take_take, Nat.min_eq_left (by omega), List.drop_take,
      ih _ _ (by omega)]

theorem groups_prefix (w k n : ℕ) (bs : List Bool) (h : k ≤ n) :
    groups w k bs = (groups w n bs).take k := by
  induction k generalizing n bs with
  | zero => rfl
  | succ k ih =>
    obtain ⟨m,rfl⟩ := Nat.exists_eq_add_of_le' h
    rw [groups, ← Nat.add_assoc, groups, List.take_succ_cons, ← ih (m+k) _ (by omega)]

theorem gather_take (w n : ℕ) (bs : List Bool) (h : n ≤ bs.length) :
    gather w (bs.take n) = (gather w bs).take (n/w) := by
  rw [gather, gather, List.length_take, Nat.min_eq_left h,
    groups_take w _ n bs (Nat.mul_div_le n w),
    groups_prefix w _ (bs.length/w) bs (Nat.div_le_div_right h)]

/-- Lists taken in groups of `n`, with a shorter group at the end. -/
theorem by_groups {α : Type*} {P : List α → Prop} (n : ℕ) (hn : 0 < n)
    (last : ∀ as, as.length < n → P as)
    (group : ∀ as bs, as.length = n → P bs → P (as++bs)) (as : List α) : P as := by
  induction hlen : as.length using Nat.strong_induction_on generalizing as with
  | _ m ih =>
    by_cases h : as.length < n
    · exact last as h
    · rw [← List.take_append_drop n as]
      apply group
      · rw [List.length_take]
        omega
      · exact ih (as.drop n).length (by rw [List.length_drop]; omega) _ rfl

end Grandma.Regrouping

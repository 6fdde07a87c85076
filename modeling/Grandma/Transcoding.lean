import Grandma.Base64
import Mathlib.Data.List.TakeWhile

/-!
# What the base64 functions do to bits

The encoder cuts the bits of the bytes into digits of six and fills the last
one with zeros; the decoder cuts the bits of the leading digits into bytes and
drops what does not fill one. Everything else that is in the arrays has no
influence. The laws of encoding and decoding are those of regrouping.
-/

set_option autoImplicit false

namespace Grandma.Transcoding
open Base64 Regrouping

def numbers (bs : Bytes) : List ℕ := bs.map UInt8.toNat

def digitChar (d : ℕ) : UInt8 := base64Char (UInt8.ofNat d)

def digits (text : Bytes) : List ℕ :=
  (text.takeWhile isBase64).map (fun c => (position c).toNat)

def padding (n : ℕ) : ℕ := (3-n%3)%3

def padded (bs : Bytes) : List Bool :=
  spread 8 (numbers bs)++List.replicate (2*padding bs.length) false

def encoded (bs : Bytes) : Bytes :=
  (gather 6 (padded bs)).map digitChar++List.replicate (padding bs.length) (byte '=')

theorem masks (n : ℕ) (h : n < 256) :
    n &&& 252 = n/4*4 ∧ n &&& 3 = n%4 ∧ n &&& 240 = n/16*16 ∧ n &&& 15 = n%16 ∧
      n &&& 192 = n/64*64 ∧ n &&& 63 = n%64 := by
  revert n
  decide +kernel

theorem inner_masks (n : ℕ) (h : n < 256) :
    n &&& 48 = n/16%4*16 ∧ n &&& 60 = n/4%16*4 := by
  revert n
  decide +kernel

theorem position_char (c : UInt8) (h : isBase64 c) :
    (position c).toNat < 64 ∧ base64Char (position c) = c := by
  have hall : ∀ n : Fin 256, isBase64 (UInt8.ofNat n) →
      (position (UInt8.ofNat n)).toNat < 64 ∧
        base64Char (position (UInt8.ofNat n)) = UInt8.ofNat n := by
    decide +kernel
  simpa using hall ⟨c.toNat,c.toNat_lt⟩ (by simpa using h)

theorem charArray4_numbers (a b c : UInt8) : numbers (charArray4 #v[a,b,c]).toList =
    [a.toNat/4,a.toNat%4*16+b.toNat/16,b.toNat%16*4+c.toNat/64,c.toNat%64] := by
  obtain ⟨ha,hb,hc⟩ : a.toNat < 256 ∧ b.toNat < 256 ∧ c.toNat < 256 :=
    ⟨a.toNat_lt,b.toNat_lt,c.toNat_lt⟩
  simp [numbers, charArray4, masks _ ha, masks _ hb, masks _ hc, Nat.shiftRight_eq_div_pow,
    Nat.shiftLeft_eq]
  omega

theorem four_bits (a b c : UInt8) :
    spread 6 (numbers (charArray4 #v[a,b,c]).toList) = spread 8 (numbers [a,b,c]) := by
  obtain ⟨ha,hb,hc⟩ : a.toNat < 256 ∧ b.toNat < 256 ∧ c.toNat < 256 :=
    ⟨a.toNat_lt,b.toNat_lt,c.toNat_lt⟩
  rw [charArray4_numbers]
  simp only [numbers, List.map_cons, List.map_nil, spread_cons, spread_nil, List.append_nil]
  rw [bits_join 6 6 _ _ (by omega), bits_join 6 _ _ _ (by omega), bits_join 6 _ _ _ (by omega),
    bits_join 8 8 _ _ (by omega), bits_join 8 _ _ _ (by omega)]
  exact congrArg (bits 24) (by omega)

theorem charArray3_numbers (a b c d : UInt8) : numbers (charArray3 #v[a,b,c,d]).toList =
    [(a.toNat*4+b.toNat/16%4)%256,(b.toNat%16*16+c.toNat/4%16)%256,
      (c.toNat%4*64+d.toNat)%256] := by
  obtain ⟨hb,hc⟩ : b.toNat < 256 ∧ c.toNat < 256 := ⟨b.toNat_lt,c.toNat_lt⟩
  simp [numbers, charArray3, masks _ hb, masks _ hc, inner_masks _ hb, inner_masks _ hc,
    Nat.shiftRight_eq_div_pow, Nat.shiftLeft_eq]

theorem three_bytes (a b c d : UInt8) (ha : a.toNat < 64) (hb : b.toNat < 64) (hc : c.toNat < 64)
    (hd : d.toNat < 64) : numbers (charArray3 #v[a,b,c,d]).toList =
      gather 8 (spread 6 [a.toNat,b.toNat,c.toNat,d.toNat]) := by
  have hbits : spread 6 [a.toNat,b.toNat,c.toNat,d.toNat] =
      spread 8 [(a.toNat*4+b.toNat/16%4)%256,(b.toNat%16*16+c.toNat/4%16)%256,
        (c.toNat%4*64+d.toNat)%256] := by
    simp only [spread_cons, spread_nil, List.append_nil]
    rw [bits_join 6 6 _ _ (by omega), bits_join 6 _ _ _ (by omega), bits_join 6 _ _ _ (by omega),
      bits_join 8 8 _ _ (by omega), bits_join 8 _ _ _ (by omega)]
    exact congrArg (bits 24) (by omega)
  have hgather := gather_spread 8 [(a.toNat*4+b.toNat/16%4)%256,
    (b.toNat%16*16+c.toNat/4%16)%256,(c.toNat%4*64+d.toNat)%256] [] (by omega)
    (by simp [Below]; omega)
  rw [charArray3_numbers, hbits]
  simpa using hgather.symm

theorem encode_group (a : Vector UInt8 3) (ret : Bytes) (x y z : UInt8) :
    [x,y,z].foldl encodeByte { i := 0, array := a, ret := ret } =
      { i := 0, array := #v[x,y,z], ret := ret++(charArray4 #v[x,y,z]).toList.map base64Char } := by
  have harray : ((a.setIfInBounds 0 x).setIfInBounds 1 y).setIfInBounds 2 z = #v[x,y,z] := by
    ext i hi
    interval_cases i <;> simp
  simp [encodeByte, harray]

theorem numbers_below (bs : Bytes) : Below 8 (numbers bs) := by
  intro d hd
  obtain ⟨b,-,rfl⟩ := List.mem_map.mp hd
  exact b.toNat_lt

theorem numbers_append (as bs : Bytes) : numbers (as++bs) = numbers as++numbers bs :=
  List.map_append

theorem numbers_take (bs : Bytes) (n : ℕ) : numbers (bs.take n) = (numbers bs).take n :=
  List.map_take

theorem numbers_chars (bs : Bytes) : (numbers bs).map digitChar = bs.map base64Char := by
  simp [numbers, digitChar]

theorem charArray4_below (a b c : UInt8) : Below 6 (numbers (charArray4 #v[a,b,c]).toList) := by
  obtain ⟨ha,hb,hc⟩ : a.toNat < 256 ∧ b.toNat < 256 ∧ c.toNat < 256 :=
    ⟨a.toNat_lt,b.toNat_lt,c.toNat_lt⟩
  rw [charArray4_numbers]
  simp [Below]
  omega

theorem quad_chars (x y z : UInt8) (n : ℕ) :
    ((charArray4 #v[x,y,z]).toList.take n).map base64Char =
      (gather 6 ((spread 8 (numbers [x,y,z])).take (6*n))).map digitChar := by
  have hbelow : Below 6 ((numbers (charArray4 #v[x,y,z]).toList).take n) :=
    fun d hd => charArray4_below x y z d (List.mem_of_mem_take hd)
  have hgather := gather_spread 6 _ [] (by omega) hbelow
  rw [spread_take, four_bits, gather_nil, List.append_nil, List.append_nil] at hgather
  rw [hgather, ← numbers_take, numbers_chars]

theorem padding_group (as bs : Bytes) (h : 3 ∣ as.length) :
    padding (as++bs).length = padding bs.length := by
  rw [List.length_append, padding, padding]
  omega

theorem padded_group (as bs : Bytes) (h : 3 ∣ as.length) :
    padded (as++bs) = spread 8 (numbers as)++padded bs := by
  rw [padded, padding_group as bs h, numbers_append, spread_append, List.append_assoc]
  rfl

theorem encode_short (a : Vector UInt8 3) (ret bs : Bytes) (h : bs.length < 3) :
    encodeRest (bs.foldl encodeByte { i := 0, array := a, ret := ret }) = ret++encoded bs := by
  match bs with
  | [] => simp [encodeRest, encoded, padded, padding, numbers]
  | [x] =>
    have harray : (a.setIfInBounds 0 x).mapIdx (fun j b => if j < 1 then b else 0) = #v[x,0,0] := by
      ext i hi
      interval_cases i <;> simp
    have hbits : (spread 8 (numbers [x,0,0])).take (6*2) = padded [x] := by
      simp [numbers, padded, padding, bits_zero, List.take_append]
    have hquad := quad_chars x 0 0 2
    rw [hbits] at hquad
    simp only [List.foldl_cons, List.foldl_nil, encodeByte, encodeRest, Nat.zero_add,
      Nat.reduceEqDiff, if_false, harray, one_ne_zero]
    rw [hquad, encoded, List.append_assoc]
    rfl
  | [x,y] =>
    have harray : ((a.setIfInBounds 0 x).setIfInBounds 1 y).mapIdx
        (fun j b => if j < 2 then b else 0) = #v[x,y,0] := by
      ext i hi
      interval_cases i <;> simp
    have hbits : (spread 8 (numbers [x,y,0])).take (6*3) = padded [x,y] := by
      simp [numbers, padded, padding, bits_zero, List.take_append, List.take_of_length_le]
    have hquad := quad_chars x y 0 3
    rw [hbits] at hquad
    simp only [List.foldl_cons, List.foldl_nil, encodeByte, encodeRest, Nat.zero_add,
      Nat.reduceEqDiff, Nat.reduceAdd, if_false, harray, OfNat.ofNat_ne_zero]
    rw [hquad, encoded, List.append_assoc]
    rfl

theorem encode_from (bs : Bytes) (a : Vector UInt8 3) (ret : Bytes) :
    encodeRest (bs.foldl encodeByte { i := 0, array := a, ret := ret }) = ret++encoded bs := by
  induction bs using by_groups 3 (by omega) generalizing a ret with
  | last bs hlen => exact encode_short a ret bs hlen
  | group as bs hlen ih =>
    obtain ⟨x,y,z,rfl⟩ := List.length_eq_three.mp hlen
    have hchars : (charArray4 #v[x,y,z]).toList.map base64Char =
        (gather 6 (spread 8 (numbers [x,y,z]))).map digitChar := by
      have hquad := quad_chars x y z 4
      rwa [List.take_of_length_le (by simp), List.take_of_length_le (by simp [numbers])] at hquad
    have hthree : 3 ∣ [x,y,z].length := ⟨1,rfl⟩
    rw [List.foldl_append, encode_group, ih, encoded, encoded, padded_group _ _ hthree,
      padding_group _ _ hthree, gather_append 6 _ _ (by omega) (by simp [numbers]),
      List.map_append, hchars]
    simp

theorem encode_encoded (uninit : Vector UInt8 3) (bs : Bytes) :
    base64Encode uninit bs = encoded bs := encode_from bs uninit []

theorem decode_group (a : Vector UInt8 4) (ret : Bytes) (w x y z : UInt8) :
    [w,x,y,z].foldl decodeByte { i := 0, array := a, ret := ret } =
      let a := #v[position w,position x,position y,position z]
      { i := 0, array := a, ret := ret++(charArray3 a).toList } := by
  have harray : ((((a.setIfInBounds 0 w).setIfInBounds 1 x).setIfInBounds 2 y).setIfInBounds 3
      z).map position = #v[position w,position x,position y,position z] := by
    ext i hi
    interval_cases i <;> simp
  simp [decodeByte, harray]

theorem digits_below (text : Bytes) : Below 6 (digits text) := by
  intro d hd
  obtain ⟨c,hc,rfl⟩ := List.mem_map.mp hd
  exact (position_char c (List.mem_takeWhile_imp hc)).1

/-- The last group has indices in front of what was in the array before. A byte
that is put out depends on the indices only. -/
theorem last_bytes (a b c d : UInt8) (ha : a.toNat < 64) (hb : b.toNat < 64) :
    numbers ((charArray3 #v[a,b,c,d]).toList.take 1) = gather 8 (spread 6 [a.toNat,b.toNat]) ∧
    (c.toNat < 64 → numbers ((charArray3 #v[a,b,c,d]).toList.take 2) =
      gather 8 (spread 6 [a.toNat,b.toNat,c.toNat])) := by
  constructor
  · have hthree := three_bytes a b 0 0 ha hb (by decide) (by decide)
    have htake := gather_take 8 12 (spread 6 [a.toNat,b.toNat,0,0]) (by simp)
    have hbits := spread_take 6 2 [a.toNat,b.toNat,0,0]
    simp only [UInt8.toNat_zero] at hthree
    rw [← hbits, ← hthree, charArray3_numbers] at htake
    rw [numbers_take, charArray3_numbers]
    exact htake.symm
  · intro hc
    have hthree := three_bytes a b c 0 ha hb hc (by decide)
    have htake := gather_take 8 18 (spread 6 [a.toNat,b.toNat,c.toNat,0]) (by simp)
    have hbits := spread_take 6 3 [a.toNat,b.toNat,c.toNat,0]
    simp only [UInt8.toNat_zero] at hthree
    rw [← hbits, ← hthree, charArray3_numbers] at htake
    rw [numbers_take, charArray3_numbers]
    exact htake.symm

theorem decode_short (a : Vector UInt8 4) (ret cs : Bytes) (hlen : cs.length < 4)
    (hcs : ∀ c ∈ cs, isBase64 c) :
    numbers (decodeRest (cs.foldl decodeByte { i := 0, array := a, ret := ret })) =
      numbers ret++gather 8 (spread 6 (cs.map (fun c => (position c).toNat))) := by
  have hlt : ∀ c ∈ cs, (position c).toNat < 64 := fun c hc => (position_char c (hcs c hc)).1
  match cs with
  | [] => simp [decodeRest]
  | [w] => simp [decodeByte, decodeRest, gather_short]
  | [w,x] =>
    have harray : ((a.setIfInBounds 0 w).setIfInBounds 1 x).mapIdx
        (fun j c => if j < 2 then position c else c) = #v[position w,position x,a[2],a[3]] := by
      ext i hi
      interval_cases i <;> simp
    have hlast := (last_bytes (position w) (position x) a[2] a[3] (hlt w (by simp))
      (hlt x (by simp))).1
    simp only [List.foldl_cons, List.foldl_nil, decodeByte, decodeRest, Nat.zero_add,
      Nat.reduceEqDiff, Nat.reduceAdd, if_false, harray]
    rw [numbers_append]
    exact congrArg (numbers ret++·) hlast
  | [w,x,y] =>
    have harray : (((a.setIfInBounds 0 w).setIfInBounds 1 x).setIfInBounds 2 y).mapIdx
        (fun j c => if j < 3 then position c else c) =
          #v[position w,position x,position y,a[3]] := by
      ext i hi
      interval_cases i <;> simp
    have hlast := (last_bytes (position w) (position x) (position y) a[3] (hlt w (by simp))
      (hlt x (by simp))).2 (hlt y (by simp))
    simp only [List.foldl_cons, List.foldl_nil, decodeByte, decodeRest, Nat.zero_add,
      Nat.reduceEqDiff, Nat.reduceAdd, if_false, harray]
    rw [numbers_append]
    exact congrArg (numbers ret++·) hlast

theorem decode_from (cs : Bytes) (hcs : ∀ c ∈ cs, isBase64 c) (a : Vector UInt8 4) (ret : Bytes) :
    numbers (decodeRest (cs.foldl decodeByte { i := 0, array := a, ret := ret })) =
      numbers ret++gather 8 (spread 6 (cs.map (fun c => (position c).toNat))) := by
  induction cs using by_groups 4 (by omega) generalizing a ret with
  | last cs hlen => exact decode_short a ret cs hlen hcs
  | group as cs hlen ih =>
    obtain ⟨w,x,y,z,rfl⟩ := List.length_eq_four.mp hlen
    have hlt : ∀ c ∈ [w,x,y,z], (position c).toNat < 64 := by
      intro c hc
      exact (position_char c (hcs c (List.mem_append_left _ hc))).1
    have hbytes := three_bytes (position w) (position x) (position y) (position z)
      (hlt w (by simp)) (hlt x (by simp)) (hlt y (by simp)) (hlt z (by simp))
    rw [List.foldl_append, decode_group, ih (fun c hc => hcs c (List.mem_append_right _ hc)),
      List.map_append, spread_append, gather_append 8 _ _ (by omega) (by simp),
      numbers_append, hbytes, List.append_assoc]
    rfl

theorem loop_digits (cs : Bytes) (s : Decoder) :
    decodeLoop cs.length cs s = (cs.takeWhile isBase64).foldl decodeByte s := by
  induction cs generalizing s with
  | nil => rfl
  | cons c cs ih =>
    have hstep : ((c::cs).length : ℤ)-1 = cs.length := by simp
    have hne : ((c::cs).length : ℤ) ≠ 0 := by simp; omega
    have heq : isBase64 (byte '=') = false := by decide
    rw [decodeLoop, hstep, ih]
    by_cases hc : isBase64 c
    · have hpad : c ≠ byte '=' := by
        rintro rfl
        rw [heq] at hc
        cases hc
      rw [if_pos ⟨hne,hpad,hc⟩, List.takeWhile_cons_of_pos hc, List.foldl_cons]
    · rw [if_neg (fun h => hc h.2.2), List.takeWhile_cons_of_neg hc]
      rfl

theorem decode_bits (uninit : Vector UInt8 4) (text : Bytes) (h : text.length < 2147483648) :
    numbers (base64Decode uninit text) = gather 8 (spread 6 (digits text)) := by
  have hlen : (text.length : ℤ).bmod 4294967296 = text.length := by
    apply Int.bmod_eq_of_le <;> omega
  have hcs : ∀ c ∈ text.takeWhile isBase64, isBase64 c :=
    fun c hc => List.mem_takeWhile_imp hc
  simp only [base64Decode]
  rw [hlen, loop_digits, decode_from _ hcs]
  rfl

theorem numbers_injective (as bs : Bytes) (h : numbers as = numbers bs) : as = bs :=
  List.map_injective_iff.mpr (fun _ _ hab => UInt8.toNat_inj.mp hab) h

theorem digit_character (d : ℕ) (hd : d < 64) :
    isBase64 (digitChar d) ∧ (position (digitChar d)).toNat = d := by
  have hall : ∀ n : Fin 64, isBase64 (digitChar n) ∧ (position (digitChar n)).toNat = n := by
    decide +kernel
  exact hall ⟨d,hd⟩

theorem encoded_digits (bs rest : Bytes)
    (hrest : bs.length%3 = 0 → ∀ c, rest.head? = some c → ¬isBase64 c) :
    digits (encoded bs++rest) = gather 6 (padded bs) := by
  have hbelow := gather_below 6 (padded bs)
  have hpad : isBase64 (byte '=') = false := by decide
  have hend : (List.replicate (padding bs.length) (byte '=')++rest).takeWhile isBase64 = [] := by
    cases hp : padding bs.length with
    | zero =>
      cases rest with
      | nil => rfl
      | cons c rest =>
        have hlen : bs.length%3 = 0 := by
          rw [padding] at hp
          omega
        exact List.takeWhile_cons_of_neg (hrest hlen c rfl)
    | succ p =>
      rw [List.replicate_succ, List.cons_append]
      exact List.takeWhile_cons_of_neg (by simp [hpad])
  have hall : ∀ c ∈ (gather 6 (padded bs)).map digitChar, isBase64 c := by
    intro c hc
    obtain ⟨d,hd,rfl⟩ := List.mem_map.mp hc
    exact (digit_character d (hbelow d hd)).1
  rw [digits, encoded, List.append_assoc, List.takeWhile_append_of_pos hall, hend,
    List.append_nil, List.map_map]
  conv_rhs => rw [← List.map_id (gather 6 (padded bs))]
  apply List.map_congr_left
  intro d hd
  exact (digit_character d (hbelow d hd)).2

theorem padded_fills (bs : Bytes) : 6 ∣ (padded bs).length := by
  simp only [padded, List.length_append, spread_length, numbers, List.length_map,
    List.length_replicate, padding]
  omega

theorem gather_padded (bs : Bytes) : gather 8 (padded bs) = numbers bs := by
  have hshort : (List.replicate (2*padding bs.length) false).length < 8 := by
    rw [List.length_replicate, padding]
    omega
  rw [padded, gather_spread 8 _ _ (by omega) (numbers_below bs), gather_short 8 _ hshort,
    List.append_nil]

/-- Decoding gives back what was encoded, whatever was in the arrays and
whatever follows, if it is told apart from the encoding. -/
theorem decode_encode (uninit3 : Vector UInt8 3) (uninit4 : Vector UInt8 4) (bs rest : Bytes)
    (hrest : bs.length%3 = 0 → ∀ c, rest.head? = some c → ¬isBase64 c)
    (hlen : (base64Encode uninit3 bs++rest).length < 2147483648) :
    base64Decode uninit4 (base64Encode uninit3 bs++rest) = bs := by
  apply numbers_injective
  rw [decode_bits uninit4 _ hlen, encode_encoded, encoded_digits bs rest hrest, spread_gather,
    Nat.mul_div_cancel' (padded_fills bs), List.take_length, gather_padded]

theorem decode_encode_hello :
    base64Decode #v[1,2,3,4] (base64Encode #v[7,8,9] ("hello".toList.map byte)++
      "!".toList.map byte) = "hello".toList.map byte :=
  decode_encode #v[7,8,9] #v[1,2,3,4] _ _ (by decide) (by decide +kernel)

/-- The decoder reads the digits in front and nothing else: not its array, and
not the text behind them. Its output has their bits, up to the last full byte. -/
theorem decode_reads_digits (uninit uninit' : Vector UInt8 4) (text : Bytes)
    (hlen : text.length < 2147483648) :
    base64Decode uninit text = base64Decode uninit' (text.takeWhile isBase64) ∧
    (base64Decode uninit text).length = 6*(text.takeWhile isBase64).length/8 ∧
    spread 8 (numbers (base64Decode uninit text)) =
      (spread 6 (digits text)).take (8*(base64Decode uninit text).length) := by
  have hprefix : (text.takeWhile isBase64).length < 2147483648 :=
    lt_of_le_of_lt (List.takeWhile_prefix _).length_le hlen
  have hdigits : digits (text.takeWhile isBase64) = digits text := by
    rw [digits, digits, List.takeWhile_idem]
  have hbits := decode_bits uninit text hlen
  have hlength : (base64Decode uninit text).length = (spread 6 (digits text)).length/8 := by
    rw [← gather_length, ← hbits, numbers, List.length_map]
  constructor
  · apply numbers_injective
    rw [hbits, decode_bits uninit' _ hprefix, hdigits]
  constructor
  · rw [hlength, spread_length, digits, List.length_map]
  · rw [hbits, spread_gather, hlength]

theorem decode_reads_digits_hello :
    base64Decode #v[0,0,0,0] ("aGVsbG8=b".toList.map byte) =
      base64Decode #v[5,6,7,8] ("aGVsbG8".toList.map byte) :=
  (decode_reads_digits #v[0,0,0,0] #v[5,6,7,8] ("aGVsbG8=b".toList.map byte) (by decide)).1

/-- A text as the encoder writes it: padded to a whole group, no group of a
single digit, and the bits that fill no byte are zero. -/
structure Canonical (text : Bytes) : Prop where
  behind : text.dropWhile isBase64 = List.replicate ((4-(digits text).length%4)%4) (byte '=')
  grouped : (digits text).length%4 ≠ 1
  zeros : ∀ b ∈ (spread 6 (digits text)).drop (8*(6*(digits text).length/8)), b = false

theorem encoded_canonical (bs : Bytes) : Canonical (encoded bs) := by
  have hdigits := encoded_digits bs [] (by simp)
  rw [List.append_nil] at hdigits
  have hbits : spread 6 (digits (encoded bs)) = padded bs := by
    rw [hdigits, spread_gather, Nat.mul_div_cancel' (padded_fills bs), List.take_length]
  have hlength : 6*(digits (encoded bs)).length = 8*bs.length+2*padding bs.length := by
    rw [← spread_length, hbits]
    simp [padded, numbers]
  have hpad : padding bs.length = (3-bs.length%3)%3 := rfl
  constructor
  · have hall : ∀ c ∈ (gather 6 (padded bs)).map digitChar, isBase64 c := by
      intro c hc
      obtain ⟨d,hd,rfl⟩ := List.mem_map.mp hc
      exact (digit_character d (gather_below 6 _ d hd)).1
    have hcount : padding bs.length = (4-(digits (encoded bs)).length%4)%4 := by omega
    rw [← hcount, encoded, List.dropWhile_append_of_pos hall]
    cases padding bs.length with
    | zero => rfl
    | succ p => exact List.dropWhile_cons_of_neg (by decide)
  · omega
  · have hcut : 8*(6*(digits (encoded bs)).length/8) = (spread 8 (numbers bs)).length := by
      rw [spread_length, numbers, List.length_map]
      omega
    rw [hbits, hcut, padded, List.drop_left]
    intro b hb
    exact (List.mem_replicate.mp hb).2

theorem digits_chars (text : Bytes) : (digits text).map digitChar = text.takeWhile isBase64 := by
  rw [digits, List.map_map]
  conv_rhs => rw [← List.map_id (text.takeWhile isBase64)]
  apply List.map_congr_left
  intro c hc
  simp [digitChar, (position_char c (List.mem_takeWhile_imp hc)).2]

theorem padding_left (l : ℕ) (h : l%4 ≠ 1) :
    padding (6*l/8) = (4-l%4)%4 ∧ 2*padding (6*l/8) = 6*l-8*(6*l/8) := by
  obtain ⟨k,hk⟩ : ∃ k, l = 4*k ∨ l = 4*k+2 ∨ l = 4*k+3 := ⟨l/4,by omega⟩
  rw [padding]
  rcases hk with rfl | rfl | rfl
  · have hdiv : 6*(4*k)/8 = 3*k := by omega
    rw [hdiv]
    omega
  · have hdiv : 6*(4*k+2)/8 = 3*k+1 := by omega
    rw [hdiv]
    omega
  · have hdiv : 6*(4*k+3)/8 = 3*k+2 := by omega
    rw [hdiv]
    omega

/-- A canonical text has nothing but the bits of full bytes and the zeros that
pad them. -/
theorem canonical_padded (text bs : Bytes) (hc : Canonical text)
    (hbs : numbers bs = gather 8 (spread 6 (digits text))) :
    padded bs = spread 6 (digits text) ∧
      padding bs.length = (4-(digits text).length%4)%4 := by
  have hlength : bs.length = 6*(digits text).length/8 := by
    rw [← spread_length, ← gather_length, ← hbs, numbers, List.length_map]
  obtain ⟨hpad,hleft⟩ := padding_left _ hc.grouped
  rw [← hlength] at hpad hleft
  constructor
  · have hdrop : (spread 6 (digits text)).drop (8*(6*(digits text).length/8)) =
        List.replicate (2*padding bs.length) false := by
      rw [List.eq_replicate_iff, List.length_drop, spread_length, hleft, hlength]
      exact ⟨rfl,hc.zeros⟩
    rw [padded, hbs, spread_gather, ← hdrop, spread_length, List.take_append_drop]
  · exact hpad

/-- Encoding what was decoded gives the text back exactly when it is written
the way the encoder writes. -/
theorem reencode_iff (uninit3 : Vector UInt8 3) (uninit4 : Vector UInt8 4) (text : Bytes)
    (hlen : text.length < 2147483648) :
    base64Encode uninit3 (base64Decode uninit4 text) = text ↔ Canonical text := by
  rw [encode_encoded]
  constructor
  · intro h
    rw [← h]
    exact encoded_canonical _
  · intro hc
    obtain ⟨hpadded,hpad⟩ := canonical_padded text _ hc (decode_bits uninit4 text hlen)
    have hdigits : gather 6 (spread 6 (digits text)) = digits text := by
      simpa using gather_spread 6 (digits text) [] (by omega) (digits_below text)
    rw [encoded, hpadded, hpad, hdigits, digits_chars, ← hc.behind,
      List.takeWhile_append_dropWhile]

theorem reencode_iff_hello :
    base64Encode #v[0,0,0] (base64Decode #v[0,0,0,0] ("aGVsbG8=".toList.map byte)) =
      "aGVsbG8=".toList.map byte :=
  (reencode_iff #v[0,0,0] #v[0,0,0,0] ("aGVsbG8=".toList.map byte) (by decide)).mpr
    ⟨by decide +kernel,by decide +kernel,by decide +kernel⟩

/-- Encodings of two parts can be put together exactly when the first part has
no padding or the second part is empty. -/
theorem encode_append_iff (uninit uninit' uninit'' : Vector UInt8 3) (as bs : Bytes) :
    base64Encode uninit (as++bs) = base64Encode uninit' as++base64Encode uninit'' bs ↔
      3 ∣ as.length ∨ bs = [] := by
  rw [encode_encoded, encode_encoded, encode_encoded]
  constructor
  · intro h
    by_contra hnot
    obtain ⟨hthree,hbs⟩ := not_or.mp hnot
    have hleft := encoded_digits (as++bs) [] (by simp)
    have hright := encoded_digits as (encoded bs) (by omega)
    rw [List.append_nil, h, hright] at hleft
    have hlength := congrArg List.length hleft
    have hpos := List.length_pos_iff.mpr hbs
    simp only [gather_length, padded, List.length_append, spread_length, numbers,
      List.length_map, List.length_replicate, padding] at hlength
    omega
  · rintro (h | rfl)
    · have hfull : padding as.length = 0 := by
        rw [padding]
        omega
      have hbits : padded as = spread 8 (numbers as) := by simp [padded, hfull]
      have hsix := padded_fills as
      rw [hbits] at hsix
      rw [encoded, encoded, encoded, padded_group as bs h, padding_group as bs h,
        gather_append 6 _ _ (by omega) hsix, hbits, hfull]
      simp
    · simp [encoded, padded, padding, numbers]

end Grandma.Transcoding

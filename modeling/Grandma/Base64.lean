import Grandma.Regrouping

/-!
# Base64

The encoder and the decoder of the client. Here a string is a list of bytes,
since both compute with them. Both work on small arrays that are not
initialised and that keep what earlier rounds have left in them; `uninit` is
what the memory holds at first.
-/

set_option autoImplicit false

namespace Grandma.Base64

abbrev Bytes := List UInt8

def byte (c : Char) : UInt8 := UInt8.ofNat c.toNat

def base64Chars : Bytes :=
  "ABCDEFGHIJKLMNOPQRSTUVWXYZabcdefghijklmnopqrstuvwxyz0123456789+/".toList.map byte

/-- `isalnum` in the locale that every program starts with. -/
def isalnum (c : UInt8) : Bool :=
  (byte 'A' ≤ c && c ≤ byte 'Z') || (byte 'a' ≤ c && c ≤ byte 'z') ||
    (byte '0' ≤ c && c ≤ byte '9')

def isBase64 (c : UInt8) : Bool := isalnum c || c = byte '+' || c = byte '/'

def base64Char (n : UInt8) : UInt8 := base64Chars.getD n.toNat 0

/-- `base64_chars.find(c)` as an `unsigned char`. -/
def position (c : UInt8) : UInt8 :=
  match base64Chars.idxOf? c with
  | some n => UInt8.ofNat n
  | none => 255

def charArray4 (a : Vector UInt8 3) : Vector UInt8 4 :=
  #v[(a[0] &&& 0xfc) >>> 2,((a[0] &&& 0x03) <<< 4)+((a[1] &&& 0xf0) >>> 4),
    ((a[1] &&& 0x0f) <<< 2)+((a[2] &&& 0xc0) >>> 6),a[2] &&& 0x3f]

def charArray3 (a : Vector UInt8 4) : Vector UInt8 3 :=
  #v[(a[0] <<< 2)+((a[1] &&& 0x30) >>> 4),((a[1] &&& 0xf) <<< 4)+((a[2] &&& 0x3c) >>> 2),
    ((a[2] &&& 0x3) <<< 6)+a[3]]

/-- What the loop of `base64_encode` carries from byte to byte. -/
structure Encoder where
  i : ℕ
  array : Vector UInt8 3
  ret : Bytes

def encodeByte (s : Encoder) (b : UInt8) : Encoder :=
  let a := s.array.setIfInBounds s.i b
  if s.i+1 = 3 then { i := 0, array := a, ret := s.ret++(charArray4 a).toList.map base64Char }
  else { i := s.i+1, array := a, ret := s.ret }

/-- Behind the loop. Where there are bytes left, the rest of the array is zeroed. -/
def encodeRest (s : Encoder) : Bytes :=
  if s.i = 0 then s.ret
  else
    let a := s.array.mapIdx (fun j b => if j < s.i then b else 0)
    s.ret++((charArray4 a).toList.take (s.i+1)).map base64Char++List.replicate (3-s.i) (byte '=')

def base64Encode (uninit : Vector UInt8 3) (bytesToEncode : Bytes) : Bytes :=
  encodeRest (bytesToEncode.foldl encodeByte { i := 0, array := uninit, ret := [] })

structure Decoder where
  i : ℕ
  array : Vector UInt8 4
  ret : Bytes

def decodeByte (s : Decoder) (c : UInt8) : Decoder :=
  let a := s.array.setIfInBounds s.i c
  if s.i+1 = 4 then
    let a := a.map position
    { i := 0, array := a, ret := s.ret++(charArray3 a).toList }
  else { i := s.i+1, array := a, ret := s.ret }

/-- The loop of `base64_decode`. Behind the last character there is a null,
which is not in the alphabet. -/
def decodeLoop : ℤ → Bytes → Decoder → Decoder
  | _, [], s => s
  | inLen, c::cs, s =>
    if inLen ≠ 0 ∧ c ≠ byte '=' ∧ isBase64 c then decodeLoop (inLen-1) cs (decodeByte s c) else s

def decodeRest (s : Decoder) : Bytes :=
  if s.i = 0 then s.ret
  else
    let a := s.array.mapIdx (fun j c => if j < s.i then position c else c)
    s.ret++(charArray3 a).toList.take (s.i-1)

/-- The size is converted to an `int`. -/
def base64Decode (uninit : Vector UInt8 4) (encodedString : Bytes) : Bytes :=
  let inLen := (encodedString.length : ℤ).bmod 4294967296
  decodeRest (decodeLoop inLen encodedString { i := 0, array := uninit, ret := [] })

example : base64Encode #v[9,9,9] ("Man".toList.map byte) = "TWFu".toList.map byte := by decide

example : base64Decode #v[1,2,3,4] ("TWFuTQ==".toList.map byte) = "ManM".toList.map byte := by
  decide +kernel

end Grandma.Base64

import PathGuard.Lib.Bytes
import Mathlib.Logic.Function.Iterate

/-!
# SHA-256

The digest of a byte string, as eight words written in hexadecimal digits. What is proved of it is only which characters
it is written in.
-/

namespace PathGuard.Sha256

def roundConstants : List UInt32 :=
  [0x428a2f98, 0x71374491, 0xb5c0fbcf, 0xe9b5dba5, 0x3956c25b, 0x59f111f1, 0x923f82a4, 0xab1c5ed5,
    0xd807aa98, 0x12835b01, 0x243185be, 0x550c7dc3, 0x72be5d74, 0x80deb1fe, 0x9bdc06a7, 0xc19bf174,
    0xe49b69c1, 0xefbe4786, 0x0fc19dc6, 0x240ca1cc, 0x2de92c6f, 0x4a7484aa, 0x5cb0a9dc, 0x76f988da,
    0x983e5152, 0xa831c66d, 0xb00327c8, 0xbf597fc7, 0xc6e00bf3, 0xd5a79147, 0x06ca6351, 0x14292967,
    0x27b70a85, 0x2e1b2138, 0x4d2c6dfc, 0x53380d13, 0x650a7354, 0x766a0abb, 0x81c2c92e, 0x92722c85,
    0xa2bfe8a1, 0xa81a664b, 0xc24b8b70, 0xc76c51a3, 0xd192e819, 0xd6990624, 0xf40e3585, 0x106aa070,
    0x19a4c116, 0x1e376c08, 0x2748774c, 0x34b0bcb5, 0x391c0cb3, 0x4ed8aa4a, 0x5b9cca4f, 0x682e6ff3,
    0x748f82ee, 0x78a5636f, 0x84c87814, 0x8cc70208, 0x90befffa, 0xa4506ceb, 0xbef9a3f7, 0xc67178f2]

structure Words where
  a : UInt32
  b : UInt32
  c : UInt32
  d : UInt32
  e : UInt32
  f : UInt32
  g : UInt32
  h : UInt32

namespace Words

def initial : Words :=
  ⟨0x6a09e667, 0xbb67ae85, 0x3c6ef372, 0xa54ff53a, 0x510e527f, 0x9b05688c, 0x1f83d9ab, 0x5be0cd19⟩

def add (s t : Words) : Words :=
  ⟨s.a + t.a, s.b + t.b, s.c + t.c, s.d + t.d, s.e + t.e, s.f + t.f, s.g + t.g, s.h + t.h⟩

def toList (s : Words) : List UInt32 := [s.a, s.b, s.c, s.d, s.e, s.f, s.g, s.h]

end Words

def rotateRight (value bits : UInt32) : UInt32 := value >>> bits ||| value <<< (32 - bits)

/-- The message, a one bit, zeros, and the number of bits of the message in eight bytes, the highest first. -/
def padded (input : Bytes) : Bytes :=
  input ++ 0x80 :: List.replicate ((119 - input.length % 64) % 64) 0 ++
    (List.range 8).map fun index => UInt8.ofNat (input.length * 8 / 256 ^ (7 - index))

/-- Four bytes, the highest first. -/
def word (block : Bytes) (index : Nat) : UInt32 :=
  ((block.drop (4 * index)).take 4).foldl (fun value byte => value <<< 8 ||| byte.toUInt32) 0

def nextWord (words : Array UInt32) : Array UInt32 :=
  let back (distance : Nat) : UInt32 := words.getD (words.size - distance) 0
  let s0 := rotateRight (back 15) 7 ^^^ rotateRight (back 15) 18 ^^^ back 15 >>> 3
  let s1 := rotateRight (back 2) 17 ^^^ rotateRight (back 2) 19 ^^^ back 2 >>> 10
  words.push (back 16 + s0 + back 7 + s1)

def schedule (block : Bytes) : List UInt32 :=
  (nextWord^[48] ((List.range 16).map (word block)).toArray).toList

def round (s : Words) (input : UInt32 × UInt32) : Words :=
  let sigma1 := rotateRight s.e 6 ^^^ rotateRight s.e 11 ^^^ rotateRight s.e 25
  let choose := s.e &&& s.f ^^^ ~~~s.e &&& s.g
  let temp1 := s.h + sigma1 + choose + input.1 + input.2
  let sigma0 := rotateRight s.a 2 ^^^ rotateRight s.a 13 ^^^ rotateRight s.a 22
  let majority := s.a &&& s.b ^^^ s.a &&& s.c ^^^ s.b &&& s.c
  let temp2 := sigma0 + majority
  ⟨temp1 + temp2, s.a, s.b, s.c, s.d + temp1, s.e, s.f, s.g⟩

def compress (hash : Words) (block : Bytes) : Words :=
  hash.add ((roundConstants.zip (schedule block)).foldl round hash)

def digestWords (input : Bytes) : Words :=
  (List.range ((padded input).length / 64)).foldl
    (fun hash index => compress hash (((padded input).drop (64 * index)).take 64)) .initial

def hexDigits : Bytes := ascii "0123456789abcdef"

def hexDigit (value : Nat) : UInt8 := hexDigits.getD (value % 16) 0x30

/-- `std::hex` of a word, filled with zeros to eight digits. -/
def hexWord (value : UInt32) : Bytes := (List.range 8).map fun index => hexDigit (value.toNat / 16 ^ (7 - index))

def hex (input : Bytes) : Bytes := (digestWords input).toList.flatMap hexWord

theorem hexDigit_mem (value : Nat) : hexDigit value ∈ hexDigits := by
  have hlt : value % 16 < hexDigits.length := Nat.mod_lt value (by decide)
  rw [hexDigit, List.getD_eq_getElem?_getD, List.getElem?_eq_getElem hlt, Option.getD_some]
  exact List.getElem_mem hlt

theorem mem_hexDigits_of_mem_hex {input : Bytes} {byte : UInt8} (h : byte ∈ hex input) : byte ∈ hexDigits := by
  simp only [hex, hexWord, List.mem_flatMap, List.mem_map] at h
  obtain ⟨word, -, index, -, rfl⟩ := h
  exact hexDigit_mem _

end PathGuard.Sha256

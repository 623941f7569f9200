-- SHA-256 (`crypto/sha256.cpp`) on whole messages, and the double hash of the
-- node.
import Junkcoin.Primitives

namespace junkcoin

namespace sha256

def K : List UInt32 := [
  0x428a2f98, 0x71374491, 0xb5c0fbcf, 0xe9b5dba5, 0x3956c25b, 0x59f111f1, 0x923f82a4, 0xab1c5ed5,
  0xd807aa98, 0x12835b01, 0x243185be, 0x550c7dc3, 0x72be5d74, 0x80deb1fe, 0x9bdc06a7, 0xc19bf174,
  0xe49b69c1, 0xefbe4786, 0x0fc19dc6, 0x240ca1cc, 0x2de92c6f, 0x4a7484aa, 0x5cb0a9dc, 0x76f988da,
  0x983e5152, 0xa831c66d, 0xb00327c8, 0xbf597fc7, 0xc6e00bf3, 0xd5a79147, 0x06ca6351, 0x14292967,
  0x27b70a85, 0x2e1b2138, 0x4d2c6dfc, 0x53380d13, 0x650a7354, 0x766a0abb, 0x81c2c92e, 0x92722c85,
  0xa2bfe8a1, 0xa81a664b, 0xc24b8b70, 0xc76c51a3, 0xd192e819, 0xd6990624, 0xf40e3585, 0x106aa070,
  0x19a4c116, 0x1e376c08, 0x2748774c, 0x34b0bcb5, 0x391c0cb3, 0x4ed8aa4a, 0x5b9cca4f, 0x682e6ff3,
  0x748f82ee, 0x78a5636f, 0x84c87814, 0x8cc70208, 0x90befffa, 0xa4506ceb, 0xbef9a3f7, 0xc67178f2]

def Ch (x y z : UInt32) : UInt32 := z ^^^ (x &&& (y ^^^ z))

def Maj (x y z : UInt32) : UInt32 := (x &&& y) ||| (z &&& (x ||| y))

def Sigma0 (x : UInt32) : UInt32 :=
  (x >>> 2 ||| x <<< 30) ^^^ (x >>> 13 ||| x <<< 19) ^^^ (x >>> 22 ||| x <<< 10)

def Sigma1 (x : UInt32) : UInt32 :=
  (x >>> 6 ||| x <<< 26) ^^^ (x >>> 11 ||| x <<< 21) ^^^ (x >>> 25 ||| x <<< 7)

def sigma0 (x : UInt32) : UInt32 := (x >>> 7 ||| x <<< 25) ^^^ (x >>> 18 ||| x <<< 14) ^^^ (x >>> 3)

def sigma1 (x : UInt32) : UInt32 :=
  (x >>> 17 ||| x <<< 15) ^^^ (x >>> 19 ||| x <<< 13) ^^^ (x >>> 10)

/-- The eight words of the state. -/
structure State where
  a : UInt32
  b : UInt32
  c : UInt32
  d : UInt32
  e : UInt32
  f : UInt32
  g : UInt32
  h : UInt32

/-- `Initialize`. -/
def init : State :=
  ⟨0x6a09e667, 0xbb67ae85, 0x3c6ef372, 0xa54ff53a, 0x510e527f, 0x9b05688c, 0x1f83d9ab, 0x5be0cd19⟩

/-- One round. The names of the words move on by one, as in the calls of
`Round`. -/
def round (s : State) (k w : UInt32) : State :=
  let t1 := s.h + Sigma1 s.e + Ch s.e s.f s.g + k + w
  let t2 := Sigma0 s.a + Maj s.a s.b s.c
  ⟨t1 + t2, s.a, s.b, s.c, s.d + t1, s.e, s.f, s.g⟩

/-- The rounds for the remaining constants. The sixteen words of the message
that are alive move on by one, with the next word at their end. -/
def rounds : List UInt32 → State → List UInt32 → State
  | k :: ks, s, w0 :: ws =>
    let next := w0 + sigma0 (ws.getD 0 0) + ws.getD 8 0 + sigma1 (ws.getD 13 0)
    rounds ks (round s k w0) (ws ++ [next])
  | _, s, _ => s

/-- `ReadBE32`, over a chunk. -/
def words : List UInt8 → List UInt32
  | b0 :: b1 :: b2 :: b3 :: rest =>
    (b0.toUInt32 <<< 24 ||| b1.toUInt32 <<< 16 ||| b2.toUInt32 <<< 8 ||| b3.toUInt32) :: words rest
  | _ => []

/-- `Transform`. -/
def transform (s : State) (chunk : List UInt8) : State :=
  let t := rounds K s (words chunk)
  ⟨s.a + t.a, s.b + t.b, s.c + t.c, s.d + t.d, s.e + t.e, s.f + t.f, s.g + t.g, s.h + t.h⟩

/-- The chunks of 64 bytes. -/
def transformAll : (chunks : Nat) → State → List UInt8 → State
  | 0, s, _ => s
  | n + 1, s, data => transformAll n (transform s (data.take 64)) (data.drop 64)

/-- The message with the padding and the size that `Finalize` writes. -/
def padded (data : List UInt8) : List UInt8 :=
  data ++ 0x80 :: (List.replicate ((119 - data.length % 64) % 64) 0 ++
    (Bytes.le 8 (data.length * 8)).reverse)

/-- `WriteBE32`. -/
def writeBE32 (x : UInt32) : List UInt8 := (Bytes.le 4 x.toNat).reverse

end sha256

open sha256 in
/-- The hash of a message. -/
def sha256Hash (data : List UInt8) : List UInt8 :=
  let s := transformAll ((padded data).length / 64) init (padded data)
  ([s.a, s.b, s.c, s.d, s.e, s.f, s.g, s.h].map writeBE32).flatten

/-- `Hash`: the hash of the hash, as the number that its bytes are. -/
def sha256dHash (data : List UInt8) : Uint256 :=
  BitVec.ofNat 256 (Bytes.ofLe (sha256Hash (sha256Hash data)))

example : sha256Hash [0x61, 0x62, 0x63] = (Bytes.le 32
    0xba7816bf8f01cfea414140de5dae2223b00361a396177a9cb410ff61f20015ad).reverse := by
  decide +kernel

end junkcoin

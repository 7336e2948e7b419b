import TypedCells.Bits

/-!
# The hash function SHA-256

A message of bytes is padded to blocks of 64 and each block is mixed into a state of eight words
(`State.mix`); the digest is the last state, read as 32 bytes with the most significant first.
-/

namespace TypedCells.Sha256

/-- The eight words that are mixed. -/
structure State where
  a : UInt32
  b : UInt32
  c : UInt32
  d : UInt32
  e : UInt32
  f : UInt32
  g : UInt32
  h : UInt32
deriving DecidableEq, Repr

/-- The state before the first block: fractions of the square roots of the first eight primes. -/
def State.start : State where
  a := 0x6a09e667
  b := 0xbb67ae85
  c := 0x3c6ef372
  d := 0xa54ff53a
  e := 0x510e527f
  f := 0x9b05688c
  g := 0x1f83d9ab
  h := 0x5be0cd19

/-- The constants of the 64 rounds: fractions of the cube roots of the first 64 primes. -/
def roundConstants : List UInt32 :=
  [0x428a2f98, 0x71374491, 0xb5c0fbcf, 0xe9b5dba5, 0x3956c25b, 0x59f111f1, 0x923f82a4, 0xab1c5ed5,
   0xd807aa98, 0x12835b01, 0x243185be, 0x550c7dc3, 0x72be5d74, 0x80deb1fe, 0x9bdc06a7, 0xc19bf174,
   0xe49b69c1, 0xefbe4786, 0x0fc19dc6, 0x240ca1cc, 0x2de92c6f, 0x4a7484aa, 0x5cb0a9dc, 0x76f988da,
   0x983e5152, 0xa831c66d, 0xb00327c8, 0xbf597fc7, 0xc6e00bf3, 0xd5a79147, 0x06ca6351, 0x14292967,
   0x27b70a85, 0x2e1b2138, 0x4d2c6dfc, 0x53380d13, 0x650a7354, 0x766a0abb, 0x81c2c92e, 0x92722c85,
   0xa2bfe8a1, 0xa81a664b, 0xc24b8b70, 0xc76c51a3, 0xd192e819, 0xd6990624, 0xf40e3585, 0x106aa070,
   0x19a4c116, 0x1e376c08, 0x2748774c, 0x34b0bcb5, 0x391c0cb3, 0x4ed8aa4a, 0x5b9cca4f, 0x682e6ff3,
   0x748f82ee, 0x78a5636f, 0x84c87814, 0x8cc70208, 0x90befffa, 0xa4506ceb, 0xbef9a3f7, 0xc67178f2]

/-- Rotation to the right by fewer than 32 bits. -/
def rotate (n : UInt32) (x : UInt32) : UInt32 := (x >>> n) ||| (x <<< (32 - n))

/-- One round with the sum `kw` of its constant and its word. -/
def State.round (s : State) (kw : UInt32) : State :=
  let choice := (s.e &&& s.f) ^^^ (~~~s.e &&& s.g)
  let majority := (s.a &&& s.b) ^^^ (s.a &&& s.c) ^^^ (s.b &&& s.c)
  let t := s.h + (rotate 6 s.e ^^^ rotate 11 s.e ^^^ rotate 25 s.e) + choice + kw
  let u := (rotate 2 s.a ^^^ rotate 13 s.a ^^^ rotate 22 s.a) + majority
  { a := t + u, b := s.a, c := s.b, d := s.c, e := s.d + t, f := s.e, g := s.f, h := s.g }

/-- The next `n` words of the schedule, of which the last 16 so far are given, the oldest first. -/
def schedule : (n : Nat) → List UInt32 → List UInt32
  | 0, _ => []
  | n + 1, window =>
    let x := window.getD 1 0
    let y := window.getD 14 0
    let w := window.getD 0 0 + (rotate 7 x ^^^ rotate 18 x ^^^ (x >>> 3))
      + window.getD 9 0 + (rotate 17 y ^^^ rotate 19 y ^^^ (y >>> 10))
    w :: schedule n (window.tail ++ [w])

/-- Mixes a block of 16 words into the state. -/
def State.mix (s : State) (block : List UInt32) : State :=
  let words := block ++ schedule 48 block
  let t := (List.zipWith (· + ·) roundConstants words).foldl round s
  { a := s.a + t.a, b := s.b + t.b, c := s.c + t.c, d := s.d + t.d
    e := s.e + t.e, f := s.f + t.f, g := s.g + t.g, h := s.h + t.h }

/-- The message with a one bit, zeros up to eight bytes short of a block, and its length in bits. -/
def pad (message : List UInt8) : List UInt8 :=
  let n := message.length
  let length := (List.range 8).reverse.map fun i => UInt8.ofNat (8 * n / twoPow (8 * i))
  message ++ 0x80 :: List.replicate ((55 + 64 - n % 64) % 64) 0 ++ length

/-- The words of a string of bytes, the most significant byte first. -/
def words : List UInt8 → List UInt32
  | a :: b :: c :: d :: bytes =>
    (a.toUInt32 <<< 24 ||| b.toUInt32 <<< 16 ||| c.toUInt32 <<< 8 ||| d.toUInt32) :: words bytes
  | _ => []

/-- The first `n` blocks of 16 words. -/
def blocks : (n : Nat) → List UInt32 → List (List UInt32)
  | 0, _ => []
  | n + 1, ws => ws.take 16 :: blocks n (ws.drop 16)

/-- The state after the whole message. -/
def hash (message : List UInt8) : State :=
  let ws := words (pad message)
  (blocks (ws.length / 16) ws).foldl .mix .start

end TypedCells.Sha256

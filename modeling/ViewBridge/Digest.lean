import ViewBridge.Text.Basic
/-!
# Digests

SHA-256 of a text's UTF-8 bytes, in hexadecimal. Two texts with one digest are taken for the same text by
the cache of translated text.

Results:
* `padding_length`: padding fills the message up to whole blocks of 64 bytes.
-/
namespace ViewBridge.Digest

/-- The words that each round adds: the first bits of the cube roots of the first 64 primes. -/
def roundWords : List UInt32 := [
  0x428a2f98, 0x71374491, 0xb5c0fbcf, 0xe9b5dba5, 0x3956c25b, 0x59f111f1, 0x923f82a4, 0xab1c5ed5,
  0xd807aa98, 0x12835b01, 0x243185be, 0x550c7dc3, 0x72be5d74, 0x80deb1fe, 0x9bdc06a7, 0xc19bf174,
  0xe49b69c1, 0xefbe4786, 0x0fc19dc6, 0x240ca1cc, 0x2de92c6f, 0x4a7484aa, 0x5cb0a9dc, 0x76f988da,
  0x983e5152, 0xa831c66d, 0xb00327c8, 0xbf597fc7, 0xc6e00bf3, 0xd5a79147, 0x06ca6351, 0x14292967,
  0x27b70a85, 0x2e1b2138, 0x4d2c6dfc, 0x53380d13, 0x650a7354, 0x766a0abb, 0x81c2c92e, 0x92722c85,
  0xa2bfe8a1, 0xa81a664b, 0xc24b8b70, 0xc76c51a3, 0xd192e819, 0xd6990624, 0xf40e3585, 0x106aa070,
  0x19a4c116, 0x1e376c08, 0x2748774c, 0x34b0bcb5, 0x391c0cb3, 0x4ed8aa4a, 0x5b9cca4f, 0x682e6ff3,
  0x748f82ee, 0x78a5636f, 0x84c87814, 0x8cc70208, 0x90befffa, 0xa4506ceb, 0xbef9a3f7, 0xc67178f2]

/-- The eight working words. -/
structure State where
  a : UInt32
  b : UInt32
  c : UInt32
  d : UInt32
  e : UInt32
  f : UInt32
  g : UInt32
  h : UInt32
deriving DecidableEq, Repr

/-- The words before the first block: the first bits of the square roots of the first eight primes. -/
def State.start : State :=
  ⟨0x6a09e667, 0xbb67ae85, 0x3c6ef372, 0xa54ff53a, 0x510e527f, 0x9b05688c, 0x1f83d9ab, 0x5be0cd19⟩

/-- Rotation to the right. -/
def rotate (x : UInt32) (n : UInt32) : UInt32 := (x >>> n) ||| (x <<< (32 - n))

/-- One round, with its message word and its constant. -/
def State.round (s : State) (word constant : UInt32) : State :=
  let s1 := rotate s.e 6 ^^^ rotate s.e 11 ^^^ rotate s.e 25
  let choice := (s.e &&& s.f) ^^^ (~~~ s.e &&& s.g)
  let t1 := s.h + s1 + choice + constant + word
  let s0 := rotate s.a 2 ^^^ rotate s.a 13 ^^^ rotate s.a 22
  let majority := (s.a &&& s.b) ^^^ (s.a &&& s.c) ^^^ (s.b &&& s.c)
  ⟨t1 + (s0 + majority), s.a, s.b, s.c, s.d + t1, s.e, s.f, s.g⟩

/-- All rounds of a block. The last sixteen message words make the next one. -/
def State.rounds : State → (window : List UInt32) → (constants : List UInt32) → State
  | s, w :: ws, k :: ks =>
    let x := ws.getD 0 0
    let y := ws.getD 13 0
    let sigma0 := rotate x 7 ^^^ rotate x 18 ^^^ (x >>> 3)
    let sigma1 := rotate y 17 ^^^ rotate y 19 ^^^ (y >>> 10)
    State.rounds (s.round w k) (ws ++ [w + sigma0 + ws.getD 8 0 + sigma1]) ks
  | s, _, _ => s

/-- The working words after a block of sixteen words. -/
def State.absorb (s : State) (block : List UInt32) : State :=
  let r := s.rounds block roundWords
  ⟨s.a + r.a, s.b + r.b, s.c + r.c, s.d + r.d, s.e + r.e, s.f + r.f, s.g + r.g, s.h + r.h⟩

/-- A number as bytes, the highest first. -/
def bigEndian : (bytes : Nat) → Nat → List UInt8
  | 0, _ => []
  | n + 1, x => UInt8.ofNat (x / Nat.pow 256 n) :: bigEndian n x

/-- What follows a message of `n` bytes: a set bit, zeros, and the message's length in bits. -/
def padding (n : Nat) : List UInt8 :=
  0x80 :: List.replicate ((119 - n % 64) % 64) 0 ++ bigEndian 8 (8 * n)

theorem bigEndian_length (n x : Nat) : (bigEndian n x).length = n := by
  induction n with
  | zero => rfl
  | succ n ih => simp [bigEndian, ih]

theorem padding_length (n : Nat) : (n + (padding n).length) % 64 = 0 := by
  simp only [padding, List.cons_append, List.length_cons, List.length_append, List.length_replicate,
    bigEndian_length]
  omega

/-- Bytes as words, four at a time. -/
def words : List UInt8 → List UInt32
  | a :: b :: c :: d :: rest =>
    ((a.toUInt32 <<< 24) ||| (b.toUInt32 <<< 16) ||| (c.toUInt32 <<< 8) ||| d.toUInt32) :: words rest
  | _ => []

/-- Absorb blocks of sixteen words, `blocks` of them. -/
def absorbAll : (blocks : Nat) → State → List UInt32 → State
  | 0, s, _ => s
  | n + 1, s, ws => absorbAll n (s.absorb (ws.take 16)) (ws.drop 16)

/-- A word in hexadecimal. -/
def hexWord (x : UInt32) : Chars := Text.padLeft '0' 8 (Nat.toDigits 16 x.toNat)

/-- The digest of bytes. -/
def ofBytes (bytes : List UInt8) : Chars :=
  let ws := words (bytes ++ padding bytes.length)
  let s := absorbAll (ws.length / 16) State.start ws
  [s.a, s.b, s.c, s.d, s.e, s.f, s.g, s.h].flatMap hexWord

/-- The digest of a text. -/
def ofText (s : Chars) : Chars := ofBytes (Text.utf8 s)

end ViewBridge.Digest

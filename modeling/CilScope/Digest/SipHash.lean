/-!
# SipHash-1-3

A keyed digest of a byte string with 64 bits: one round per word of the input and three rounds at
the end. The key is zero. Words are read least significant byte first, and the last word carries
the length of the input in its highest byte.
-/

namespace CilScope.Digest

/-- The four words a digest works on. -/
structure SipState where
  v₀ : UInt64 := 0x736f6d6570736575
  v₁ : UInt64 := 0x646f72616e646f6d
  v₂ : UInt64 := 0x6c7967656e657261
  v₃ : UInt64 := 0x7465646279746573
  deriving DecidableEq, Repr, Inhabited

/-- A word with its bits moved `n` places to the left, around the end. -/
def rotate (w : UInt64) (n : UInt64) : UInt64 := (w <<< n) ||| (w >>> (64 - n))

namespace SipState

/-- One round. -/
def round (s : SipState) : SipState :=
  let v₀ := s.v₀ + s.v₁
  let v₁ := rotate s.v₁ 13 ^^^ v₀
  let v₀ := rotate v₀ 32
  let v₂ := s.v₂ + s.v₃
  let v₃ := rotate s.v₃ 16 ^^^ v₂
  let v₀ := v₀ + v₃
  let v₃ := rotate v₃ 21 ^^^ v₀
  let v₂ := v₂ + v₁
  let v₁ := rotate v₁ 17 ^^^ v₂
  let v₂ := rotate v₂ 32
  { v₀, v₁, v₂, v₃ }

/-- Takes in a word. -/
def absorb (s : SipState) (w : UInt64) : SipState :=
  let s := round { s with v₃ := s.v₃ ^^^ w }
  { s with v₀ := s.v₀ ^^^ w }

/-- The digest at the end of the input. -/
def finish (s : SipState) : UInt64 :=
  let s := round (round (round { s with v₂ := s.v₂ ^^^ 0xff }))
  s.v₀ ^^^ s.v₁ ^^^ s.v₂ ^^^ s.v₃

end SipState

/-- The number with these bytes, least significant first. -/
def word (bytes : List UInt8) : Nat := bytes.foldr (fun b n => b.toNat + 0x100 * n) 0

/-- Takes in the words of a byte string of which `total` bytes make up the whole. -/
def absorbAll (total : Nat) (s : SipState) : List UInt8 → SipState
  | b₀ :: b₁ :: b₂ :: b₃ :: b₄ :: b₅ :: b₆ :: b₇ :: rest =>
    absorbAll total (s.absorb (UInt64.ofNat (word [b₀, b₁, b₂, b₃, b₄, b₅, b₆, b₇]))) rest
  | tail => s.absorb (UInt64.ofNat (word tail + total % 0x100 * 0x100000000000000))

/-- The digest of a byte string. -/
def sipHash (bytes : List UInt8) : UInt64 := (absorbAll bytes.length {} bytes).finish

/-- The eight bytes of a word, least significant first. -/
def wordBytes (w : UInt64) : List UInt8 :=
  (List.range 8).map fun i => (w >>> UInt64.ofNat (8 * i)).toUInt8

end CilScope.Digest

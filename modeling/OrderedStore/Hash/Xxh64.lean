import OrderedStore.Bytes

/-! # The hash XXH64

XXH64 with seed zero: four lanes take in stripes of 32 bytes, then the rest is mixed in by words,
half words and bytes, and a final mix spreads every bit. Arithmetic wraps at 64 bits.
-/

namespace OrderedStore.Xxh64

def prime₁ : UInt64 := 0x9E3779B185EBCA87
def prime₂ : UInt64 := 0xC2B2AE3D27D4EB4F
def prime₃ : UInt64 := 0x165667B19E3779F9
def prime₄ : UInt64 := 0x85EBCA77C2B2AE63
def prime₅ : UInt64 := 0x27D4EB2F165667C5

def rotate (x : UInt64) (bits : UInt64) : UInt64 := (x <<< bits) ||| (x >>> (64 - bits))

/-- The number in all of the given bytes, least significant first. -/
def word : Bytes → UInt64
  | [] => 0
  | b :: rest => b.toUInt64 + (word rest <<< 8)

def round (lane input : UInt64) : UInt64 := rotate (lane + input * prime₂) 31 * prime₁

structure Lanes where
  a : UInt64
  b : UInt64
  c : UInt64
  d : UInt64

namespace Lanes

def start : Lanes := ⟨prime₁ + prime₂, prime₂, 0, 0 - prime₁⟩

/-- The lanes after a stripe of 32 bytes. -/
def take (l : Lanes) (stripe : Bytes) : Lanes where
  a := round l.a (word (stripe.take 8))
  b := round l.b (word ((stripe.drop 8).take 8))
  c := round l.c (word ((stripe.drop 16).take 8))
  d := round l.d (word ((stripe.drop 24).take 8))

def mergeLane (hash lane : UInt64) : UInt64 := (hash ^^^ round 0 lane) * prime₁ + prime₄

def merge (l : Lanes) : UInt64 :=
  let mixed := rotate l.a 1 + rotate l.b 7 + rotate l.c 12 + rotate l.d 18
  mergeLane (mergeLane (mergeLane (mergeLane mixed l.a) l.b) l.c) l.d

end Lanes

/-- The lanes after `count` stripes, and what is left. -/
def stripes : Nat → Lanes → Bytes → Lanes × Bytes
  | 0, l, src => (l, src)
  | count + 1, l, src => stripes count (l.take src) (src.drop 32)

def mixBytes (hash : UInt64) : Bytes → UInt64
  | [] => hash
  | b :: rest => mixBytes (rotate (hash ^^^ b.toUInt64 * prime₅) 11 * prime₁) rest

/-- Mixes in four bytes, if there are as many, then single ones. -/
def mixHalf (hash : UInt64) (src : Bytes) : UInt64 :=
  if 4 ≤ src.length then
    let mixed := rotate (hash ^^^ word (src.take 4) * prime₁) 23 * prime₂ + prime₃
    mixBytes mixed (src.drop 4)
  else mixBytes hash src

/-- Mixes in `count` words of eight bytes, then what is left. -/
def mixWords : Nat → UInt64 → Bytes → UInt64
  | 0, hash, src => mixHalf hash src
  | count + 1, hash, src =>
    let mixed := rotate (hash ^^^ round 0 (word (src.take 8))) 27 * prime₁ + prime₄
    mixWords count mixed (src.drop 8)

def avalanche (hash : UInt64) : UInt64 :=
  let hash := (hash ^^^ (hash >>> 33)) * prime₂
  let hash := (hash ^^^ (hash >>> 29)) * prime₃
  hash ^^^ (hash >>> 32)

def hash (src : Bytes) : UInt64 :=
  let size := src.length
  let (lanes, rest) := stripes (size / 32) .start src
  let start := if 32 ≤ size then lanes.merge else prime₅
  avalanche (mixWords (size % 32 / 8) (start + UInt64.ofNat size) rest)

end OrderedStore.Xxh64

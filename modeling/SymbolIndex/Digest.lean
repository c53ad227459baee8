/-!
# The XXH3 digest

The 64-bit XXH3 digest with seed zero and the default secret. It files documents and cache entries
into buckets, so its values are part of the stored format.

Short inputs are mixed by a formula for their length; inputs of more than 240 bytes go stripe by
stripe through eight accumulators.
-/

namespace SymbolIndex.Digest

def secret : ByteArray := ⟨#[
  0xb8, 0xfe, 0x6c, 0x39, 0x23, 0xa4, 0x4b, 0xbe, 0x7c, 0x01, 0x81, 0x2c, 0xf7, 0x21, 0xad, 0x1c,
  0xde, 0xd4, 0x6d, 0xe9, 0x83, 0x90, 0x97, 0xdb, 0x72, 0x40, 0xa4, 0xa4, 0xb7, 0xb3, 0x67, 0x1f,
  0xcb, 0x79, 0xe6, 0x4e, 0xcc, 0xc0, 0xe5, 0x78, 0x82, 0x5a, 0xd0, 0x7d, 0xcc, 0xff, 0x72, 0x21,
  0xb8, 0x08, 0x46, 0x74, 0xf7, 0x43, 0x24, 0x8e, 0xe0, 0x35, 0x90, 0xe6, 0x81, 0x3a, 0x26, 0x4c,
  0x3c, 0x28, 0x52, 0xbb, 0x91, 0xc3, 0x00, 0xcb, 0x88, 0xd0, 0x65, 0x8b, 0x1b, 0x53, 0x2e, 0xa3,
  0x71, 0x64, 0x48, 0x97, 0xa2, 0x0d, 0xf9, 0x4e, 0x38, 0x19, 0xef, 0x46, 0xa9, 0xde, 0xac, 0xd8,
  0xa8, 0xfa, 0x76, 0x3f, 0xe3, 0x9c, 0x34, 0x3f, 0xf9, 0xdc, 0xbb, 0xc7, 0xc7, 0x0b, 0x4f, 0x1d,
  0x8a, 0x51, 0xe0, 0x4b, 0xcd, 0xb4, 0x59, 0x31, 0xc8, 0x9f, 0x7e, 0xc9, 0xd9, 0x78, 0x73, 0x64,
  0xea, 0xc5, 0xac, 0x83, 0x34, 0xd3, 0xeb, 0xc3, 0xc5, 0x81, 0xa0, 0xff, 0xfa, 0x13, 0x63, 0xeb,
  0x17, 0x0d, 0xdd, 0x51, 0xb7, 0xf0, 0xda, 0x49, 0xd3, 0x16, 0x55, 0x26, 0x29, 0xd4, 0x68, 0x9e,
  0x2b, 0x16, 0xbe, 0x58, 0x7d, 0x47, 0xa1, 0xfc, 0x8f, 0xf8, 0xb8, 0xd1, 0x7a, 0xd0, 0x31, 0xce,
  0x45, 0xcb, 0x3a, 0x8f, 0x95, 0x16, 0x04, 0x28, 0xaf, 0xd7, 0xfb, 0xca, 0xbb, 0x4b, 0x40, 0x7e]⟩

def prime32A : UInt64 := 0x9e3779b1
def prime32B : UInt64 := 0x85ebca77
def prime32C : UInt64 := 0xc2b2ae3d
def primeA : UInt64 := 0x9e3779b185ebca87
def primeB : UInt64 := 0xc2b2ae3d27d4eb4f
def primeC : UInt64 := 0x165667b19e3779f9
def primeD : UInt64 := 0x85ebca77c2b2ae63
def primeE : UInt64 := 0x27d4eb2f165667c5
def mixerA : UInt64 := 0x165667919e3779f9
def mixerB : UInt64 := 0x9fb21c651e98df25

/-- The byte at a place, zero beyond the end. -/
def byteAt (bytes : ByteArray) (place : Nat) : UInt64 :=
  if h : place < bytes.size then bytes[place].toUInt64 else 0

/-- The little-endian word of `count` bytes at a place. -/
def wordAt (bytes : ByteArray) (place count : Nat) : UInt64 :=
  match count with
  | 0 => 0
  | count + 1 => (wordAt bytes (place + 1) count <<< 8) ||| byteAt bytes place

def read64 (bytes : ByteArray) (place : Nat) : UInt64 :=
  wordAt bytes place 8

def read32 (bytes : ByteArray) (place : Nat) : UInt64 :=
  wordAt bytes place 4

def rotateLeft (word : UInt64) (count : UInt64) : UInt64 :=
  (word <<< count) ||| (word >>> (64 - count))

/-- The word with its bytes in the other order. -/
def reverseBytes (word : UInt64) : UInt64 :=
  (List.range 8).foldl
    (fun swapped place => (swapped <<< 8) ||| ((word >>> (8 * place).toUInt64) &&& 0xff)) 0

/-- The two halves of the full product, combined. -/
def foldProduct (left right : UInt64) : UInt64 :=
  let product := left.toNat * right.toNat
  UInt64.ofNat product ^^^ UInt64.ofNat (product >>> 64)

def finishShort (word : UInt64) : UInt64 :=
  let word := (word ^^^ (word >>> 33)) * primeB
  let word := (word ^^^ (word >>> 29)) * primeC
  word ^^^ (word >>> 32)

def finish (word : UInt64) : UInt64 :=
  let word := (word ^^^ (word >>> 37)) * mixerA
  word ^^^ (word >>> 32)

/-- Mixes sixteen bytes of input with sixteen of the secret. -/
def mix (bytes : ByteArray) (place key : Nat) : UInt64 :=
  foldProduct (read64 bytes place ^^^ read64 secret key)
    (read64 bytes (place + 8) ^^^ read64 secret (key + 8))

def digestEmpty : UInt64 :=
  finishShort (read64 secret 56 ^^^ read64 secret 64)

def digestTo3 (bytes : ByteArray) : UInt64 :=
  let size := bytes.size
  let combined :=
    (byteAt bytes 0 <<< 16) ||| (byteAt bytes (size / 2) <<< 24) ||| byteAt bytes (size - 1) |||
      (size.toUInt64 <<< 8)
  finishShort (combined ^^^ (read32 secret 0 ^^^ read32 secret 4))

def digestTo8 (bytes : ByteArray) : UInt64 :=
  let size := bytes.size
  let input := read32 bytes (size - 4) + (read32 bytes 0 <<< 32)
  let word := input ^^^ (read64 secret 8 ^^^ read64 secret 16)
  let word := (word ^^^ rotateLeft word 49 ^^^ rotateLeft word 24) * mixerB
  let word := (word ^^^ ((word >>> 35) + size.toUInt64)) * mixerB
  word ^^^ (word >>> 28)

def digestTo16 (bytes : ByteArray) : UInt64 :=
  let size := bytes.size
  let low := read64 bytes 0 ^^^ (read64 secret 24 ^^^ read64 secret 32)
  let high := read64 bytes (size - 8) ^^^ (read64 secret 40 ^^^ read64 secret 48)
  finish (size.toUInt64 + reverseBytes low + high + foldProduct low high)

/-- Pairs of blocks are taken from both ends towards the middle. -/
def digestTo128 (bytes : ByteArray) : UInt64 :=
  let size := bytes.size
  let pairs := (size - 1) / 32 + 1
  finish ((List.range pairs).foldl
    (fun sum step =>
      sum + mix bytes (16 * step) (32 * step) +
        mix bytes (size - 16 * (step + 1)) (32 * step + 16))
    (size.toUInt64 * primeA))

def digestTo240 (bytes : ByteArray) : UInt64 :=
  let size := bytes.size
  let first := (List.range 8).foldl
    (fun sum step => sum + mix bytes (16 * step) (16 * step)) (size.toUInt64 * primeA)
  let later := (List.range (size / 16 - 8)).foldl
    (fun sum step => sum + mix bytes (16 * (step + 8)) (16 * step + 3)) (finish first)
  finish (later + mix bytes (size - 16) 119)

def laneStart : List UInt64 :=
  [prime32C, primeA, primeB, primeC, primeD, prime32B, primeE, prime32A]

/-- One accumulator after a stripe of 64 bytes: it takes the input of its neighbour, and the product
of the halves of its own input under the key. -/
def laneAfter (bytes : ByteArray) (place key index : Nat) (lane : UInt64) : UInt64 :=
  let neighbour := if index % 2 = 0 then index + 1 else index - 1
  let own : UInt64 := read64 bytes (place + 8 * index) ^^^ read64 secret (key + 8 * index)
  lane + read64 bytes (place + 8 * neighbour) +
    (own &&& (0xffffffff : UInt64)) * (own >>> 32)

def addStripe (bytes : ByteArray) (place key : Nat) (lanes : List UInt64) : List UInt64 :=
  lanes.mapIdx (laneAfter bytes place key)

def scrambledLane (index : Nat) (lane : UInt64) : UInt64 :=
  (lane ^^^ (lane >>> 47) ^^^ read64 secret (128 + 8 * index)) * prime32A

def scramble (lanes : List UInt64) : List UInt64 :=
  lanes.mapIdx scrambledLane

def addStripes (bytes : ByteArray) (start count : Nat) (lanes : List UInt64) : List UInt64 :=
  (List.range count).foldl
    (fun lanes step => addStripe bytes (start + 64 * step) (8 * step) lanes) lanes

def combineLanes (start : UInt64) (key : Nat) : List UInt64 → UInt64
  | left :: right :: rest =>
    combineLanes
      (start + foldProduct (left ^^^ read64 secret key) (right ^^^ read64 secret (key + 8)))
      (key + 16) rest
  | _ => start

def digestLong (bytes : ByteArray) : UInt64 :=
  let size := bytes.size
  let blocks := (size - 1) / 1024
  let lanes := (List.range blocks).foldl
    (fun lanes block => scramble (addStripes bytes (1024 * block) 16 lanes)) laneStart
  let lanes := addStripes bytes (1024 * blocks) ((size - 1 - 1024 * blocks) / 64) lanes
  let lanes := addStripe bytes (size - 64) 121 lanes
  finish (combineLanes (size.toUInt64 * primeA) 11 lanes)

/-- The digest of a sequence of bytes. -/
def ofBytes (bytes : ByteArray) : UInt64 :=
  let size := bytes.size
  if size = 0 then digestEmpty
  else if size ≤ 3 then digestTo3 bytes
  else if size ≤ 8 then digestTo8 bytes
  else if size ≤ 16 then digestTo16 bytes
  else if size ≤ 128 then digestTo128 bytes
  else if size ≤ 240 then digestTo240 bytes
  else digestLong bytes

/-- The digest of the UTF-8 form of a text. -/
def ofString (text : String) : UInt64 :=
  ofBytes text.toUTF8

end SymbolIndex.Digest

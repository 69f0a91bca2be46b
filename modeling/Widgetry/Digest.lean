/-!
# A seeded 64-bit digest of byte strings

Five length classes: up to 3, 8, 16, 128 and 240 bytes are mixed directly; longer strings go through
eight lanes that absorb stripes of 64 bytes and are scrambled after each block of 16 stripes.
-/

namespace Widgetry.Digest

def key : ByteArray :=
  ⟨#[0xb8, 0xfe, 0x6c, 0x39, 0x23, 0xa4, 0x4b, 0xbe, 0x7c, 0x01, 0x81, 0x2c, 0xf7, 0x21, 0xad, 0x1c,
    0xde, 0xd4, 0x6d, 0xe9, 0x83, 0x90, 0x97, 0xdb, 0x72, 0x40, 0xa4, 0xa4, 0xb7, 0xb3, 0x67, 0x1f,
    0xcb, 0x79, 0xe6, 0x4e, 0xcc, 0xc0, 0xe5, 0x78, 0x82, 0x5a, 0xd0, 0x7d, 0xcc, 0xff, 0x72, 0x21,
    0xb8, 0x08, 0x46, 0x74, 0xf7, 0x43, 0x24, 0x8e, 0xe0, 0x35, 0x90, 0xe6, 0x81, 0x3a, 0x26, 0x4c,
    0x3c, 0x28, 0x52, 0xbb, 0x91, 0xc3, 0x00, 0xcb, 0x88, 0xd0, 0x65, 0x8b, 0x1b, 0x53, 0x2e, 0xa3,
    0x71, 0x64, 0x48, 0x97, 0xa2, 0x0d, 0xf9, 0x4e, 0x38, 0x19, 0xef, 0x46, 0xa9, 0xde, 0xac, 0xd8,
    0xa8, 0xfa, 0x76, 0x3f, 0xe3, 0x9c, 0x34, 0x3f, 0xf9, 0xdc, 0xbb, 0xc7, 0xc7, 0x0b, 0x4f, 0x1d,
    0x8a, 0x51, 0xe0, 0x4b, 0xcd, 0xb4, 0x59, 0x31, 0xc8, 0x9f, 0x7e, 0xc9, 0xd9, 0x78, 0x73, 0x64,
    0xea, 0xc5, 0xac, 0x83, 0x34, 0xd3, 0xeb, 0xc3, 0xc5, 0x81, 0xa0, 0xff, 0xfa, 0x13, 0x63, 0xeb,
    0x17, 0x0d, 0xdd, 0x51, 0xb7, 0xf0, 0xda, 0x49, 0xd3, 0x16, 0x55, 0x26, 0x29, 0xd4, 0x68, 0x9e,
    0x2b, 0x16, 0xbe, 0x58, 0x7d, 0x47, 0xa1, 0xfc, 0x8f, 0xf8, 0xb8, 0xd1, 0x7a, 0xd0, 0x31, 0xce,
    0x45, 0xcb, 0x3a, 0x8f, 0x95, 0x16, 0x04, 0x28, 0xaf, 0xd7, 0xfb, 0xca, 0xbb, 0x4b, 0x40, 0x7e]⟩

def prime32a : UInt64 := 0x9E3779B1
def prime32b : UInt64 := 0x85EBCA77
def prime32c : UInt64 := 0xC2B2AE3D
def prime64a : UInt64 := 0x9E3779B185EBCA87
def prime64b : UInt64 := 0xC2B2AE3D27D4EB4F
def prime64c : UInt64 := 0x165667B19E3779F9
def prime64d : UInt64 := 0x85EBCA77C2B2AE63
def prime64e : UInt64 := 0x27D4EB2F165667C5
def primeMixA : UInt64 := 0x165667919E3779F9
def primeMixB : UInt64 := 0x9FB21C651E98DF25

/-- Byte at an index; zero beyond the end. -/
def byteAt (b : ByteArray) (i : Nat) : UInt64 :=
  if h : i < b.size then b[i].toUInt64 else 0

/-- `count` bytes from an index on, the first one lowest. -/
def littleEndian (b : ByteArray) (i : Nat) : Nat → UInt64
  | 0 => 0
  | count + 1 => byteAt b i ||| (littleEndian b (i + 1) count <<< 8)

def word32 (b : ByteArray) (i : Nat) : UInt64 := littleEndian b i 4

def word64 (b : ByteArray) (i : Nat) : UInt64 := littleEndian b i 8

def rotate (x k : UInt64) : UInt64 := (x <<< k) ||| (x >>> (64 - k))

def swapBytes (x : UInt64) : UInt64 :=
  (List.range 8).foldl (fun acc i => (acc <<< 8) ||| ((x >>> UInt64.ofNat (8 * i)) &&& 0xff)) 0

/-- Both halves of the 128-bit product, combined by exclusive or. -/
def foldProduct (x y : UInt64) : UInt64 :=
  let p := x.toNat * y.toNat
  UInt64.ofNat p ^^^ UInt64.ofNat (p >>> 64)

def finalizeShort (h : UInt64) : UInt64 :=
  let h := (h ^^^ (h >>> 33)) * prime64b
  let h := (h ^^^ (h >>> 29)) * prime64c
  h ^^^ (h >>> 32)

def finalize (h : UInt64) : UInt64 :=
  let h := (h ^^^ (h >>> 37)) * primeMixA
  h ^^^ (h >>> 32)

def finalizeStrong (h len : UInt64) : UInt64 :=
  let h := (h ^^^ rotate h 49 ^^^ rotate h 24) * primeMixB
  let h := (h ^^^ ((h >>> 35) + len)) * primeMixB
  h ^^^ (h >>> 28)

def upTo3 (seed : UInt64) (b : ByteArray) : UInt64 :=
  let n := b.size
  if n = 0 then finalizeShort (seed ^^^ word64 key 56 ^^^ word64 key 64)
  else
    let combined := (byteAt b 0 <<< 16) ||| (byteAt b (n / 2) <<< 24) ||| byteAt b (n - 1)
      ||| (UInt64.ofNat n <<< 8)
    finalizeShort (combined ^^^ ((word32 key 0 ^^^ word32 key 4) + seed))

def upTo8 (seed : UInt64) (b : ByteArray) : UInt64 :=
  let n := b.size
  let low := seed &&& 0xffffffff
  let seed := seed ^^^ (swapBytes low >>> 32 <<< 32)
  let joined := word32 b (n - 4) + (word32 b 0 <<< 32)
  finalizeStrong (joined ^^^ ((word64 key 8 ^^^ word64 key 16) - seed)) (UInt64.ofNat n)

def upTo16 (seed : UInt64) (b : ByteArray) : UInt64 :=
  let n := b.size
  let lo := word64 b 0 ^^^ ((word64 key 24 ^^^ word64 key 32) + seed)
  let hi := word64 b (n - 8) ^^^ ((word64 key 40 ^^^ word64 key 48) - seed)
  finalize (UInt64.ofNat n + swapBytes lo + hi + foldProduct lo hi)

/-- Sixteen bytes of the input mixed with sixteen of the key. -/
def mix16 (seed : UInt64) (b : ByteArray) (i k : Nat) : UInt64 :=
  foldProduct (word64 b i ^^^ (word64 key k + seed)) (word64 b (i + 8) ^^^ (word64 key (k + 8) - seed))

/-- Seventeen to 128 bytes: pairs of chunks from both ends. -/
def upTo128 (seed : UInt64) (b : ByteArray) : UInt64 :=
  let n := b.size
  let pairs := (n - 1) / 32 + 1
  let mixed := (List.range pairs).foldl (fun acc i =>
    acc + mix16 seed b (16 * i) (32 * i) + mix16 seed b (n - 16 * (i + 1)) (32 * i + 16)) 0
  finalize (UInt64.ofNat n * prime64a + mixed)

def upTo240 (seed : UInt64) (b : ByteArray) : UInt64 :=
  let n := b.size
  let first := (List.range 8).foldl (fun acc i => acc + mix16 seed b (16 * i) (16 * i))
    (UInt64.ofNat n * prime64a)
  let rest := (List.range (n / 16 - 8)).foldl
    (fun acc i => acc + mix16 seed b (16 * (i + 8)) (16 * i + 3)) (finalize first)
  finalize (rest + mix16 seed b (n - 16) (136 - 17))

def wordBytes (x : UInt64) : List UInt8 :=
  (List.range 8).map fun i => (x >>> UInt64.ofNat (8 * i)).toUInt8

def seededKey (seed : UInt64) : ByteArray :=
  ⟨((List.range 12).flatMap fun i =>
    wordBytes (word64 key (16 * i) + seed) ++ wordBytes (word64 key (16 * i + 8) - seed)).toArray⟩

abbrev Lanes := List UInt64

def startLanes : Lanes :=
  [prime32c, prime64a, prime64b, prime64c, prime64d, prime32b, prime64e, prime32a]

/-- Absorbs a stripe of 64 bytes; each lane also takes the input of its neighbour. -/
def absorb (secret b : ByteArray) (i k : Nat) (lanes : Lanes) : Lanes :=
  lanes.zipIdx.map fun (acc, lane) =>
    let own := word64 b (i + 8 * lane)
    let neighbour := word64 b (i + 8 * (lane ^^^ 1))
    let keyed := own ^^^ word64 secret (k + 8 * lane)
    acc + neighbour + (keyed &&& (0xffffffff : UInt64)) * (keyed >>> (32 : UInt64))

def scramble (secret : ByteArray) (lanes : Lanes) : Lanes :=
  lanes.zipIdx.map fun (acc, lane) =>
    (acc ^^^ (acc >>> 47) ^^^ word64 secret (128 + 8 * lane)) * prime32a

def absorbStripes (secret b : ByteArray) (i count : Nat) (lanes : Lanes) : Lanes :=
  (List.range count).foldl (fun acc s => absorb secret b (i + 64 * s) (8 * s) acc) lanes

def merge (secret : ByteArray) : Nat → Lanes → UInt64 → UInt64
  | k, x :: y :: rest, acc =>
      merge secret (k + 16) rest
        (acc + foldProduct (x ^^^ word64 secret k) (y ^^^ word64 secret (k + 8)))
  | _, _, acc => finalize acc

def long (seed : UInt64) (b : ByteArray) : UInt64 :=
  let n := b.size
  let secret := seededKey seed
  let blocks := (n - 1) / 1024
  let lanes := (List.range blocks).foldl
    (fun acc block => scramble secret (absorbStripes secret b (1024 * block) 16 acc)) startLanes
  let stripes := (n - 1 - 1024 * blocks) / 64
  let lanes := absorbStripes secret b (1024 * blocks) stripes lanes
  let lanes := absorb secret b (n - 64) 121 lanes
  merge secret 11 lanes (UInt64.ofNat n * prime64a)

def digest (seed : UInt64) (bytes : List UInt8) : UInt64 :=
  let b : ByteArray := ⟨bytes.toArray⟩
  let n := b.size
  if n ≤ 3 then upTo3 seed b
  else if n ≤ 8 then upTo8 seed b
  else if n ≤ 16 then upTo16 seed b
  else if n ≤ 128 then upTo128 seed b
  else if n ≤ 240 then upTo240 seed b
  else long seed b

end Widgetry.Digest

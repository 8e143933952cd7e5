import GuardedCalls.Text.Utf8

/-!
The 64-bit XXH3 digest of a text's UTF-8 bytes, with seed zero and the standard key bytes, written
as sixteen hexadecimal digits.
-/

namespace GuardedCalls.Fingerprint

/-- The standard key. -/
def keyBytes : Bytes :=
  [0xb8, 0xfe, 0x6c, 0x39, 0x23, 0xa4, 0x4b, 0xbe, 0x7c, 0x01, 0x81, 0x2c, 0xf7, 0x21, 0xad, 0x1c,
    0xde, 0xd4, 0x6d, 0xe9, 0x83, 0x90, 0x97, 0xdb, 0x72, 0x40, 0xa4, 0xa4, 0xb7, 0xb3, 0x67, 0x1f,
    0xcb, 0x79, 0xe6, 0x4e, 0xcc, 0xc0, 0xe5, 0x78, 0x82, 0x5a, 0xd0, 0x7d, 0xcc, 0xff, 0x72, 0x21,
    0xb8, 0x08, 0x46, 0x74, 0xf7, 0x43, 0x24, 0x8e, 0xe0, 0x35, 0x90, 0xe6, 0x81, 0x3a, 0x26, 0x4c,
    0x3c, 0x28, 0x52, 0xbb, 0x91, 0xc3, 0x00, 0xcb, 0x88, 0xd0, 0x65, 0x8b, 0x1b, 0x53, 0x2e, 0xa3,
    0x71, 0x64, 0x48, 0x97, 0xa2, 0x0d, 0xf9, 0x4e, 0x38, 0x19, 0xef, 0x46, 0xa9, 0xde, 0xac, 0xd8,
    0xa8, 0xfa, 0x76, 0x3f, 0xe3, 0x9c, 0x34, 0x3f, 0xf9, 0xdc, 0xbb, 0xc7, 0xc7, 0x0b, 0x4f, 0x1d,
    0x8a, 0x51, 0xe0, 0x4b, 0xcd, 0xb4, 0x59, 0x31, 0xc8, 0x9f, 0x7e, 0xc9, 0xd9, 0x78, 0x73, 0x64,
    0xea, 0xc5, 0xac, 0x83, 0x34, 0xd3, 0xeb, 0xc3, 0xc5, 0x81, 0xa0, 0xff, 0xfa, 0x13, 0x63, 0xeb,
    0x17, 0x0d, 0xdd, 0x51, 0xb7, 0xf0, 0xda, 0x49, 0xd3, 0x16, 0x55, 0x26, 0x29, 0xd4, 0x68, 0x9e,
    0x2b, 0x16, 0xbe, 0x58, 0x7d, 0x47, 0xa1, 0xfc, 0x8f, 0xf8, 0xb8, 0xd1, 0x7a, 0xd0, 0x31, 0xce,
    0x45, 0xcb, 0x3a, 0x8f, 0x95, 0x16, 0x04, 0x28, 0xaf, 0xd7, 0xfb, 0xca, 0xbb, 0x4b, 0x40, 0x7e]

def prime32a : UInt64 := 0x9E3779B1
def prime32b : UInt64 := 0x85EBCA77
def prime32c : UInt64 := 0xC2B2AE3D
def prime64a : UInt64 := 0x9E3779B185EBCA87
def prime64b : UInt64 := 0xC2B2AE3D27D4EB4F
def prime64c : UInt64 := 0x165667B19E3779F9
def prime64d : UInt64 := 0x85EBCA77C2B2AE63
def prime64e : UInt64 := 0x27D4EB2F165667C5

/-- The number whose digits in base 256 are the bytes, lowest first. -/
def littleEndian : Bytes → UInt64
  | [] => 0
  | b :: bs => b.toUInt64 + (littleEndian bs <<< 8)

def word32 (bs : Bytes) : UInt64 := littleEndian (bs.take 4)
def word64 (bs : Bytes) : UInt64 := littleEndian (bs.take 8)

def key32 (i : Nat) : UInt64 := word32 (keyBytes.drop i)
def key64 (i : Nat) : UInt64 := word64 (keyBytes.drop i)

/-- The last `n` bytes. -/
def takeLast (n : Nat) (bs : Bytes) : Bytes := bs.drop (bs.length - n)

def rotate (x k : UInt64) : UInt64 := (x <<< k) ||| (x >>> (64 - k))

/-- The four low bytes in reverse order. -/
def swap32 (x : UInt64) : UInt64 :=
  let byte (i : UInt64) : UInt64 := (x >>> i) &&& (0xFF : UInt64)
  (byte 0 <<< 24) ||| (byte 8 <<< 16) ||| (byte 16 <<< 8) ||| byte 24

def swap64 (x : UInt64) : UInt64 :=
  (swap32 x <<< 32) ||| swap32 (x >>> 32)

/-- The two halves of the full product, combined. -/
def fold (x y : UInt64) : UInt64 :=
  let p := x.toNat * y.toNat
  UInt64.ofNat p ^^^ UInt64.ofNat (p >>> 64)

def avalanche (h : UInt64) : UInt64 :=
  let h := (h ^^^ (h >>> 37)) * 0x165667919E3779F9
  h ^^^ (h >>> 32)

def avalancheSmall (h : UInt64) : UInt64 :=
  let h := (h ^^^ (h >>> 33)) * prime64b
  let h := (h ^^^ (h >>> 29)) * prime64c
  h ^^^ (h >>> 32)

def small (bs : Bytes) (n : Nat) : UInt64 :=
  let len := UInt64.ofNat n
  if n = 0 then avalancheSmall (key64 56 ^^^ key64 64)
  else if n ≤ 3 then
    let byte (i : Nat) : UInt64 := (bs.getD i 0).toUInt64
    let mixed := (byte 0 <<< 16) ||| (byte (n / 2) <<< 24) ||| byte (n - 1) ||| (len <<< 8)
    avalancheSmall (mixed ^^^ (key32 0 ^^^ key32 4))
  else if n ≤ 8 then
    let mixed := word32 (takeLast 4 bs) + (word32 bs <<< 32)
    let h := mixed ^^^ (key64 8 ^^^ key64 16)
    let h := (h ^^^ rotate h 49 ^^^ rotate h 24) * 0x9FB21C651E98DF25
    let h := (h ^^^ ((h >>> 35) + len)) * 0x9FB21C651E98DF25
    h ^^^ (h >>> 28)
  else
    let low := word64 bs ^^^ (key64 24 ^^^ key64 32)
    let high := word64 (takeLast 8 bs) ^^^ (key64 40 ^^^ key64 48)
    avalanche (len + swap64 low + high + fold low high)

/-- Sixteen bytes combined with the key bytes from `i` on. -/
def mix (bs : Bytes) (i : Nat) : UInt64 :=
  fold (word64 bs ^^^ key64 i) (word64 (bs.drop 8) ^^^ key64 (i + 8))

def medium (bs : Bytes) (n : Nat) : UInt64 :=
  let pairs := (List.range ((n + 31) / 32)).map fun i =>
    mix (bs.drop (16 * i)) (32 * i) + mix (takeLast (16 * (i + 1)) bs) (32 * i + 16)
  avalanche (pairs.foldl (· + ·) (UInt64.ofNat n * prime64a))

def large (bs : Bytes) (n : Nat) : UInt64 :=
  let h := (List.range 8).foldl (fun h i => h + mix (bs.drop (16 * i)) (16 * i))
    (UInt64.ofNat n * prime64a)
  let h := (List.range (n / 16 - 8)).foldl
    (fun h i => h + mix (bs.drop (16 * (i + 8))) (16 * i + 3)) (avalanche h)
  avalanche (h + mix (takeLast 16 bs) 119)

def words64 (bs : Bytes) : List UInt64 :=
  (List.range 8).map fun i => word64 (bs.drop (8 * i))

def keys64 (i : Nat) : List UInt64 := words64 (keyBytes.drop i)

def swapPairs : List UInt64 → List UInt64
  | x :: y :: r => y :: x :: swapPairs r
  | r => r

/-- One stripe of 64 bytes goes into the eight lanes. -/
def absorb (lanes : List UInt64) (stripe : Bytes) (keys : List UInt64) : List UInt64 :=
  let data := words64 stripe
  let keyed : List UInt64 := List.zipWith (· ^^^ ·) data keys
  let products := keyed.map fun (k : UInt64) => (k &&& (0xFFFFFFFF : UInt64)) * (k >>> 32)
  List.zipWith (· + ·) (List.zipWith (· + ·) lanes (swapPairs data)) products

def scramble (lanes keys : List UInt64) : List UInt64 :=
  List.zipWith (fun (x k : UInt64) => (x ^^^ (x >>> 47) ^^^ k) * prime32a) lanes keys

/-- `count` stripes from number `i` on; sixteen stripes make a block. -/
def absorbAll (lanes : List UInt64) (i : Nat) : Nat → Bytes → List UInt64
  | 0, _ => lanes
  | count + 1, bs =>
    let lanes := absorb lanes bs (keys64 (8 * (i % 16)))
    let lanes := if i % 16 = 15 then scramble lanes (keys64 128) else lanes
    absorbAll lanes (i + 1) count (bs.drop 64)

def foldPairs : List UInt64 → UInt64
  | x :: y :: r => fold x y + foldPairs r
  | _ => 0

def huge (bs : Bytes) (n : Nat) : UInt64 :=
  let lanes :=
    [prime32c, prime64a, prime64b, prime64c, prime64d, prime32b, prime64e, prime32a]
  let lanes := absorbAll lanes 0 ((n - 1) / 64) bs
  let lanes := absorb lanes (takeLast 64 bs) (keys64 121)
  let keyed := List.zipWith (· ^^^ ·) lanes (keys64 11)
  avalanche (UInt64.ofNat n * prime64a + foldPairs keyed)

def digest (bs : Bytes) : UInt64 :=
  let n := bs.length
  if n ≤ 16 then small bs n
  else if n ≤ 128 then medium bs n
  else if n ≤ 240 then large bs n
  else huge bs n

def hexDigits (x : UInt64) : Text :=
  let ds := Nat.toDigits 16 x.toNat
  List.replicate (16 - ds.length) '0' ++ ds

end Fingerprint

/-- The fingerprint that a report keeps of a scanned text. -/
def Text.fingerprint (t : Text) : Text :=
  Fingerprint.hexDigits (Fingerprint.digest (Utf8.encode t))

end GuardedCalls

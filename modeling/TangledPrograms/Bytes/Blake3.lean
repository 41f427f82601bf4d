/-!
# BLAKE3

The input is cut into chunks of 1024 bytes and each chunk into blocks of 64 bytes. A compression
turns a chaining value and a block into 16 words; the first eight chain the blocks of a chunk. The
chaining values of the chunks are combined in pairs, level by level, and the last compression of all
carries a flag of its own.
-/

namespace TangledPrograms.Bytes.Blake3

def chunkStart : UInt32 := 1
def chunkEnd : UInt32 := 2
def parent : UInt32 := 4
def root : UInt32 := 8

abbrev Words := Vector UInt32 16

/-- Moves the bits of a word to the right; those that fall out come back on the left. -/
def rotateRight (x : UInt32) (n : UInt32) : UInt32 := x >>> n ||| x <<< (32 - n)

def mix (s : Words) (a b c d : Fin 16) (x y : UInt32) : Words :=
  let va := s[a] + s[b] + x
  let vd := rotateRight (s[d] ^^^ va) 16
  let vc := s[c] + vd
  let vb := rotateRight (s[b] ^^^ vc) 12
  let va := va + vb + y
  let vd := rotateRight (vd ^^^ va) 8
  let vc := vc + vd
  let vb := rotateRight (vb ^^^ vc) 7
  (((s.set a va).set b vb).set c vc).set d vd

def round (s m : Words) : Words :=
  let s := mix s 0 4 8 12 m[0] m[1]
  let s := mix s 1 5 9 13 m[2] m[3]
  let s := mix s 2 6 10 14 m[4] m[5]
  let s := mix s 3 7 11 15 m[6] m[7]
  let s := mix s 0 5 10 15 m[8] m[9]
  let s := mix s 1 6 11 12 m[10] m[11]
  let s := mix s 2 7 8 13 m[12] m[13]
  mix s 3 4 9 14 m[14] m[15]

def permute (m : Words) : Words :=
  #v[m[2], m[6], m[3], m[10], m[7], m[0], m[4], m[13], m[1], m[11], m[12], m[5], m[9], m[14], m[15],
    m[8]]

def rounds : Nat → Words → Words → Words
  | 0, s, _ => s
  | n + 1, s, m => rounds n (round s m) (permute m)

abbrev Chaining := Vector UInt32 8

def start : Chaining :=
  #v[0x6a09e667, 0xbb67ae85, 0x3c6ef372, 0xa54ff53a, 0x510e527f, 0x9b05688c, 0x1f83d9ab, 0x5be0cd19]

/-- Compresses a block into a chaining value. `counter` is the number of the chunk, `length` the
number of bytes in the block. -/
def compress (h : Chaining) (block : Words) (counter : UInt64) (length flags : UInt32) :
    Chaining :=
  let s : Words :=
    #v[h[0], h[1], h[2], h[3], h[4], h[5], h[6], h[7], start[0], start[1], start[2], start[3],
      counter.toUInt32, (counter >>> 32).toUInt32, length, flags]
  let s := rounds 7 s block
  #v[s[0] ^^^ s[8], s[1] ^^^ s[9], s[2] ^^^ s[10], s[3] ^^^ s[11], s[4] ^^^ s[12], s[5] ^^^ s[13],
    s[6] ^^^ s[14], s[7] ^^^ s[15]]

def wordAt (bs : Array UInt8) (i : Nat) : UInt32 :=
  (bs.getD (4 * i) 0).toUInt32 ||| (bs.getD (4 * i + 1) 0).toUInt32 <<< 8 |||
    (bs.getD (4 * i + 2) 0).toUInt32 <<< 16 ||| (bs.getD (4 * i + 3) 0).toUInt32 <<< 24

/-- The words of a block, filled up with zeros. -/
def blockWords (block : List UInt8) : Words :=
  let bs := block.toArray
  Vector.ofFn fun i : Fin 16 => wordAt bs i

/-- Cuts bytes into pieces of the given size, the last one perhaps shorter; `fuel` bounds their
number. No bytes are one empty piece. -/
def pieces (size : Nat) : Nat → List UInt8 → List (List UInt8)
  | 0, bs => [bs]
  | fuel + 1, bs =>
    if bs.length ≤ size then [bs] else bs.take size :: pieces size fuel (bs.drop size)

/-- Chains the blocks of a chunk; `flags` go with the next block, `final` with the last one. -/
def chain (counter : UInt64) (final : UInt32) : UInt32 → Chaining → List (List UInt8) → Chaining
  | _, h, [] => h
  | flags, h, [block] =>
    compress h (blockWords block) counter (.ofNat block.length) (flags ||| chunkEnd ||| final)
  | flags, h, block :: rest =>
    chain counter final 0 (compress h (blockWords block) counter (.ofNat block.length) flags) rest

def chunkValue (final : UInt32) (counter : UInt64) (chunk : List UInt8) : Chaining :=
  chain counter final chunkStart start (pieces 64 16 chunk)

def combine (final : UInt32) (l r : Chaining) : Chaining :=
  compress start
    #v[l[0], l[1], l[2], l[3], l[4], l[5], l[6], l[7], r[0], r[1], r[2], r[3], r[4], r[5], r[6],
      r[7]] 0 64 (parent ||| final)

/-- Combines neighbours; one that is left over moves up as it is. -/
def pairUp : List Chaining → List Chaining
  | l :: r :: rest => combine 0 l r :: pairUp rest
  | rest => rest

/-- Combines chaining values level by level down to one; `fuel` bounds the number of levels. -/
def mergeAll : Nat → List Chaining → Chaining
  | _, [] => start
  | _, [h] => h
  | _, [l, r] => combine root l r
  | 0, h :: _ => h
  | fuel + 1, hs => mergeAll fuel (pairUp hs)

def wordBytes (w : UInt32) : List UInt8 :=
  [w.toUInt8, (w >>> 8).toUInt8, (w >>> 16).toUInt8, (w >>> 24).toUInt8]

def hash (bs : List UInt8) : List UInt8 :=
  let h :=
    match pieces 1024 bs.length bs with
    | [chunk] => chunkValue root 0 chunk
    | chunks =>
      mergeAll chunks.length (chunks.mapIdx fun i chunk => chunkValue 0 (.ofNat i) chunk)
  h.toList.flatMap wordBytes

end TangledPrograms.Bytes.Blake3

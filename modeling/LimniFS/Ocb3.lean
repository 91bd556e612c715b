/-
The OCB3 cipher of `limnifs-ocb3`.

A block is sixteen bytes.  AES-256 under a key is a permutation of the blocks, and
that is all the crate uses of it: `encrypt_block` is the permutation and
`decrypt_block` its inverse.  The buffer is encrypted and decrypted in place, block by
block, with an offset that moves on by one entry of the table `ll` at every block; the
index into the table is the number of trailing zeros of the block's number, and an
index past the table's end is the panic it is in the source (`none`).  So is a slice
that does not fit.
-/
import LimniFS.Core
import LimniFS.Lib.BitString

namespace LimniFS.Ocb3

open Lib

/-! ### Constants -/

def blockSize : Nat := 16

def nonceSize : Nat := 12

def tagSize : Nat := 16

/-- `GF128_POLY`. -/
def gf128Poly : UInt8 := 0x87

/-- `L_TABLE_SIZE`. -/
def lTableSize : Nat := 24

abbrev Block := Fixed 16

abbrev Tag := Fixed 16

/-- `[0; BLOCK_SIZE]`. -/
def zeroBlock : Block := ⟨List.replicate 16 0, List.length_replicate⟩

/-! ### Operations on blocks -/

/-- `usize::trailing_zeros` for a word of `width` bits. -/
def trailingZeros : (width : Nat) → Nat → Nat
  | 0, _ => 0
  | width + 1, n => if n % 2 = 1 then 0 else trailingZeros width (n / 2) + 1

def ntz (n : Nat) : Nat := trailingZeros 64 n

def xorBlock (a b : Block) : Block :=
  ⟨List.zipWith (· ^^^ ·) a.val b.val, by simp [a.property, b.property]⟩

/-- `xor_block_slice`, whose slices are always sixteen bytes long. -/
def xorBlockSlice (block src : Block) : Block :=
  ⟨List.zipWith (· ^^^ ·) block.val (src.val.take blockSize),
    by simp [block.property, src.property, blockSize]⟩

/-- Every byte moves up one bit and takes in the top bit of the next one. -/
def shiftBytes : Bytes → Bytes
  | [] => []
  | [last] => [last <<< 1]
  | x :: y :: rest => ((x <<< 1) ||| (y >>> 7)) :: shiftBytes (y :: rest)

theorem length_shiftBytes : ∀ bytes : Bytes, (shiftBytes bytes).length = bytes.length
  | [] => rfl
  | [_] => rfl
  | _ :: y :: rest => congrArg (· + 1) (length_shiftBytes (y :: rest))

def dbl (block : Block) : Block :=
  let carry := block.val.getD 0 0 >>> 7
  let result := shiftBytes block.val
  ⟨if carry = 1 then result.modify (blockSize - 1) (· ^^^ gf128Poly) else result, by
    split <;> simp [result, length_shiftBytes, block.property]⟩

def constantTimeEq (a b : Tag) : Bool :=
  (List.zipWith (· ^^^ ·) a.val b.val).foldl (· ||| ·) (0 : UInt8) == 0

/-! ### Keys and nonces -/

structure Ocb3Aes256 where
  /-- AES-256 under the key. -/
  cipher : Equiv.Perm Block
  llStar : Block
  llDollar : Block
  ll : List Block

/-- The loop that fills the table. -/
def fillTable : Nat → Block → List Block
  | 0, _ => []
  | entries + 1, current => dbl current :: fillTable entries (dbl current)

def deriveKeyVariables (cipher : Equiv.Perm Block) : Block × Block × List Block :=
  let llStar := cipher zeroBlock
  let llDollar := dbl llStar
  (llStar, llDollar, fillTable lTableSize llDollar)

/-- `Ocb3Aes256::new`, from the permutation that the key selects. -/
def new (cipher : Equiv.Perm Block) : Ocb3Aes256 :=
  let (llStar, llDollar, ll) := deriveKeyVariables cipher
  { cipher, llStar, llDollar, ll }

namespace Ocb3Aes256

variable (ocb : Ocb3Aes256)

def encryptBlock (block : Block) : Block := ocb.cipher block

def decryptBlock (block : Block) : Block := ocb.cipher.symm block

/-- The sixteen bytes built from the nonce. -/
def nonceBlock (nonce : Fixed 12) : Bytes :=
  let start := blockSize - nonceSize
  let block := (List.replicate blockSize (0 : UInt8)).set 0 (UInt8.ofNat (tagSize * 8 % 128))
  (block.take start ++ nonce.val).modify (start - 1) (· ||| 1)

theorem length_nonceBlock (nonce : Fixed 12) : (nonceBlock nonce).length = 16 := by
  simp [nonceBlock, blockSize, nonceSize, nonce.property]

def top (nonce : Fixed 12) : Block :=
  ⟨(nonceBlock nonce).modify 15 (· &&& 0xC0), by simp [length_nonceBlock]⟩

def bottom (nonce : Fixed 12) : Nat := ((nonceBlock nonce).getD 15 0 &&& 0x3F).toNat

def stretchOf (ktop : Block) : Fixed 24 :=
  ⟨ktop.val ++ (List.range 8).map fun i => ktop.val.getD i 0 ^^^ ktop.val.getD (i + 1) 0,
    by simp [ktop.property]⟩

def deriveNonceVariables (nonce : Fixed 12) : Nat × Fixed 24 :=
  let ktop := ocb.encryptBlock (top nonce)
  (bottom nonce, stretchOf ktop)

/-- `u128::from_be_bytes`. -/
def fromBeBytes (bytes : Fixed 16) : BitVec 128 :=
  (BitVec.ofBoolListBE (bits bytes.val)).cast (by rw [length_bits, bytes.property])

/-- `u128::to_be_bytes`. -/
def toBeBytes (x : BitVec 128) : Block :=
  ⟨bytesOfBits 16 ((List.range 128).map x.getMsbD), length_bytesOfBits ..⟩

def initialOffset (bottom : Nat) (stretch : Fixed 24) : Block :=
  let stretchLow := fromBeBytes ⟨stretch.val.take 16, by simp [stretch.property]⟩
  let stretchHi := fromBeBytes ⟨(stretch.val.drop 16).take 8 ++ List.replicate 8 0,
    by simp [stretch.property]⟩
  toBeBytes ((stretchLow <<< bottom) ||| (stretchHi >>> (64 - bottom)))

/-! ### Associated data -/

/-- `bytes[start..start + 16]`. -/
def slice16 (bytes : Bytes) (start : Nat) : Option Block :=
  let slice := (bytes.drop start).take blockSize
  if h : slice.length = 16 then some ⟨slice, h⟩ else none

/-- The last partial block with the byte `0x80` after it. -/
def padBlock (rest : Bytes) : Block :=
  ⟨(rest ++ 0x80 :: List.replicate 15 0).take 16, by simp⟩

structure HashState where
  offset : Block
  sum : Block

def hashStep (aad : Bytes) (s : HashState) (i : Nat) : Option HashState := do
  let l ← ocb.ll[ntz (i + 1)]?
  let offset := xorBlock s.offset l
  let block ← slice16 aad (i * blockSize)
  let block := ocb.encryptBlock (xorBlock block offset)
  some ⟨offset, xorBlock s.sum block⟩

def hashAd (aad : Bytes) : Option Block := do
  let fullBlocks := aad.length / blockSize
  let remainder := aad.length % blockSize
  let s ← (List.range fullBlocks).foldlM (ocb.hashStep aad) ⟨zeroBlock, zeroBlock⟩
  if remainder > 0 then
    let lastStart := fullBlocks * blockSize
    let offset := xorBlock s.offset ocb.llStar
    let padded := padBlock ((aad.drop lastStart).take remainder)
    let padded := ocb.encryptBlock (xorBlock padded offset)
    some (xorBlock s.sum padded)
  else
    some s.sum

def computeTag (aad : Bytes) (checksum offset : Block) : Option Tag := do
  let checksum := xorBlock checksum offset
  let checksum := xorBlock checksum ocb.llDollar
  let checksum := ocb.encryptBlock checksum
  let auth ← ocb.hashAd aad
  some (xorBlock checksum auth)

/-! ### The buffer -/

/-- What the loops over the buffer carry. -/
structure Pass where
  offset : Block
  checksum : Block
  buffer : Bytes

/-- Writing sixteen bytes back into the buffer. -/
def writeBlock (buffer : Bytes) (start : Nat) (block : Block) : Bytes :=
  buffer.take start ++ block.val ++ buffer.drop (start + blockSize)

def encryptStep (s : Pass) (i : Nat) : Option Pass := do
  let blockStart := i * blockSize
  let l ← ocb.ll[ntz (i + 1)]?
  let offset := xorBlock s.offset l
  let plain ← slice16 s.buffer blockStart
  let checksum := xorBlockSlice s.checksum plain
  let block := xorBlockSlice plain offset
  let block := ocb.encryptBlock block
  let block := xorBlockSlice block offset
  some ⟨offset, checksum, writeBlock s.buffer blockStart block⟩

def decryptStep (s : Pass) (i : Nat) : Option Pass := do
  let blockStart := i * blockSize
  let l ← ocb.ll[ntz (i + 1)]?
  let offset := xorBlock s.offset l
  let block ← slice16 s.buffer blockStart
  let block := xorBlockSlice block offset
  let block := ocb.decryptBlock block
  let block := xorBlockSlice block offset
  some ⟨offset, xorBlockSlice s.checksum block, writeBlock s.buffer blockStart block⟩

/-- `buffer[last_start + j] ^= pad[j]` for every `j` of the partial block. -/
def xorPad (buffer : Bytes) (lastStart : Nat) (pad : Block) : Bytes :=
  buffer.take lastStart ++ List.zipWith (· ^^^ ·) (buffer.drop lastStart) pad.val

/-- The ciphertext that is left in the buffer, and the tag. -/
def encryptInPlaceDetached (nonce : Fixed 12) (aad buffer : Bytes) : Option (Bytes × Tag) := do
  let (bottom, stretch) := ocb.deriveNonceVariables nonce
  let fullBlocks := buffer.length / blockSize
  let remainder := buffer.length % blockSize
  let s ← (List.range fullBlocks).foldlM ocb.encryptStep
    ⟨initialOffset bottom stretch, zeroBlock, buffer⟩
  if remainder > 0 then
    let lastStart := fullBlocks * blockSize
    let offset := xorBlock s.offset ocb.llStar
    let pad := ocb.encryptBlock offset
    let padded := padBlock ((s.buffer.drop lastStart).take remainder)
    let checksum := xorBlock s.checksum padded
    let buffer := xorPad s.buffer lastStart pad
    let tag ← ocb.computeTag aad checksum offset
    some (buffer, tag)
  else
    let tag ← ocb.computeTag aad s.checksum s.offset
    some (s.buffer, tag)

/-- The verdict, and what is left in the buffer. -/
def decryptInPlaceDetached (nonce : Fixed 12) (aad buffer : Bytes) (tag : Tag) :
    Option (Except Unit Unit × Bytes) := do
  let (bottom, stretch) := ocb.deriveNonceVariables nonce
  let fullBlocks := buffer.length / blockSize
  let remainder := buffer.length % blockSize
  let s ← (List.range fullBlocks).foldlM ocb.decryptStep
    ⟨initialOffset bottom stretch, zeroBlock, buffer⟩
  let s :=
    if remainder > 0 then
      let lastStart := fullBlocks * blockSize
      let offset := xorBlock s.offset ocb.llStar
      let pad := ocb.encryptBlock offset
      let buffer := xorPad s.buffer lastStart pad
      let padded := padBlock ((buffer.drop lastStart).take remainder)
      ⟨offset, xorBlock s.checksum padded, buffer⟩
    else s
  let expectedTag ← ocb.computeTag aad s.checksum s.offset
  if constantTimeEq expectedTag tag then
    some (.ok (), s.buffer)
  else
    some (.error (), s.buffer.map fun _ => 0)

end Ocb3Aes256

end LimniFS.Ocb3

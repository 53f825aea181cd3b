import Sandflea.Ext2.Commands

/-!
# A sample image

A drive of 16 blocks of 4096 bytes with one group: the superblock in block 0, the group descriptors in
block 1, the block bitmap in block 2, the inode bitmap in block 3, the inode table in block 4, and the
root directory in block 5. The statements about concrete inputs are about kernels that have it mounted.
-/

namespace Sandflea

open Bytes

/-- The blocks that hold the given bytes, as block, offset, and byte, and zeros elsewhere. -/
def blocksOf (bytes : List (ℕ × ℕ × UInt8)) : ℕ → Bytes := fun b i =>
  ((bytes.find? fun e => e.1 = b ∧ e.2.1 = i).map fun e => e.2.2).getD 0

/-- The bytes from an offset of a block on. -/
def bytesAt (b off : ℕ) (bytes : List UInt8) : List (ℕ × ℕ × UInt8) :=
  bytes.zipIdx.map fun e => (b, off + e.2, e.1)

/-- The superblock of the sample image. -/
def sampleSb : Superblock where
  totalInodes := 16
  totalBlocks := 16
  firstDataBlock := 0
  blockSizeShift := 2
  blocksPerGroup := 16
  inodesPerGroup := 16
  magicSignature := ext2Signature
  majorVersion := 1
  firstInode := 11
  inodeSize := 128

/-- The descriptor of the one group of the sample image. -/
def sampleDesc : GroupDesc where
  blockBitmap := 2
  inodeBitmap := 3
  inodeTable := 4
  freeBlocksCount := 9
  freeInodesCount := 5

/-- A drive with the sample image. -/
def sampleDrive (name : Str) : Drive where
  name := name
  present := true
  sb := sampleSb
  bgdtCache g := if g = 0 then sampleDesc else GroupDesc.ofBytes zeros 0

/-- The root directory, inode 2, with its one block 5. -/
def sampleRoot : List (ℕ × ℕ × UInt8) :=
  bytesAt 4 128 [0xED, 0x41, 0, 0, 0, 0x10, 0, 0] ++ bytesAt 4 156 [8] ++ bytesAt 4 168 [5]

/-- A directory entry of the root directory: `size` bytes at offset `off`. -/
def sampleEntry (off inodeNo size : ℕ) (name : Str) : List (ℕ × ℕ × UInt8) :=
  bytesAt 5 off ([UInt8.ofNat inodeNo, 0, 0, 0, UInt8.ofNat size, UInt8.ofNat (size / 256),
    UInt8.ofNat name.length, 1] ++ name)

/-- The regular file inode 11 with a size below 256 and one block, or none. -/
def sampleFile (size block : UInt8) : List (ℕ × ℕ × UInt8) :=
  bytesAt 4 1280 [0xA4, 0x81, 0, 0, size] ++
    if block = 0 then [] else bytesAt 4 1308 [8] ++ bytesAt 4 1320 [block]

end Sandflea

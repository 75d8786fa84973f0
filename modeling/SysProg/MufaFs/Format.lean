import SysProg.Lib.CString
import SysProg.Lib.Packed

/-!
# The drive image of mufafs

`Project4/mufa_fs/main.cpp`: the records on the drive, the directory encoding, and
`createDriveImage`.

An image is laid out as superblock (70 bytes) and 10 bytes of padding, one reserved block, the
inode slots (one block each), and the data blocks.  Inode `i` lives in slot `i`; the root is inode
`0`, but its `self` field is `ROOT_SELF = -1`, that is `2 ^ 64 - 1`.

Arithmetic of `uint64_t` is that of `ℕ` followed by `u64`.
-/

namespace MufaFs

open ByteFile

/-- Reduction to 64 bits. -/
def u64 (n : ℕ) : ℕ := n % 2 ^ 64

/-- `#define ROOT_SELF -1`, as it reads in a `uint64_t` field. -/
def rootSelf : ℕ := 2 ^ 64 - 1

/-- `struct super_block`. -/
structure SuperBlock where
  volumeName : List Byte
  blockSize : ℕ
  totalBlocks : ℕ
  reservedBlocks : ℕ
  inodesStart : ℕ
  inodeSize : ℕ
  totalInodes : ℕ
  dataBlockStart : ℕ
  totalDataBlocks : ℕ
  nextVolumes : ℕ

/-- Field widths of `super_block` after the 16 bytes of the volume name. -/
def SuperBlock.widths : List ℕ := [2, 8, 8, 8, 2, 8, 8, 8, 2]

/-- The bytes of a `super_block`. -/
def SuperBlock.encode (sb : SuperBlock) : List Byte :=
  sb.volumeName ++ Packed.pack SuperBlock.widths
    [sb.blockSize, sb.totalBlocks, sb.reservedBlocks, sb.inodesStart, sb.inodeSize,
      sb.totalInodes, sb.dataBlockStart, sb.totalDataBlocks, sb.nextVolumes]

/-- `sizeof(super_block)`. -/
def sizeofSuperBlock : ℕ := 70

/-- An inode lists ten blocks: the indices `0` to `9` are numerals. -/
instance tenBlocks : NeZero 10 := ⟨Nat.succ_ne_zero 9⟩

/-- `struct inode`. The type is `0` for an unoccupied inode, `1` for a file, `2` for a directory. -/
structure Inode where
  type : ℕ
  parent : ℕ
  self : ℕ
  dataBlocks : Fin 10 → ℕ
  indirect1 : ℕ
  indirect2 : ℕ
  indirect3 : ℕ

/-- The inode of all zero bytes. -/
def Inode.zero : Inode := ⟨0, 0, 0, fun _ => 0, 0, 0, 0⟩

/-- Field widths of `inode`. -/
def Inode.widths : List ℕ := [1, 8, 8, 8, 8, 8, 8, 8, 8, 8, 8, 8, 8, 8, 8, 8]

/-- `sizeof(inode)`. -/
def sizeofInode : ℕ := 121

/-- The fields of an inode in the order of the record. -/
def Inode.fields (n : Inode) : List ℕ :=
  [n.type, n.parent, n.self, n.dataBlocks 0, n.dataBlocks 1, n.dataBlocks 2, n.dataBlocks 3,
    n.dataBlocks 4, n.dataBlocks 5, n.dataBlocks 6, n.dataBlocks 7, n.dataBlocks 8,
    n.dataBlocks 9, n.indirect1, n.indirect2, n.indirect3]

/-- The inode with the given fields. -/
def Inode.ofFields (vs : List ℕ) : Inode where
  type := vs.getD 0 0
  parent := vs.getD 1 0
  self := vs.getD 2 0
  dataBlocks j := vs.getD (3 + j.val) 0
  indirect1 := vs.getD 13 0
  indirect2 := vs.getD 14 0
  indirect3 := vs.getD 15 0

/-- The bytes of an `inode`. -/
def Inode.encode (n : Inode) : List Byte := Packed.pack Inode.widths n.fields

/-- The `inode` that the bytes begin with. -/
def Inode.decode (bs : List Byte) : Inode := Inode.ofFields (Packed.unpack Inode.widths bs)

/-- The fields of the `super_block` that the bytes begin with. -/
def SuperBlock.decode (bs : List Byte) : SuperBlock :=
  let vs := Packed.unpack SuperBlock.widths (bs.drop 16)
  { volumeName := bs.take 16
    blockSize := vs.getD 0 0
    totalBlocks := vs.getD 1 0
    reservedBlocks := vs.getD 2 0
    inodesStart := vs.getD 3 0
    inodeSize := vs.getD 4 0
    totalInodes := vs.getD 5 0
    dataBlockStart := vs.getD 6 0
    totalDataBlocks := vs.getD 7 0
    nextVolumes := vs.getD 8 0 }

/-! ### Addresses on the drive -/

/-- Where `write_inode` puts an inode, computed from its `self` field in 64 bits. -/
def SuperBlock.inodeAddr (sb : SuperBlock) (self : ℕ) : ℕ :=
  u64 (sb.inodesStart + self * sb.inodeSize * sb.blockSize)

/-- Where data block `i` begins. -/
def SuperBlock.blockAddr (sb : SuperBlock) (i : ℕ) : ℕ :=
  u64 (sb.dataBlockStart + i * sb.blockSize)

/-! ### Directory entries -/

/-- `tuple<string, uint64_t>`: a name and an inode index. -/
abbrev Entry := List Byte × ℕ

/-- One entry as it is stored: `name\0index\0`. -/
def encodeEntry (v : Entry) : List Byte := v.1 ++ 0 :: (CString.decimal v.2 ++ [0])

/-- The content of a directory, the loop shared by `insert_dir_entry` and `rm`. -/
def encodeDir (dir : List Entry) : List Byte := dir.flatMap encodeEntry

/-- The `while` loop of `get_dir_entry` over the strings of one block buffer. It ends at an empty
name or an empty index; past the last string `strlen` leaves the buffer, which is `none`. -/
def parseEntries : List (List Byte) → Option (List Entry)
  | [] => none
  | [] :: _ => some []
  | [_] => none
  | _ :: [] :: _ => some []
  | name :: addr :: p => (parseEntries p).map ((name, CString.readUInt64 addr) :: ·)

/-! ### Making an image -/

/-- `purge`: `length` zero bytes, at most 4096 in one call of `fwrite`. -/
def purge (file : File) (length : ℕ) : File :=
  if 4096 < length then purge (file.fwrite (List.replicate 4096 0)) (length - 4096)
  else file.fwrite (List.replicate length 0)
termination_by length

/-- The default of `super_block::volume_name`, `"new volume"`. -/
def newVolume : List Byte :=
  [110, 101, 119, 32, 118, 111, 108, 117, 109, 101, 0, 0, 0, 0, 0, 0]

/-- `strcpy` of a string into a character array. -/
def strcpy (dst src : List Byte) : List Byte :=
  let s := src.takeWhile (· ≠ 0)
  s ++ 0 :: dst.drop (s.length + 1)

/-- The superblock that `createDriveImage` fills in for a drive of `size` bytes. The field
`next_volumes` is not set there; `next` is what the memory happens to hold. -/
def newSuperBlock (name : List Byte) (size : ℕ) (next : UInt16) : SuperBlock :=
  let overhead := sizeofSuperBlock + 10
  let blockSize := 256
  let totalBlocks := u64 (size + 2 ^ 64 - overhead) / blockSize
  let reservedBlocks := 1
  let inodesStart := u64 (overhead + reservedBlocks * blockSize)
  let inodeSize := 1
  let totalInodes := totalBlocks / 30
  { volumeName := strcpy newVolume (name.take 15)
    blockSize
    totalBlocks
    reservedBlocks
    inodesStart
    inodeSize
    totalInodes
    dataBlockStart := u64 (inodesStart + totalInodes * blockSize * inodeSize)
    totalDataBlocks := totalBlocks - totalInodes
    nextVolumes := next.toNat }

/-- The inode that `mkdir_root` writes. -/
def rootInode : Inode := { Inode.zero with type := 2, parent := rootSelf, self := rootSelf }

/-- `write_root_inode`: the root goes into slot `0`. -/
def writeRootInode (n : Inode) (drive : File) (sb : SuperBlock) : File :=
  (drive.fseek (sb.inodeAddr 0)).fwrite n.encode

/-- `mkdir_root`. -/
def mkdirRoot (drive : File) (sb : SuperBlock) : File := writeRootInode rootInode drive sb

/-- The writes of `createDriveImage`: a byte at the end of the drive, the superblock, zeros for the
padding, the reserved block and the inode slots, and the root. -/
def formatDrive (sb : SuperBlock) (size : ℕ) : File :=
  let file := (File.empty.fseek size).fwrite [0]
  let file := (file.fseek 0).fwrite sb.encode
  let file := purge file (10 + sb.reservedBlocks * sb.blockSize)
  let file := purge file (u64 (sb.totalInodes * sb.inodeSize * sb.blockSize))
  mkdirRoot file sb

/-- `createDriveImage`; `none` when it reports `drive too small` and exits. -/
def createDriveImage (name : List Byte) (size : ℕ) (next : UInt16) : Option File :=
  let sb := newSuperBlock name size next
  if sb.totalInodes < 10 then none else some (formatDrive sb size)

/-- `read_superblock`. -/
def readSuperblock (drive : File) : SuperBlock :=
  SuperBlock.decode ((drive.fseek 0).fread sizeofSuperBlock)

end MufaFs

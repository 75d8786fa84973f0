import SysProg.Lib.PriorityQueue
import SysProg.MufaFs.Format

/-!
# `class Instance`: a mounted volume

`Project4/mufa_fs/main.cpp`: the in-memory state of a mounted volume and its operations.  Pointers
to inodes are indices into the vector `inodes`.  An operation is `none` when it runs into undefined
behaviour: an index outside of a vector, a string that does not end inside its buffer, or `top` of
the empty queue.  Every use of the drive begins with an absolute `fseek`, so the position that a
read leaves behind is not kept.

Overloads of the source are told apart by a suffix: `mkdir parent name` and `touch parent name` are
the methods with a parent, the shell commands pass the current directory; `writeFile`, `readFile`,
`rmInode` work on an inode, `writeFileNamed`, `readFileNamed`, `rm` look a name up first.
-/

namespace MufaFs

open ByteFile

/-- What the operations print to `stderr`. -/
inductive Diagnostic
  | notAFile (name : List Byte)
  | fileDoesNotExist (name : List Byte)
  | notADirectory (name : List Byte)
  | directoryDoesNotExist (name : List Byte)
  deriving DecidableEq

/-- The bytes of a string of ASCII characters. -/
def ascii (s : String) : List Byte := s.toList.map Char.toUInt8

/-- The state of a mounted volume. The vectors `inodes` and `data_bitmap` are functions;
the size of the first one is `inodesSize`. -/
structure Instance where
  drive : File
  sb : SuperBlock
  inodes : ℕ → Inode
  dataBitmap : ℕ → Bool
  inodesSorted : List ℕ
  cwdNode : ℕ
  cwd : List Entry
  stderr : List Diagnostic

/-- The size that `init` gives the vector `inodes`. -/
def SuperBlock.inodesSize (sb : SuperBlock) : ℕ :=
  u64 (sb.totalInodes * (sb.inodeSize * sb.blockSize))

/-- `comp`: whether `l` has lower priority than `r`. Unoccupied inodes come first, larger `self`
fields before smaller ones. -/
def comp (l r : Inode) : Bool :=
  if l.type = 0 then
    if r.type = 0 then decide (l.self < r.self) else false
  else if r.type = 0 then true
  else decide (l.self < r.self)

/-- Assign a bit of a bitmap with `size` bits. -/
def setBit (size : ℕ) (bitmap : ℕ → Bool) (i : ℕ) (b : Bool) : Option (ℕ → Bool) :=
  if i < size then some (Function.update bitmap i b) else none

namespace Instance

/-- Replace the inode at an index. -/
def setInode (s : Instance) (i : ℕ) (n : Inode) : Instance :=
  { s with inodes := Function.update s.inodes i n }

/-- Print to `stderr`. -/
def report (s : Instance) (d : Diagnostic) : Instance := { s with stderr := s.stderr ++ [d] }

/-- `&inodes[index]`. -/
def deref (s : Instance) (index : ℕ) : Option ℕ :=
  if index < s.sb.inodesSize then some index else none

/-- `write_inode`. -/
def writeInode (s : Instance) (i : ℕ) : Instance :=
  let n := s.inodes i
  { s with drive := (s.drive.fseek (s.sb.inodeAddr n.self)).fwrite n.encode }

/-- `find_inode`: take the top of the queue. -/
def findInode (s : Instance) : Option (ℕ × Instance) := do
  let i ← PriorityQueue.top (fun l r => comp (s.inodes l) (s.inodes r)) s.inodesSorted
  some (i, { s with inodesSorted := s.inodesSorted.erase i })

/-- Reinsert an inode into the queue. -/
def pushSorted (s : Instance) (i : ℕ) : Instance :=
  { s with inodesSorted := i :: s.inodesSorted }

/-! ### Data blocks -/

/-- One turn of the loop of `purge_file_contents`: unset the bit of a nonzero block. -/
def unallocate (size : ℕ) (n : Inode) (bitmap : ℕ → Bool) (j : Fin 10) : Option (ℕ → Bool) :=
  if n.dataBlocks j ≠ 0 then setBit size bitmap (n.dataBlocks j) false else some bitmap

/-- `purge_file_contents`. -/
def purgeFileContents (s : Instance) (i : ℕ) : Option Instance := do
  let n := s.inodes i
  let size := s.sb.totalDataBlocks
  let bitmap ← (if n.self = rootSelf then setBit size s.dataBitmap 0 false else some s.dataBitmap)
  let bitmap ← (List.finRange 10).foldlM (unallocate size n) bitmap
  some { s.setInode i { n with dataBlocks := fun _ => 0 } with dataBitmap := bitmap }

/-- `write_data_block`, as the comment in `write_file` calls it: block `i` is filled with zeros,
then the chunk is written over them. -/
def writeDataBlock (sb : SuperBlock) (drive : File) (i : ℕ) (chunk : List Byte) : File :=
  let drive := purge (drive.fseek (sb.blockAddr i)) sb.blockSize
  (drive.fseekCur (-sb.blockSize)).fwrite chunk

/-- The loop of `write_file`, with `fuel` turns left before `i` reaches the end of the bitmap; `j`
is the next position in `data_blocks`. -/
def writeLoop (sb : SuperBlock) : (fuel i j : ℕ) → List Byte → File → (ℕ → Bool) →
    (Fin 10 → ℕ) → Option (File × (ℕ → Bool) × (Fin 10 → ℕ))
  | 0, _, _, _, drive, bitmap, blocks => some (drive, bitmap, blocks)
  | fuel + 1, i, j, data, drive, bitmap, blocks =>
      if bitmap i then writeLoop sb fuel (i + 1) j data drive bitmap blocks
      else
        let bitmap := Function.update bitmap i true
        let chunkSize := if data.length < sb.blockSize then data.length else sb.blockSize
        let drive := writeDataBlock sb drive i (data.take chunkSize)
        let data := data.drop chunkSize
        if h : j < 10 then
          let blocks := Function.update blocks ⟨j, h⟩ i
          if data.length = 0 then some (drive, bitmap, blocks)
          else writeLoop sb fuel (i + 1) (j + 1) data drive bitmap blocks
        else none

/-- `write_file` of a block of data to an inode. -/
def writeFile (s : Instance) (i : ℕ) (data : List Byte) : Option Instance := do
  let s ← s.purgeFileContents i
  let n := s.inodes i
  let (drive, bitmap, blocks) ←
    writeLoop s.sb s.sb.totalDataBlocks 0 0 data s.drive s.dataBitmap n.dataBlocks
  let s := { s.setInode i { n with dataBlocks := blocks } with drive, dataBitmap := bitmap }
  some (s.writeInode i)

/-- The C string at the beginning of a buffer. -/
def cString (buffer : List Byte) : Option (List Byte) := (CString.zstrings buffer).head?

/-- The loop of `read_file` from block `j` on. A short read leaves the tail of the buffer as it
was. -/
def readLoop (s : Instance) (n : Inode) : (fuel j : ℕ) → File → List Byte → List Byte →
    Option (List Byte)
  | 0, _, _, _, data => some data
  | fuel + 1, j, drive, buffer, data =>
      if h : j < 10 then
        if n.dataBlocks ⟨j, h⟩ = 0 then some data
        else do
          let drive := drive.fseekCur
            ((n.dataBlocks ⟨j, h⟩ : ℤ) - n.dataBlocks ⟨j - 1, by omega⟩)
          let got := drive.fread s.sb.blockSize
          let buffer := got ++ buffer.drop got.length
          let text ← cString buffer
          readLoop s n fuel (j + 1) (drive.fseekCur got.length) buffer (data ++ text)
      else some data

/-- `read_file` of an inode. -/
def readFile (s : Instance) (i : ℕ) : Option (List Byte) :=
  let n := s.inodes i
  if n.dataBlocks 0 = 0 then some []
  else do
    let drive := s.drive.fseek (s.sb.blockAddr (n.dataBlocks 0))
    let buffer := drive.fread s.sb.blockSize
    let text ← cString buffer
    readLoop s n 9 1 (drive.fseekCur buffer.length) buffer text

/-! ### Directories -/

/-- The entries that `get_dir_entry` finds in `data_blocks[j]`. -/
def blockEntries (s : Instance) (n : Inode) (j : Fin 10) : Option (List Entry) :=
  if n.dataBlocks j ≠ 0 ∨ (n.self = rootSelf ∧ j = 0) then
    let data := (s.drive.fseek (s.sb.blockAddr (n.dataBlocks j))).fread s.sb.blockSize
    parseEntries (CString.zstrings data)
  else some []

/-- The entries in some of the data blocks, in order. -/
def gatherEntries (s : Instance) (n : Inode) : List (Fin 10) → Option (List Entry)
  | [] => some []
  | j :: js => do
      let a ← s.blockEntries n j
      let b ← s.gatherEntries n js
      some (a ++ b)

/-- `get_dir_entry`. -/
def getDirEntry (s : Instance) (i : ℕ) : Option (List Entry) :=
  s.gatherEntries (s.inodes i) (List.finRange 10)

/-- `insert_dir_entry`. -/
def insertDirEntry (s : Instance) (name : List Byte) (parent i : ℕ) : Option Instance := do
  let dir ← s.getDirEntry parent
  s.writeFile parent (encodeDir (dir ++ [(name, (s.inodes i).self)]))

/-- The fields that `mkdir` sets in a new inode. -/
def claimDir (s : Instance) (parent i : ℕ) : Instance :=
  let p := (s.inodes parent).self
  s.setInode i { s.inodes i with type := 2, parent := if p = rootSelf then 0 else p }

/-- The fields that `touch` sets in a new inode. -/
def claimFile (s : Instance) (parent i : ℕ) : Instance :=
  s.setInode i { s.inodes i with type := 1, parent := (s.inodes parent).self }

/-- `mkdir`. -/
def mkdir (s : Instance) (parent : ℕ) (name : List Byte) : Option Instance := do
  let (i, s) ← s.findInode
  let s ← (s.claimDir parent i).insertDirEntry name parent i
  some ((s.writeInode i).pushSorted i)

/-- `touch`: the new inode is returned, and not put back into the queue. -/
def touch (s : Instance) (parent : ℕ) (name : List Byte) : Option (ℕ × Instance) := do
  let (i, s) ← s.findInode
  let s ← (s.claimFile parent i).insertDirEntry name parent i
  some (i, s.writeInode i)

/-- The first entry of a name, as the loops over a listing find it. -/
def lookup (dir : List Entry) (name : List Byte) : Option Entry := dir.find? (·.1 = name)

/-- `rm` of an inode that a directory lists; `fuel` bounds the depth of the recursion. -/
def rmInode : (fuel : ℕ) → Instance → (parent i : ℕ) → Option (Bool × Instance)
  | 0, _, _, _ => none
  | fuel + 1, s, parent, i => do
      let dir ← s.getDirEntry parent
      match dir.findIdx? (·.2 = (s.inodes i).self) with
      | none => some (false, s)
      | some k => do
          let s ← (if (s.inodes i).type = 2 then do
              let sub ← s.getDirEntry i
              sub.foldlM (fun s v => do
                let c ← s.deref v.2
                let (_, s) ← rmInode fuel s i c
                some s) s
            else some s)
          let s ← s.purgeFileContents i
          let s ← s.writeFile parent (encodeDir (dir.eraseIdx k))
          some (true, s)

/-- `rm` of a name. -/
def rm (fuel : ℕ) (s : Instance) (parent : ℕ) (name : List Byte) : Option Instance := do
  let dir ← s.getDirEntry parent
  match lookup dir name with
  | none => some (s.report (.fileDoesNotExist name))
  | some v => do
      let i ← s.deref v.2
      let (_, s) ← rmInode fuel s parent i
      some s

/-! ### Files by name -/

/-- `write_file` of a name in the current directory. -/
def writeFileNamed (s : Instance) (name data : List Byte) : Option (Bool × Instance) := do
  let dir ← s.getDirEntry s.cwdNode
  match lookup dir name with
  | some v => do
      let i ← s.deref v.2
      if (s.inodes i).type ≠ 1 then some (false, s.report (.notAFile name))
      else do
        let s ← s.writeFile i data
        some (true, s)
  | none => do
      let (i, s) ← s.touch s.cwdNode name
      let s ← s.writeFile i data
      some (true, s)

/-- `read_file` of a name in the current directory: the text, and the state with what was printed
to `stderr`. -/
def readFileNamed (s : Instance) (name : List Byte) : Option (List Byte × Instance) := do
  let dir ← s.getDirEntry s.cwdNode
  match lookup dir name with
  | some v => do
      let i ← s.deref v.2
      if (s.inodes i).type ≠ 1 then some ([], s.report (.notAFile name))
      else do
        let text ← s.readFile i
        some (text, s)
  | none => some ([], s.report (.fileDoesNotExist name))

/-! ### The current directory -/

/-- `cd` to an inode. -/
def cdNode (s : Instance) (i : ℕ) : Option Instance := do
  let cwd ← s.getDirEntry i
  some { s with cwdNode := i, cwd }

/-- `cd` to a name: an entry that is no directory is reported, and entered nevertheless. -/
def cd (s : Instance) (name : List Byte) : Option Instance := do
  let dir ← s.getDirEntry s.cwdNode
  match lookup dir name with
  | some v => do
      let i ← s.deref v.2
      let s := if (s.inodes i).type ≠ 2 then s.report (.notADirectory name) else s
      s.cdNode i
  | none => some (s.report (.directoryDoesNotExist name))

/-! ### Mounting -/

/-- The bytes of the vector `inodes`, one record after another. -/
def tableByte (table : ℕ → Inode) (p : ℕ) : Byte :=
  (table (p / sizeofInode)).encode.getD (p % sizeofInode) 0

/-- Reading `slot` into the vector at inode `i`: the bytes past the record of inode `i` go into the
records that follow. -/
def loadSlot (table : ℕ → Inode) (i : ℕ) (slot : List Byte) (k : ℕ) : Inode :=
  if (k + 1) * sizeofInode ≤ i * sizeofInode ∨ i * sizeofInode + slot.length ≤ k * sizeofInode
  then table k
  else Inode.decode ((List.range sizeofInode).map fun b =>
    let p := k * sizeofInode + b
    if i * sizeofInode ≤ p ∧ p < i * sizeofInode + slot.length
    then slot.getD (p - i * sizeofInode) 0 else tableByte table p)

/-- The loop of `init` that marks the blocks of an inode: the test reads `data_blocks[j]`, and the
body, after `j++`, the entry behind it. -/
def markBlocks (size : ℕ) (n : Inode) : (fuel j : ℕ) → (ℕ → Bool) → Option (ℕ → Bool)
  | 0, _, _ => none
  | fuel + 1, j, bitmap =>
      if h : j < 10 then
        if n.dataBlocks ⟨j, h⟩ = 0 then some bitmap
        else if h' : j + 1 < 10 then do
          let bitmap ← setBit size bitmap (n.dataBlocks ⟨j + 1, h'⟩) true
          markBlocks size n fuel (j + 1) bitmap
        else none
      else none

/-- One turn of the loop of `init`, for inode `i`. -/
def initStep (drive : File) (sb : SuperBlock) (st : (ℕ → Inode) × (ℕ → Bool) × List ℕ) (i : ℕ) :
    Option ((ℕ → Inode) × (ℕ → Bool) × List ℕ) :=
  let (table, bitmap, queue) := st
  let inodeSizeByte := sb.inodeSize * sb.blockSize
  let slot := (drive.fseek (sb.inodesStart + i * inodeSizeByte)).fread inodeSizeByte
  if slot.length < inodeSizeByte ∨
      sb.inodesSize * sizeofInode < i * sizeofInode + inodeSizeByte then none
  else
    let table := loadSlot table i slot
    if (table i).type = 0 then
      some (Function.update table i { table i with self := i }, bitmap, i :: queue)
    else do
      let bitmap ← markBlocks sb.totalDataBlocks (table i) 11 0 bitmap
      some (table, bitmap, i :: queue)

/-- `init`: read the inodes, set up the bitmap and the queue, and enter the root. It is `none` also
when an inode cannot be read, where `init` returns without a current directory. -/
def init (drive : File) (sb : SuperBlock) : Option Instance := do
  let bitmap ← setBit sb.totalDataBlocks (fun _ => false) 0 true
  let (inodes, dataBitmap, inodesSorted) ←
    (List.range sb.totalInodes).foldlM (initStep drive sb) (fun _ => Inode.zero, bitmap, [])
  let s : Instance :=
    { drive, sb, inodes, dataBitmap, inodesSorted, cwdNode := 0, cwd := [], stderr := [] }
  s.cdNode 0

end Instance

/-- The part of `main` that mounts an image. -/
def mount (drive : File) : Option Instance := Instance.init drive (readSuperblock drive)

/-! ### The shell -/

/-- Bytes that the shell can pass as an argument. The command line is a C string; only a backslash
at its end appends the NUL behind it, to the last argument. -/
def IsArg (a : List Byte) : Prop := 0 ∉ a.dropLast

instance (a : List Byte) : Decidable (IsArg a) := inferInstanceAs (Decidable (0 ∉ a.dropLast))

/-- An argument of a shell command. -/
abbrev Arg := {a : List Byte // IsArg a}

/-- The commands that change the state of the volume, with their arguments. -/
inductive Cmd
  | mkdir (name : Arg)
  | touch (name : Arg)
  | write (name data : Arg)
  | rm (name : Arg)
  | cd (name : Arg)

/-- `built_in_func`, with the recursion of `rm` bounded by `fuel`. -/
def builtInFunc (fuel : ℕ) (s : Instance) : Cmd → Option Instance
  | .cd name => do
      if name.1 = ascii ".." then
        let parent ← s.deref (s.inodes s.cwdNode).parent
        s.cdNode parent
      else s.cd name.1
  | .mkdir name => s.mkdir s.cwdNode name.1
  | .touch name => (s.touch s.cwdNode name.1).map Prod.snd
  | .write name data => (s.writeFileNamed name.1 data.1).map Prod.snd
  | .rm name => s.rm fuel s.cwdNode name.1

/-- The command `c` completes in `s` and leaves the volume in `s'`. -/
def Exec (s : Instance) (c : Cmd) (s' : Instance) : Prop := ∃ fuel, builtInFunc fuel s c = some s'

end MufaFs

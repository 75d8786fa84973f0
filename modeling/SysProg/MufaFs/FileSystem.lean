import SysProg.MufaFs.Instance

/-!
# What the file system is for

A hierarchical file system as its user sees it: a path leads to a file with a content, or to a
directory with names in it, or to nothing.  There are no inodes, no blocks and no drive, and space
does not run out.

* `FileSystem.exec`: the commands of the shell;
* `FileSystem.ls`, `FileSystem.cat`: what the shell can read.
-/

namespace MufaFs

open ByteFile

/-- The names from the root on. -/
abbrev Path := List (List Byte)

/-- A file with its content, or a directory with the names in it, in the order in which they came. -/
inductive Item
  | file (content : List Byte)
  | dir (names : List (List Byte))
  deriving DecidableEq

/-- The items by their paths, the path of the current directory, and the messages so far. -/
@[ext] structure FileSystem where
  item : Path → Option Item
  cwd : Path
  stderr : List Diagnostic

namespace FileSystem

/-- The file system of a new volume: the root is an empty directory. -/
def empty : FileSystem where
  item path := if path = [] then some (.dir []) else none
  cwd := []
  stderr := []

/-- The path of a name in the current directory. -/
def path (fs : FileSystem) (name : List Byte) : Path := fs.cwd ++ [name]

def report (fs : FileSystem) (d : Diagnostic) : FileSystem := { fs with stderr := fs.stderr ++ [d] }

/-- The names in the current directory. -/
def ls (fs : FileSystem) : List (List Byte) :=
  match fs.item fs.cwd with
  | some (.dir names) => names
  | _ => []

/-- The content of a file in the current directory, and the message if there is none. -/
def cat (fs : FileSystem) (name : List Byte) : List Byte × FileSystem :=
  match fs.item (fs.path name) with
  | some (.file content) => (content, fs)
  | some (.dir _) => ([], fs.report (.notAFile name))
  | none => ([], fs.report (.fileDoesNotExist name))

/-- An item is put at a path. -/
def put (fs : FileSystem) (path : Path) (item : Item) : FileSystem :=
  { fs with item := Function.update fs.item path (some item) }

/-- A new item in the current directory. -/
def create (fs : FileSystem) (name : List Byte) (item : Item) : FileSystem :=
  (fs.put fs.cwd (.dir (fs.ls ++ [name]))).put (fs.path name) item

/-- A name is removed from the current directory, with everything below it. -/
def remove (fs : FileSystem) (name : List Byte) : FileSystem :=
  { fs with item := fun path => if fs.path name <+: path then none
      else (fs.put fs.cwd (.dir (fs.ls.erase name))).item path }

/-- The commands that change something. -/
def exec (fs : FileSystem) : Cmd → FileSystem
  | .mkdir name => fs.create name.1 (.dir [])
  | .touch name => fs.create name.1 (.file [])
  | .write name data =>
      match fs.item (fs.path name.1) with
      | some (.file _) => fs.put (fs.path name.1) (.file data.1)
      | some (.dir _) => fs.report (.notAFile name.1)
      | none => fs.create name.1 (.file data.1)
  | .rm name =>
      match fs.item (fs.path name.1) with
      | some _ => fs.remove name.1
      | none => fs.report (.fileDoesNotExist name.1)
  | .cd name =>
      if name.1 = ascii ".." then { fs with cwd := fs.cwd.dropLast }
      else match fs.item (fs.path name.1) with
        | some (.dir _) => { fs with cwd := fs.path name.1 }
        | some (.file _) => fs.report (.notADirectory name.1)
        | none => fs.report (.directoryDoesNotExist name.1)

end FileSystem

end MufaFs

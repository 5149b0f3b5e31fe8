import Mathlib.Data.List.Basic
import ApueCourse.Memory.CString

/-! What `myfind` sees of the file system, and the tree of objects behind it. -/

namespace ApueCourse.Find

open Memory

/-- The bytes of a pathname, without the terminating NUL. -/
abbrev Path := List Byte

def slash : Byte := 47

/-- `st_mode & S_IFMT`. -/
inductive FileType
  | reg
  | dir
  | blk
  | chr
  | fifo
  | lnk
  | sock
  deriving DecidableEq, Repr

structure Stat where
  st_mode : FileType
  st_size : Int
  deriving DecidableEq, Repr

/-- What `readdir` can put into `d_name`. -/
structure Name where
  bytes : List Byte
  ne_nil : bytes ≠ []
  no_slash : slash ∉ bytes
  no_nul : 0 ∉ bytes
  deriving DecidableEq

def Name.isDot (name : Name) : Bool :=
  name.bytes = [46] ∨ name.bytes = [46, 46]

/-- The system calls of the walk at a moment: `none` is a failing call.  `opendir`
gives the names in the order of `readdir`, `.` and `..` among them. -/
structure FileSystem where
  lstat : Path → Option Stat
  opendir : Path → Option (List Name)

/-! Finite trees of objects, with the entries of a directory in `readdir` order. -/

mutual
inductive Tree
  | file (stat : Stat)
  | nostat
  | unreadable (stat : Stat)
  | dir (stat : Stat) (entries : Entries)

inductive Entries
  | nil
  | cons (name : Name) (tree : Tree) (rest : Entries)
end

/-- The pathname with which a directory's entries begin. -/
def slashed (path : Path) : Path :=
  if path.getLast? = some slash then path else path ++ [slash]

def Entries.names : Entries → List Name
  | .nil => []
  | .cons name _ rest => name :: rest.names

mutual
/-- At `path` the file system shows the tree. -/
def Tree.Shows (fs : FileSystem) (path : Path) : Tree → Prop
  | .file stat => fs.lstat path = some stat ∧ stat.st_mode ≠ .dir
  | .nostat => fs.lstat path = none
  | .unreadable stat =>
      fs.lstat path = some stat ∧ stat.st_mode = .dir ∧
        fs.opendir (slashed path) = none
  | .dir stat entries =>
      fs.lstat path = some stat ∧ stat.st_mode = .dir ∧
        (∃ names, fs.opendir (slashed path) = some names ∧
          names.filter (fun name => !name.isDot) = entries.names) ∧
        entries.names.Nodup ∧ entries.Shows fs (slashed path)

def Entries.Shows (fs : FileSystem) (base : Path) : Entries → Prop
  | .nil => True
  | .cons name tree rest =>
      tree.Shows fs (base ++ name.bytes) ∧ rest.Shows fs base
end

mutual
/-- Every object at or below `path` with its pathname, directories before their
contents. -/
def Tree.objects (path : Path) : Tree → List (Path × Tree)
  | .file stat => [(path, .file stat)]
  | .nostat => [(path, .nostat)]
  | .unreadable stat => [(path, .unreadable stat)]
  | .dir stat entries =>
      (path, .dir stat entries) :: entries.objects (slashed path)

def Entries.objects (base : Path) : Entries → List (Path × Tree)
  | .nil => []
  | .cons name tree rest =>
      tree.objects (base ++ name.bytes) ++ rest.objects base
end

mutual
def Tree.depth : Tree → Nat
  | .file _ | .nostat | .unreadable _ => 0
  | .dir _ entries => entries.depth + 1

def Entries.depth : Entries → Nat
  | .nil => 0
  | .cons _ tree rest => max tree.depth rest.depth
end

/-- The longest pathname the walk makes for an object itself. -/
def Tree.walked (path : Path) : Tree → Path
  | .file _ | .nostat => path
  | .unreadable _ | .dir _ _ => slashed path

/-- All pathnames of the tree, their NUL included, fit a buffer of `size` bytes. -/
def Tree.Fits (size : Nat) (path : Path) (tree : Tree) : Prop :=
  ∀ object ∈ tree.objects path, (object.2.walked object.1).length < size

end ApueCourse.Find

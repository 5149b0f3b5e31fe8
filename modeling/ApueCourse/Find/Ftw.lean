import ApueCourse.Control.EarlyExit
import ApueCourse.Find.FileTree

/-! `myFTW` and `doPath`: the walk that edits the one buffer `fullpath` in place. -/

namespace ApueCourse.Find

open Memory Control

/-- Why a computation does not return: the bound on the recursion is used up, an
access outside an object, or `exit`. -/
inductive Stop
  | fuel
  | undefined
  | exit (status : Int)
  deriving DecidableEq, Repr

def orUndefined : Option α → Except Stop α
  | none => .error .undefined
  | some a => .ok a

@[simp] theorem orUndefined_some (a : α) : orUndefined (some a) = .ok a := rfl

@[simp] theorem ok_bind (a : α) (f : α → Except Stop β) :
    (Except.ok a >>= f) = f a := rfl

inductive Ftw
  | F
  | D
  | DNR
  | NS
  deriving DecidableEq, Repr

/-- The arguments of one call of the callback.  With `FTW_NS` the `struct stat`
holds whatever `lstat` left in it. -/
structure Call where
  pathname : Path
  statptr : Option Stat
  type : Ftw
  deriving DecidableEq

/-- A `myFindFunc` over a state of its own. -/
abbrev FindFunc (σ : Type) := Call → σ → Except Stop (Int × σ)

/-- The buffer `fullpath` and the state of the callback. -/
structure World (σ : Type) where
  fullpath : Block
  state : σ

def World.call (w : World σ) (func : FindFunc σ) (pathname : Path)
    (statptr : Option Stat) (type : Ftw) : Except Stop (Int × World σ) :=
  match func ⟨pathname, statptr, type⟩ w.state with
  | .error stop => .error stop
  | .ok (ret, state) => .ok (ret, { w with state })

/-- `ptr = fullpath + strlen(fullpath); if (*(ptr-1) != '/') { *ptr++ = '/'; *ptr = 0; }`
with `ptr` as an index into the buffer. -/
def appendSlash (fullpath : Block) (length : Nat) : Except Stop (Nat × Block) :=
  if length = 0 then
    .error .undefined
  else if fullpath[length - 1]? = some slash then
    .ok (length, fullpath)
  else do
    let fullpath ← orUndefined (store fullpath length slash)
    let fullpath ← orUndefined (store fullpath (length + 1) 0)
    return (length + 1, fullpath)

/-- The `while` loop of `doPath` over the names that `readdir` still gives. -/
def readEntries (visit : World σ → Except Stop (Int × World σ)) (ptr : Nat) :
    List Name → Int → World σ → Except Stop (Int × World σ)
  | [], ret, w => .ok (ret, w)
  | name :: rest, ret, w =>
      if name.isDot then
        readEntries visit ptr rest ret w
      else do
        let fullpath ← orUndefined (strcpy w.fullpath ptr name.bytes)
        let (ret, w) ← visit { w with fullpath }
        if ret ≠ 0 then
          return (ret, w)
        else
          readEntries visit ptr rest ret w

def doPath (fs : FileSystem) (func : FindFunc σ) :
    Nat → World σ → Except Stop (Int × World σ)
  | 0, _ => .error .fuel
  | fuel + 1, w => do
      let path ← orUndefined (cstring w.fullpath)
      match fs.lstat path with
      | none => w.call func path none .NS
      | some statbuf =>
          if statbuf.st_mode ≠ .dir then
            w.call func path (some statbuf) .F
          else do
            let (ret, w) ← w.call func path (some statbuf) .D
            if ret ≠ 0 then
              return (ret, w)
            let (ptr, fullpath) ← appendSlash w.fullpath path.length
            let w := { w with fullpath }
            let path ← orUndefined (cstring w.fullpath)
            match fs.opendir path with
            | none => w.call func path (some statbuf) .DNR
            | some names =>
                let (ret, w) ← readEntries (doPath fs func fuel) ptr names ret w
                let fullpath ← orUndefined (store w.fullpath (ptr - 1) 0)
                return (ret, { w with fullpath })

/-- `size` is what `path_alloc` reports for the buffer it allocates. -/
def myFTW (fs : FileSystem) (fuel size : Nat) (pathname : Path)
    (func : FindFunc σ) (state : σ) : Except Stop (Int × World σ) := do
  let fullpath ← orUndefined (store (strncpyBytes pathname size) (size - 1) 0)
  doPath fs func fuel { fullpath, state }

end ApueCourse.Find

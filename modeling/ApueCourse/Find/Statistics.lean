import ApueCourse.Find.Preorder

/-! The statistics of `myfind <pathname>`. -/

namespace ApueCourse.Find

open Memory Control

@[ext]
structure Statistics where
  nreg : Nat
  nsreg : Nat
  ndir : Nat
  nblk : Nat
  nslink : Nat
  nchr : Nat
  nfifo : Nat
  nsock : Nat
  deriving DecidableEq

def Statistics.zero : Statistics := ⟨0, 0, 0, 0, 0, 0, 0, 0⟩

/-- The `switch` of `findStat`. -/
def Statistics.count (s : Statistics) (call : Call) : Statistics :=
  match call.type with
  | .F =>
      match call.statptr with
      | none => s
      | some statptr =>
          match statptr.st_mode with
          | .blk => { s with nblk := s.nblk + 1 }
          | .chr => { s with nchr := s.nchr + 1 }
          | .fifo => { s with nfifo := s.nfifo + 1 }
          | .lnk => { s with nslink := s.nslink + 1 }
          | .sock => { s with nsock := s.nsock + 1 }
          | .dir => s
          | .reg =>
              if statptr.st_size ≤ 4096 ∧ 0 ≤ statptr.st_size then
                { s with nreg := s.nreg + 1, nsreg := s.nsreg + 1 }
              else
                { s with nreg := s.nreg + 1 }
  | .D => { s with ndir := s.ndir + 1 }
  | .DNR | .NS => s

def findStat : FindFunc Statistics := fun call s => return (0, s.count call)

theorem findStat_zero (call : Call) (s : Statistics) :
    ∃ s', findStat call s = .ok (0, s') := ⟨s.count call, rfl⟩

/-- The counters of `main` together; `nsreg` counts among the regular files. -/
def Statistics.total (s : Statistics) : Nat :=
  s.nreg + s.ndir + s.nblk + s.nchr + s.nfifo + s.nslink + s.nsock

/-! The specification. -/

/-- What `lstat` tells of an object. -/
def Tree.stat : Tree → Option Stat
  | .file stat | .unreadable stat | .dir stat _ => some stat
  | .nostat => none

def Tree.is (type : FileType) (tree : Tree) : Bool :=
  tree.stat.any fun stat => stat.st_mode = type

/-- A regular file of at most 4096 bytes. -/
def Tree.small (tree : Tree) : Bool :=
  tree.stat.any fun stat => stat.st_mode = .reg ∧ stat.st_size ≤ 4096

/-- The numbers of the objects of each type, and of the small regular files. -/
def census (objects : List (Path × Tree)) : Statistics where
  nreg := objects.countP fun object => object.2.is .reg
  nsreg := objects.countP fun object => object.2.small
  ndir := objects.countP fun object => object.2.is .dir
  nblk := objects.countP fun object => object.2.is .blk
  nslink := objects.countP fun object => object.2.is .lnk
  nchr := objects.countP fun object => object.2.is .chr
  nfifo := objects.countP fun object => object.2.is .fifo
  nsock := objects.countP fun object => object.2.is .sock

/-- Every object that `lstat` reaches has one type. -/
theorem total_census (objects : List (Path × Tree)) :
    (census objects).total = objects.countP fun object => object.2.stat.isSome := by
  induction objects with
  | nil => rfl
  | cons object rest ih =>
      simp only [Statistics.total, census, List.countP_cons] at ih ⊢
      cases hstat : object.2.stat with
      | none =>
          simp only [Tree.is, hstat, Option.any_none, Bool.false_eq_true, if_false,
            Option.isSome_none, Nat.add_zero]
          exact ih
      | some stat =>
          rw [← ih]
          simp only [Tree.is, hstat, Option.any_some, Option.isSome_some, if_true,
            decide_eq_true_eq]
          cases hmode : stat.st_mode <;> simp only [reduceCtorEq, if_true, if_false] <;> omega

end ApueCourse.Find

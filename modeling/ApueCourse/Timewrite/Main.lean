import ApueCourse.Memory.File
import ApueCourse.Program.Runs

/-! `timewrite.c`: a file is read into memory and written again and again, each time with
another size of the buffer. -/

namespace ApueCourse.Timewrite

open Memory Program

/-- What `report_result` prints, but for the times of `times`. -/
structure Row where
  buffer_size : Nat
  real : Int
  loop_time : Int
  deriving DecidableEq

/-- The calls of the program.  A write comes with the offset in `src` of what it is given. -/
inductive Op
  | openTarget (sync : Bool)
  | seekEnd
  | rewindInput
  | malloc (size : Nat)
  | read (count : Nat)
  | rewindTarget
  | times
  | write (offset : Nat) (bytes : List Byte)
  | sysconf
  | printf (row : Row)
  deriving DecidableEq

def Op.Res : Op → Type
  | .openTarget _ | .rewindTarget => Bool
  | .seekEnd => Option Nat
  | .malloc _ => Option Block
  | .read _ => Option (List Byte)
  | .times => Option Int
  | .write .. | .sysconf => Int
  | .rewindInput | .printf _ => Unit

/-- The regular file on the standard input and the file of `argv[1]`, with their offsets. -/
structure World where
  input : List Byte
  inpos : Nat
  output : List Byte
  outpos : Nat
  deriving DecidableEq

def World.written (w : World) (bytes : List Byte) : World :=
  if bytes = [] then w
  else { w with output := writeAt w.output w.outpos bytes, outpos := w.outpos + bytes.length }

/-- What the system may answer.  A read gives at least one byte where there is one, and a write
may take less than it is given. -/
inductive Sys : (op : Op) → World → op.Res → World → Prop
  | opened {w : World} {sync : Bool} :
      Sys (.openTarget sync) w true { w with output := [], outpos := 0 }
  | refused {w : World} {sync : Bool} : Sys (.openTarget sync) w false w
  | seekEnd {w : World} (hlength : w.input.length < 2 ^ 63) :
      Sys .seekEnd w (some w.input.length) { w with inpos := w.input.length }
  | notSeekable {w : World} : Sys .seekEnd w none w
  | rewindInput {w : World} : Sys .rewindInput w () { w with inpos := 0 }
  | malloc {w : World} {size : Nat} {block : Block} (hblock : block.length = size) :
      Sys (.malloc size) w (some block) w
  | noMemory {w : World} {size : Nat} : Sys (.malloc size) w none w
  | read {w : World} {count k : Nat} (hcount : k ≤ count) (hleft : w.inpos + k ≤ w.input.length)
      (hsome : 0 < count → w.inpos < w.input.length → 0 < k) :
      Sys (.read count) w (some (readAt w.input w.inpos k)) { w with inpos := w.inpos + k }
  | readError {w : World} {count : Nat} : Sys (.read count) w none w
  | rewindTarget {w : World} : Sys .rewindTarget w true { w with outpos := 0 }
  | notRewound {w : World} : Sys .rewindTarget w false w
  | times {w : World} {ticks : Int} : Sys .times w (some ticks) w
  | timesError {w : World} : Sys .times w none w
  | write {w : World} {offset : Nat} {bytes : List Byte} {k : Nat} (hk : k ≤ bytes.length) :
      Sys (.write offset bytes) w (k : Int) (w.written (bytes.take k))
  | writeError {w : World} {offset : Nat} {bytes : List Byte} :
      Sys (.write offset bytes) w (-1 : Int) w
  | sysconf {w : World} {ticks : Int} : Sys .sysconf w ticks w
  | printf {w : World} {row : Row} : Sys (.printf row) w () w

/-- `fault` is an access outside of a buffer. -/
inductive Stop
  | exit (status : Nat)
  | fault
  | spin
  deriving DecidableEq

abbrev P := Prog Op Op.Res Stop

/-- The bytes at `(char *)src + offset`. -/
def bytesAt (src : Block) (offset count : Nat) : P (List Byte) :=
  if offset + count ≤ src.length then .ret (readAt src offset count) else .stop .fault

def write (offset : Nat) (bytes : List Byte) : P Int := .call (.write offset bytes) .ret

def times : P Int :=
  .call .times fun ticks => match ticks with
    | none => .stop (.exit 1)
    | some ticks => .ret ticks

/-- The product of two values of `size_t`. -/
def mulSize (a b : Nat) : Nat := a * b % 2 ^ 64

/-- The loop over `loop_count`, which has so many turns to make. -/
def writeLoop (src : Block) (buffer_size : Nat) : Nat → Nat → P Unit
  | 0, _ => .ret ()
  | turns + 1, loop_count => do
      let offset := mulSize loop_count buffer_size
      let bytes ← bytesAt src offset buffer_size
      let n ← write offset bytes
      if n ≠ buffer_size then .stop (.exit 1)
      else writeLoop src buffer_size turns (loop_count + 1)

/-- One turn of the loop over `buffer_size`, up to `report_result`: `loop_time` in the end, and
the ticks.  The result of the last `write` is compared as a `size_t`. -/
def pass (src : Block) (file_len buffer_size : Nat) : P (Nat × Int) :=
  let loop_time := file_len / buffer_size
  .call .rewindTarget fun (rewound : Bool) =>
    if rewound = false then .stop (.exit 1)
    else do
      let start ← times
      writeLoop src buffer_size loop_time 0
      let offset := mulSize loop_time buffer_size
      let bytes ← bytesAt src offset (file_len % buffer_size)
      let n ← write offset bytes
      if n % 2 ^ 64 ≠ ((file_len % buffer_size : Nat) : Int) then .stop (.exit 1)
      else do
        let finish ← times
        return (if file_len % buffer_size ≠ 0 then loop_time + 1 else loop_time, finish - start)

/-- The static `clktck` of `report_result`, which is asked for once. -/
def clockTicks (clktck : Int) : P Int :=
  if clktck = 0 then
    .call .sysconf fun (ticks : Int) => if ticks < 0 then .stop (.exit 1) else .ret ticks
  else .ret clktck

/-- The parameter `loop_time` is an `int`; the result is `clktck`. -/
def report_result (buffer_size : Nat) (real : Int) (loop_time : Nat) (clktck : Int) : P Int := do
  let clktck ← clockTicks clktck
  .call (.printf { buffer_size, real, loop_time := Int.bmod loop_time (2 ^ 32) }) fun _ =>
    .ret clktck

/-- The loop over `buffer_size`. -/
def sizeLoop (src : Block) (file_len : Nat) : Nat → Nat → Int → P Unit
  | 0, _, _ => .stop .spin
  | fuel + 1, buffer_size, clktck =>
      if buffer_size ≤ 524288 then do
        let (loop_time, real) ← pass src file_len buffer_size
        let clktck ← report_result buffer_size real loop_time clktck
        sizeLoop src file_len fuel (buffer_size * 2) clktck
      else
        .ret ()

/-- The loop is at its end before its turn 21. -/
def write_test (src : Block) (file_len : Nat) : P Unit := sizeLoop src file_len 21 1 0

/-- `"sync"`. -/
def sync : List Byte := [115, 121, 110, 99]

def orFault : Option Block → P Block
  | none => .stop .fault
  | some block => .ret block

def main (argv : List (List Byte)) : P Unit :=
  if (argv.length ≠ 2 ∧ argv.length ≠ 3) ∨
      (argv.length = 3 ∧ ¬ sync.isPrefixOf (argv.getD 2 [])) then
    .stop (.exit 1)
  else
    .call (.openTarget (argv.length ≠ 2)) fun (opened : Bool) =>
      if opened = false then .stop (.exit 1)
      else .call .seekEnd fun (seek_res : Option Nat) =>
        match seek_res with
        | none => .stop (.exit 1)
        | some file_len => .call .rewindInput fun _ => .call (.malloc file_len) fun buf =>
            match buf with
            | none => .stop (.exit 1)
            | some buf => .call (.read file_len) fun bytes =>
                match bytes with
                | none => .stop (.exit 1)
                -- how many bytes there are is not looked at
                | some bytes => do
                    let buf ← orFault (blit buf 0 bytes)
                    write_test buf file_len
                    .stop (.exit 0)

end ApueCourse.Timewrite

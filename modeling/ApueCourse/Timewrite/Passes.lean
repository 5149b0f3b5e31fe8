import ApueCourse.Timewrite.Main

/-! The passes of `write_test`: each writes the whole of `src` once. -/

namespace ApueCourse.Timewrite

open Memory Program Program.Prog

abbrev Call := Made Op Op.Res

structure Request where
  offset : Nat
  bytes : List Byte

/-- The requests to write among the calls. -/
def requests : List Call → List Request
  | [] => []
  | ⟨.write offset bytes, _⟩ :: rest => ⟨offset, bytes⟩ :: requests rest
  | _ :: rest => requests rest

theorem requests_append (first second : List Call) :
    requests (first ++ second) = requests first ++ requests second := by
  induction first with
  | nil => rfl
  | cons call first ih =>
      obtain ⟨op, result⟩ := call
      cases op with
      | write offset bytes => exact congrArg (Request.mk offset bytes :: ·) ih
      | openTarget | seekEnd | rewindInput | malloc | read | rewindTarget | times | sysconf
        | printf => exact ih

/-- A write that has transferred all it was asked to. -/
def Full : Call → Prop
  | ⟨.write _ bytes, (n : Int)⟩ => n = bytes.length
  | _ => True

/-- The request for `count` bytes of `src`. -/
def Request.from (src : Block) (offset count : Nat) : Request :=
  ⟨offset, readAt src offset count⟩

/-! One write. -/

theorem length_readAt {src : Block} {offset count : Nat} (hle : offset + count ≤ src.length) :
    (readAt src offset count).length = count := by
  rw [readAt, List.length_take, List.length_drop]
  omega

/-- So much of the output is new: what is behind it is from a pass before, or nothing. -/
structure Wrote (src : Block) (w : World) (n : Nat) : Prop where
  outpos : w.outpos = n
  output : w.output = src.take n ∨ w.output = src

theorem writeAt_self {src : Block} {n k : Nat} (hle : n + k ≤ src.length) :
    writeAt src n (readAt src n k) = src := by
  have hn : n ≤ src.length := by omega
  rw [writeAt, length_readAt hle, Nat.sub_eq_zero_of_le hn, List.replicate_zero, List.append_nil,
    readAt, List.append_assoc, ← List.drop_drop, List.take_append_drop, List.take_append_drop]

theorem writeAt_take {src : Block} {n k : Nat} (hle : n + k ≤ src.length) :
    writeAt (src.take n) n (readAt src n k) = src.take (n + k) := by
  have hlength : (src.take n).length = n := List.length_take_of_le (by omega)
  have hdrop : (src.take n).drop (n + (readAt src n k).length) = [] :=
    List.drop_eq_nil_of_le (by omega)
  rw [writeAt, hlength, Nat.sub_self, List.replicate_zero, List.append_nil, List.take_take,
    Nat.min_self, hdrop, List.append_nil, readAt, List.take_add]

theorem Wrote.step {src : Block} {w w' : World} {n k offset : Nat} (hwrote : Wrote src w n)
    (hle : n + k ≤ src.length) {r : Int}
    (hsys : Sys (.write offset (readAt src n k)) w r w') (hfull : r = k) :
    Wrote src w' (n + k) := by
  have hlength := length_readAt hle
  cases hsys with
  | writeError => omega
  | @write _ _ _ k' hk' =>
      obtain rfl : k' = k := Int.ofNat_inj.mp hfull
      rw [List.take_of_length_le hlength.le, World.written]
      split
      · rename_i hnil
        rw [hnil, List.length_nil] at hlength
        rw [← hlength]
        exact hwrote
      · refine ⟨by rw [hlength, hwrote.outpos], ?_⟩
        rw [hwrote.outpos]
        rcases hwrote.output with houtput | houtput
        · exact .inl (by rw [houtput, writeAt_take hle])
        · exact .inr (by rw [houtput, writeAt_self hle])

theorem Sys.write_le {w w' : World} {offset : Nat} {bytes : List Byte} {r : Int}
    (hsys : Sys (.write offset bytes) w r w') : -1 ≤ r ∧ r ≤ bytes.length := by
  cases hsys with
  | write hk => omega
  | writeError => omega

theorem of_write {α : Type} {offset : Nat} {bytes : List Byte} {f : Int → P α} {w w' : World}
    {made : List Call} {outcome : Except Stop α}
    (hrun : (write offset bytes >>= f).Runs Sys w made outcome w') :
    ∃ (n : Int) (middle : World) (rest : List Call), made = ⟨.write offset bytes, n⟩ :: rest ∧
      Sys (.write offset bytes) w n middle ∧ (f n).Runs Sys middle rest outcome w' :=
  hrun.of_call

/-! The loop over `loop_count`. -/

/-- The requests of full size from the turn `count` on. -/
def chunks (src : Block) (buffer_size count turns : Nat) : List Request :=
  (List.range' count turns).map fun i => .from src (i * buffer_size) buffer_size

theorem bytesAt_eq {src : Block} {offset count : Nat} (hle : offset + count ≤ src.length) :
    bytesAt src offset count = .ret (readAt src offset count) := if_pos hle

theorem mulSize_eq {a b : Nat} (hlt : a * b < 2 ^ 64) : mulSize a b = a * b :=
  Nat.mod_eq_of_lt hlt

/-- The loop writes as it is to, or stops behind a write that is not full. -/
theorem writeLoop_runs {src : Block} {buffer_size turns count : Nat} {w w' : World}
    {made : List Call} {outcome : Except Stop Unit} (hsrc : src.length < 2 ^ 64)
    (hle : (count + turns) * buffer_size ≤ src.length)
    (hwrote : Wrote src w (count * buffer_size))
    (hrun : (writeLoop src buffer_size turns count).Runs Sys w made outcome w') :
    (outcome = .ok () ∧ Wrote src w' ((count + turns) * buffer_size) ∧
        requests made = chunks src buffer_size count turns) ∨
      outcome = .error (.exit 1) ∧ (∃ call ∈ made, ¬ Full call) ∧
        requests made <+: chunks src buffer_size count turns := by
  induction turns generalizing count w made with
  | zero =>
      obtain ⟨rfl, rfl, rfl⟩ := hrun.of_ret
      exact .inl ⟨rfl, hwrote, rfl⟩
  | succ turns ih =>
      have hnext : count * buffer_size + buffer_size ≤ src.length := by
        have hmono : (count + 1) * buffer_size ≤ (count + (turns + 1)) * buffer_size :=
          Nat.mul_le_mul_right _ (by omega)
        rw [Nat.succ_mul] at hmono
        omega
      have hoffset : mulSize count buffer_size = count * buffer_size := mulSize_eq (by omega)
      have hrest : count + 1 + turns = count + (turns + 1) := by omega
      rw [writeLoop, hoffset, bytesAt_eq hnext] at hrun
      obtain ⟨n, middle, rest, rfl, hsys, hrun⟩ := of_write hrun
      have hfirst : chunks src buffer_size count (turns + 1) =
          .from src (count * buffer_size) buffer_size ::
            chunks src buffer_size (count + 1) turns := rfl
      rw [hfirst]
      split at hrun
      · rename_i hshort
        obtain ⟨rfl, rfl, -⟩ := hrun.of_stop
        refine .inr ⟨rfl, ⟨_, List.mem_singleton_self _, fun hfull => hshort ?_⟩, ?_⟩
        · exact hfull.trans (congrArg Nat.cast (length_readAt hnext))
        · exact (List.prefix_cons_inj _).mpr (List.nil_prefix)
      · rename_i hfull
        have hwrote' := hwrote.step hnext hsys (not_not.mp hfull)
        rw [← Nat.succ_mul] at hwrote'
        rcases ih (by rwa [hrest]) hwrote' hrun with ⟨hok, hend, hrequests⟩ | ⟨hstop, hshort, hrequests⟩
        · rw [hrest] at hend
          exact .inl ⟨hok, hend, congrArg (_ :: ·) hrequests⟩
        · obtain ⟨call, hcall, hshort⟩ := hshort
          refine .inr ⟨hstop, ⟨call, List.mem_cons_of_mem _ hcall, hshort⟩, ?_⟩
          exact (List.prefix_cons_inj _).mpr hrequests

/-! One pass. -/

/-- All requests of a pass, the last of them for the remainder. -/
def passRequests (src : Block) (buffer_size : Nat) : List Request :=
  chunks src buffer_size 0 (src.length / buffer_size) ++
    [.from src (src.length / buffer_size * buffer_size) (src.length % buffer_size)]

/-- A call that has made a pass stop. -/
def Stopped (made : List Call) : Prop :=
  (∃ call ∈ made, ¬ Full call) ∨ ⟨.rewindTarget, false⟩ ∈ made ∨ ⟨.times, none⟩ ∈ made

theorem Stopped.right {made : List Call} (hstopped : Stopped made) (more : List Call) :
    Stopped (more ++ made) := by
  rcases hstopped with ⟨call, hcall, hfull⟩ | hrewind | htimes
  · exact .inl ⟨call, List.mem_append_right _ hcall, hfull⟩
  · exact .inr (.inl (List.mem_append_right _ hrewind))
  · exact .inr (.inr (List.mem_append_right _ htimes))

theorem times_runs {w w' : World} {made : List Call} {outcome : Except Stop Int}
    (hrun : times.Runs Sys w made outcome w') :
    requests made = [] ∧ w' = w ∧
      ((∃ ticks, outcome = .ok ticks) ∨ outcome = .error (.exit 1) ∧ Stopped made) := by
  obtain ⟨ticks, middle, rest, rfl, hsys, hrun⟩ := hrun.of_call
  cases hsys with
  | times =>
      obtain ⟨rfl, rfl, rfl⟩ := hrun.of_ret
      exact ⟨rfl, rfl, .inl ⟨_, rfl⟩⟩
  | timesError =>
      obtain ⟨rfl, rfl, rfl⟩ := hrun.of_stop
      exact ⟨rfl, rfl, .inr ⟨rfl, .inr (.inr (List.mem_singleton_self _))⟩⟩

/-- The comparison of the last `write` as a `size_t`. -/
theorem emod_eq_iff {n : Int} {count : Nat} (hcount : count < 2 ^ 63) (hn : -1 ≤ n)
    (hle : n ≤ count) : n % 2 ^ 64 = count ↔ n = count := by
  omega

theorem Wrote.whole {src : Block} {w : World} (hwrote : Wrote src w src.length) :
    w.output = src := by
  have houtput := hwrote.output
  rwa [List.take_length, or_self] at houtput

/-- What a pass does behind its loop. -/
theorem remainder_runs {src : Block} {offset count loop_time : Nat} {start : Int} {w w' : World}
    {made : List Call} {outcome : Except Stop (Nat × Int)} (hcount : count < 2 ^ 63)
    (hwhole : offset + count = src.length) (hwrote : Wrote src w offset)
    (hrun : (write offset (readAt src offset count) >>= fun n =>
        if n % 2 ^ 64 ≠ (count : Int) then .stop (.exit 1)
        else times >>= fun finish => .ret (loop_time, finish - start)).Runs Sys w made outcome w') :
    requests made = [.from src offset count] ∧
      ((∃ real, outcome = .ok (loop_time, real) ∧ w'.output = src) ∨
        outcome = .error (.exit 1) ∧ Stopped made) := by
  have hlength := length_readAt hwhole.le
  obtain ⟨n, middle, rest, rfl, hsys, hrun⟩ := of_write hrun
  have hn := hsys.write_le
  rw [hlength] at hn
  split at hrun
  · rename_i hshort
    obtain ⟨rfl, rfl, -⟩ := hrun.of_stop
    refine ⟨rfl, .inr ⟨rfl, .inl ⟨_, List.mem_singleton_self _, fun hfull => hshort ?_⟩⟩⟩
    rw [emod_eq_iff hcount hn.1 hn.2]
    exact hfull.trans (congrArg Nat.cast hlength)
  · rename_i hfull
    rw [not_not, emod_eq_iff hcount hn.1 hn.2] at hfull
    have hend := hwrote.step hwhole.le hsys hfull
    rw [hwhole] at hend
    rcases hrun.of_bind with ⟨ticks, middle', first, second, rfl, htimes, hret⟩ |
      ⟨reason, rfl, htimes⟩
    · obtain ⟨rfl, rfl, rfl⟩ := hret.of_ret
      obtain ⟨hrequests, rfl, -⟩ := times_runs htimes
      rw [List.append_nil]
      exact ⟨congrArg (_ :: ·) hrequests, .inl ⟨_, rfl, hend.whole⟩⟩
    · obtain ⟨hrequests, rfl, houtcome⟩ := times_runs htimes
      refine ⟨congrArg (_ :: ·) hrequests, .inr ?_⟩
      rcases houtcome with ⟨ticks, hok⟩ | ⟨hexit, hstopped⟩
      · cases hok
      · cases hexit
        exact ⟨rfl, hstopped.right [_]⟩

theorem pass_runs {src : Block} {buffer_size : Nat} {w w' : World} {made : List Call}
    {outcome : Except Stop (Nat × Int)} (hsrc : src.length < 2 ^ 64) (hsize : 0 < buffer_size)
    (hsize' : buffer_size < 2 ^ 63) (houtput : w.output = [] ∨ w.output = src)
    (hrun : (pass src src.length buffer_size).Runs Sys w made outcome w') :
    requests made <+: passRequests src buffer_size ∧
      ((∃ real, outcome = .ok (if src.length % buffer_size ≠ 0 then src.length / buffer_size + 1
            else src.length / buffer_size, real) ∧
          w'.output = src ∧ requests made = passRequests src buffer_size) ∨
        outcome = .error (.exit 1) ∧ Stopped made) := by
  have hdiv : src.length / buffer_size * buffer_size ≤ src.length := Nat.div_mul_le_self _ _
  have hwhole : src.length / buffer_size * buffer_size + src.length % buffer_size = src.length := by
    rw [Nat.mul_comm]
    exact Nat.div_add_mod ..
  have hrest : src.length % buffer_size < buffer_size := Nat.mod_lt _ hsize
  obtain ⟨rewound, middle, rest, rfl, hsys, hrun⟩ := hrun.of_call
  cases hsys with
  | notRewound =>
      obtain ⟨rfl, rfl, rfl⟩ := hrun.of_stop
      exact ⟨List.nil_prefix, .inr ⟨rfl, .inr (.inl (List.mem_singleton_self _))⟩⟩
  | rewindTarget =>
      have hwrote : Wrote src { w with outpos := 0 } (0 * buffer_size) := by
        refine ⟨(Nat.zero_mul _).symm, ?_⟩
        rw [Nat.zero_mul, List.take_zero]
        exact houtput
      have hloop : (0 + src.length / buffer_size) * buffer_size ≤ src.length := by
        rwa [Nat.zero_add]
      have hoffset : mulSize (src.length / buffer_size) buffer_size =
          src.length / buffer_size * buffer_size := mulSize_eq (by omega)
      rw [if_neg (by decide)] at hrun
      dsimp only at hrun
      rw [hoffset, bytesAt_eq hwhole.le] at hrun
      rcases hrun.of_bind with ⟨start, middle, first, second, rfl, hstart, hrun⟩ |
        ⟨reason, rfl, hstart⟩
      · obtain ⟨hnone, rfl, -⟩ := times_runs hstart
        rcases hrun.of_bind with ⟨⟨⟩, middle', first', second', rfl, hturns, hrun⟩ |
          ⟨reason, rfl, hturns⟩
        · rcases writeLoop_runs hsrc hloop hwrote hturns with ⟨-, hend, hchunks⟩ | ⟨herror, -⟩
          · rw [Nat.zero_add] at hend
            obtain ⟨hlast, houtcome⟩ := remainder_runs (by omega) hwhole hend hrun
            have hrequests : requests (⟨.rewindTarget, true⟩ :: (first ++ (first' ++ second'))) =
                passRequests src buffer_size := by
              have happend : requests (first ++ (first' ++ second')) =
                  passRequests src buffer_size := by
                rw [requests_append, requests_append, hnone, hchunks, hlast, List.nil_append]
                rfl
              exact happend
            refine ⟨hrequests ▸ List.prefix_refl _, ?_⟩
            rcases houtcome with ⟨real, hok, hsrc'⟩ | ⟨hexit, hstopped⟩
            · exact .inl ⟨real, hok, hsrc', hrequests⟩
            · exact .inr ⟨hexit, ((hstopped.right first').right first).right [_]⟩
          · cases herror
        · rcases writeLoop_runs hsrc hloop hwrote hturns with ⟨hok, -⟩ | ⟨herror, hshort, hchunks⟩
          · cases hok
          · cases herror
            have hrequests : requests (first ++ second) <+: passRequests src buffer_size := by
              rw [requests_append, hnone, List.nil_append]
              exact hchunks.trans (List.prefix_append _ _)
            refine ⟨hrequests, .inr ⟨rfl, ?_⟩⟩
            exact (Stopped.right (.inl hshort) first).right [_]
      · obtain ⟨hnone, rfl, houtcome⟩ := times_runs hstart
        have hrequests : requests rest <+: passRequests src buffer_size := by
          rw [hnone]
          exact List.nil_prefix
        refine ⟨hrequests, .inr ?_⟩
        rcases houtcome with ⟨ticks, hok⟩ | ⟨hexit, hstopped⟩
        · cases hok
        · cases hexit
          exact ⟨rfl, hstopped.right [_]⟩

/-! The requests of a pass. -/

/-- Each request begins where the one before it has ended. -/
def Consecutive : Nat → List Request → Nat → Prop
  | start, [], finish => start = finish
  | start, request :: rest, finish =>
      request.offset = start ∧ Consecutive (start + request.bytes.length) rest finish

def nonEmpty (requests : List Request) : List Request := requests.filter (·.bytes ≠ [])

/-- The bytes of the request are those of `src` at its offset. -/
def Request.Inside (src : Block) (request : Request) : Prop :=
  request.offset + request.bytes.length ≤ src.length ∧
    request.bytes = readAt src request.offset request.bytes.length

/-- The requests go through `src` once, from its beginning to its end. -/
structure WritesOnce (src : Block) (buffer_size : Nat) (requests : List Request) : Prop where
  inside : ∀ request ∈ requests, request.Inside src
  consecutive : Consecutive 0 requests src.length
  full : ∀ request ∈ (nonEmpty requests).dropLast, request.bytes.length = buffer_size
  count : (nonEmpty requests).length = (src.length + buffer_size - 1) / buffer_size

theorem Request.from_inside {src : Block} {offset count : Nat} (hle : offset + count ≤ src.length) :
    (Request.from src offset count).Inside src := by
  have hlength := length_readAt hle
  constructor
  · rw [Request.from, hlength]
    exact hle
  · rw [Request.from, hlength]

section Pass

variable {src : Block} {buffer_size : Nat}

theorem le_of_mem_chunks {count turns : Nat} {request : Request}
    (hle : (count + turns) * buffer_size ≤ src.length)
    (hrequest : request ∈ chunks src buffer_size count turns) :
    ∃ offset, request = .from src offset buffer_size ∧ offset + buffer_size ≤ src.length := by
  obtain ⟨i, hi, rfl⟩ := List.mem_map.mp hrequest
  obtain ⟨-, hlt⟩ := List.mem_range'_1.mp hi
  refine ⟨i * buffer_size, rfl, ?_⟩
  have hmono : (i + 1) * buffer_size ≤ (count + turns) * buffer_size :=
    Nat.mul_le_mul_right _ hlt
  rw [Nat.succ_mul] at hmono
  omega

theorem consecutive_chunks {count turns finish : Nat} {rest : List Request}
    (hle : (count + turns) * buffer_size ≤ src.length)
    (hrest : Consecutive ((count + turns) * buffer_size) rest finish) :
    Consecutive (count * buffer_size) (chunks src buffer_size count turns ++ rest) finish := by
  induction turns generalizing count with
  | zero => exact hrest
  | succ turns ih =>
      have hsame : count + (turns + 1) = count + 1 + turns := by omega
      rw [hsame] at hle hrest
      obtain ⟨-, hmono⟩ : (count + 1) * buffer_size = count * buffer_size + buffer_size ∧
          (count + 1) * buffer_size ≤ (count + 1 + turns) * buffer_size :=
        ⟨Nat.succ_mul _ _, Nat.mul_le_mul_right _ (Nat.le_add_right _ _)⟩
      rw [Nat.succ_mul] at hmono
      have hnext := ih hle hrest
      rw [Nat.succ_mul] at hnext
      refine ⟨rfl, ?_⟩
      have hlength : (readAt src (count * buffer_size) buffer_size).length = buffer_size :=
        length_readAt (by omega)
      have hgo : Consecutive (count * buffer_size + (readAt src (count * buffer_size)
          buffer_size).length) (chunks src buffer_size (count + 1) turns ++ rest) finish := by
        rw [hlength]
        exact hnext
      exact hgo

theorem loop_time_eq (hsize : 0 < buffer_size) (n : Nat) :
    (if n % buffer_size ≠ 0 then n / buffer_size + 1 else n / buffer_size) =
      (n + buffer_size - 1) / buffer_size := by
  have hdiv := Nat.div_add_mod n buffer_size
  have hlt := Nat.mod_lt n hsize
  split
  · have hsum : n + buffer_size - 1 =
        buffer_size * (n / buffer_size + 1) + (n % buffer_size - 1) := by
      rw [Nat.mul_succ]
      omega
    have hzero : (n % buffer_size - 1) / buffer_size = 0 := Nat.div_eq_of_lt (by omega)
    rw [hsum, Nat.mul_add_div hsize, hzero, Nat.add_zero]
  · have hsum : n + buffer_size - 1 = buffer_size * (n / buffer_size) + (buffer_size - 1) := by
      omega
    have hzero : (buffer_size - 1) / buffer_size = 0 := Nat.div_eq_of_lt (by omega)
    rw [hsum, Nat.mul_add_div hsize, hzero, Nat.add_zero]

theorem passRequests_writesOnce (hsize : 0 < buffer_size) :
    WritesOnce src buffer_size (passRequests src buffer_size) := by
  have hwhole : src.length / buffer_size * buffer_size + src.length % buffer_size = src.length := by
    rw [Nat.mul_comm]
    exact Nat.div_add_mod ..
  have hchunks : (0 + src.length / buffer_size) * buffer_size ≤ src.length := by
    rw [Nat.zero_add]
    exact Nat.div_mul_le_self _ _
  have hlast : (Request.from src (src.length / buffer_size * buffer_size)
      (src.length % buffer_size)).bytes.length = src.length % buffer_size := length_readAt hwhole.le
  have hfull : ∀ request ∈ chunks src buffer_size 0 (src.length / buffer_size),
      request.bytes.length = buffer_size := by
    intro request hrequest
    obtain ⟨offset, rfl, hle⟩ := le_of_mem_chunks hchunks hrequest
    exact length_readAt hle
  have hfilter : nonEmpty (chunks src buffer_size 0 (src.length / buffer_size)) =
      chunks src buffer_size 0 (src.length / buffer_size) := by
    rw [nonEmpty, List.filter_eq_self]
    intro request hrequest
    refine decide_eq_true fun hnil => ?_
    have hlength := hfull request hrequest
    rw [hnil, List.length_nil] at hlength
    omega
  have hnonEmpty : nonEmpty (passRequests src buffer_size) =
      chunks src buffer_size 0 (src.length / buffer_size) ++
        if src.length % buffer_size = 0 then []
        else [.from src (src.length / buffer_size * buffer_size) (src.length % buffer_size)] := by
    have hsingle : nonEmpty [Request.from src (src.length / buffer_size * buffer_size)
        (src.length % buffer_size)] = if src.length % buffer_size = 0 then []
          else [.from src (src.length / buffer_size * buffer_size) (src.length % buffer_size)] := by
      by_cases hzero : src.length % buffer_size = 0
      · rw [if_pos hzero]
        refine List.filter_cons_of_neg (decide_eq_true_iff.not.mpr (not_not_intro ?_))
        exact List.eq_nil_of_length_eq_zero (hlast.trans hzero)
      · rw [if_neg hzero]
        refine List.filter_cons_of_pos (decide_eq_true fun hnil => hzero ?_)
        rw [← hlast, hnil]
        rfl
    rw [← hsingle, ← hfilter, passRequests, nonEmpty, List.filter_append]
    rfl
  constructor
  case inside =>
    intro request hrequest
    rcases List.mem_append.mp hrequest with hchunk | hlast
    · obtain ⟨offset, rfl, hle⟩ := le_of_mem_chunks hchunks hchunk
      exact Request.from_inside hle
    · rw [List.mem_singleton.mp hlast]
      exact Request.from_inside hwhole.le
  case consecutive =>
    have hrest : Consecutive ((0 + src.length / buffer_size) * buffer_size)
        [.from src (src.length / buffer_size * buffer_size) (src.length % buffer_size)]
        src.length := by
      rw [Nat.zero_add]
      refine ⟨rfl, ?_⟩
      have hend : src.length / buffer_size * buffer_size +
          (readAt src (src.length / buffer_size * buffer_size)
            (src.length % buffer_size)).length = src.length := by
        rw [length_readAt hwhole.le, hwhole]
      exact hend
    have hall := consecutive_chunks hchunks hrest
    rwa [Nat.zero_mul] at hall
  case full =>
    intro request hrequest
    rw [hnonEmpty] at hrequest
    split at hrequest
    · rw [List.append_nil] at hrequest
      exact hfull request (List.dropLast_subset _ hrequest)
    · rw [List.dropLast_concat] at hrequest
      exact hfull request hrequest
  case count =>
    rw [← loop_time_eq hsize, hnonEmpty, List.length_append, chunks, List.length_map,
      List.length_range']
    by_cases hrest : src.length % buffer_size = 0
    · rw [if_pos hrest, if_neg (not_not_intro hrest)]
      rfl
    · rw [if_neg hrest, if_pos hrest]
      rfl

end Pass

/-! The passes of a run. -/

/-- The values of `buffer_size`, from 2^0 to 2^19. -/
def bufferSizes : List Nat := (List.range' 0 20).map (2 ^ ·)

/-- Passes with these sizes of the buffer, one behind the other. -/
inductive Passes (src : Block) : List Nat → World → World → Prop
  | nil (w : World) : Passes src [] w w
  | cons {buffer_size loop_time : Nat} {sizes : List Nat} {w w₁ w₂ w₃ : World}
      {real clktck clktck' : Int} {made reported : List Call}
      (hsize : buffer_size ∈ bufferSizes)
      (hpass : (pass src src.length buffer_size).Runs Sys w made (.ok (loop_time, real)) w₁)
      (hreport : (report_result buffer_size real loop_time clktck).Runs Sys w₁ reported
        (.ok clktck') w₂)
      (hrest : Passes src sizes w₂ w₃) : Passes src (buffer_size :: sizes) w w₃

theorem bounds_of_mem_bufferSizes {buffer_size : Nat} (hsize : buffer_size ∈ bufferSizes) :
    0 < buffer_size ∧ buffer_size < 2 ^ 63 := by
  have hall : ∀ n ∈ bufferSizes, 0 < n ∧ n < 2 ^ 63 := by decide
  exact hall buffer_size hsize

theorem clockTicks_runs {clktck : Int} {w w' : World} {made : List Call}
    {outcome : Except Stop Int} (hrun : (clockTicks clktck).Runs Sys w made outcome w') :
    w' = w ∧ ((∃ clktck', outcome = .ok clktck') ∨ outcome = .error (.exit 1)) := by
  rw [clockTicks] at hrun
  split at hrun
  · obtain ⟨ticks, middle, rest, rfl, hsys, hrun⟩ := hrun.of_call
    cases hsys
    split at hrun
    · obtain ⟨rfl, rfl, rfl⟩ := hrun.of_stop
      exact ⟨rfl, .inr rfl⟩
    · obtain ⟨rfl, rfl, rfl⟩ := hrun.of_ret
      exact ⟨rfl, .inl ⟨_, rfl⟩⟩
  · obtain ⟨rfl, rfl, rfl⟩ := hrun.of_ret
    exact ⟨rfl, .inl ⟨_, rfl⟩⟩

theorem report_result_runs {buffer_size loop_time : Nat} {real clktck : Int} {w w' : World}
    {made : List Call} {outcome : Except Stop Int}
    (hrun : (report_result buffer_size real loop_time clktck).Runs Sys w made outcome w') :
    w' = w ∧ ((∃ clktck', outcome = .ok clktck') ∨ outcome = .error (.exit 1)) := by
  rcases hrun.of_bind with ⟨ticks, middle, first, second, rfl, hfirst, hprint⟩ |
    ⟨reason, rfl, hstop⟩
  · obtain ⟨rfl, -⟩ := clockTicks_runs hfirst
    obtain ⟨⟨⟩, middle', rest, rfl, hsys, hret⟩ := hprint.of_call
    cases hsys
    obtain ⟨rfl, rfl, rfl⟩ := hret.of_ret
    exact ⟨rfl, .inl ⟨_, rfl⟩⟩
  · obtain ⟨rfl, ⟨ticks, hok⟩ | hexit⟩ := clockTicks_runs hstop
    · cases hok
    · exact ⟨rfl, .inr (congrArg Except.error (Except.error.inj hexit))⟩

theorem Passes.output {src : Block} {sizes : List Nat} {w w' : World} (hsrc : src.length < 2 ^ 64)
    (hpasses : Passes src sizes w w') (houtput : w.output = [] ∨ w.output = src) :
    w'.output = src ∨ sizes = [] ∧ w'.output = w.output := by
  induction hpasses with
  | nil w => exact .inr ⟨rfl, rfl⟩
  | cons hsize hpass hreport hrest ih =>
      obtain ⟨hpos, hlt⟩ := bounds_of_mem_bufferSizes hsize
      obtain ⟨-, ⟨real, -, hafter, -⟩ | ⟨herror, -⟩⟩ := pass_runs hsrc hpos hlt houtput hpass
      · obtain ⟨rfl, -⟩ := report_result_runs hreport
        rcases ih (.inr hafter) with hend | ⟨-, hend⟩
        · exact .inl hend
        · exact .inl (hend.trans hafter)
      · cases herror

theorem sizeLoop_runs {src : Block} {k fuel : Nat} {clktck : Int} {w w' : World}
    {made : List Call} {outcome : Except Stop Unit} (hsrc : src.length < 2 ^ 64)
    (hfuel : k + fuel = 21) (hk : 0 < fuel) (houtput : w.output = [] ∨ w.output = src)
    (hrun : (sizeLoop src src.length fuel (2 ^ k) clktck).Runs Sys w made outcome w') :
    (outcome = .ok () ∧ Passes src ((List.range' k (20 - k)).map (2 ^ ·)) w w') ∨
      outcome = .error (.exit 1) := by
  induction fuel generalizing k clktck w made with
  | zero => exact absurd hk (Nat.lt_irrefl 0)
  | succ fuel ih =>
      rw [sizeLoop] at hrun
      split at hrun
      · rename_i hle
        have hlt : k < 20 := by
          by_contra hge
          have hpow : 2 ^ 20 ≤ 2 ^ k := Nat.pow_le_pow_right (by decide) (Nat.le_of_not_lt hge)
          omega
        have hsize : 2 ^ k ∈ bufferSizes :=
          List.mem_map_of_mem (List.mem_range'_1.mpr ⟨Nat.zero_le k, by omega⟩)
        obtain ⟨hpos, hbound⟩ := bounds_of_mem_bufferSizes hsize
        have hsizes : (List.range' k (20 - k)).map (2 ^ ·) =
            2 ^ k :: (List.range' (k + 1) (20 - (k + 1))).map (2 ^ ·) := by
          have hsub : 20 - k = 20 - (k + 1) + 1 := by omega
          rw [hsub]
          rfl
        rw [hsizes]
        rcases hrun.of_bind with ⟨⟨loop_time, real⟩, middle, first, second, rfl, hpass, hbehind⟩ |
          ⟨reason, rfl, hpass⟩
        · obtain ⟨-, ⟨real', hok, hafter, -⟩ | ⟨herror, -⟩⟩ := pass_runs hsrc hpos hbound houtput hpass
          · rcases hbehind.of_bind with ⟨clktck', middle', first', second', rfl, hreport, hnext⟩ |
              ⟨reason, rfl, hreport⟩
            · obtain ⟨rfl, -⟩ := report_result_runs hreport
              rw [← Nat.pow_succ] at hnext
              rcases ih (by omega) (by omega) (.inr hafter) hnext with ⟨hdone, hrest⟩ | hexit
              · exact .inl ⟨hdone, .cons hsize hpass hreport hrest⟩
              · exact .inr hexit
            · obtain ⟨-, ⟨clktck', hok⟩ | hexit⟩ := report_result_runs hreport
              · cases hok
              · cases hexit
                exact .inr rfl
          · cases herror
        · obtain ⟨-, ⟨real', hok, -⟩ | ⟨herror, -⟩⟩ := pass_runs hsrc hpos hbound houtput hpass
          · cases hok
          · cases herror
            exact .inr rfl
      · rename_i hgt
        have hge : 20 ≤ k := by
          by_contra hlt
          have hpow : 2 ^ k ≤ 2 ^ 19 := Nat.pow_le_pow_right (by decide) (by omega)
          omega
        obtain ⟨rfl, rfl, rfl⟩ := hrun.of_ret
        obtain rfl : k = 20 := by omega
        exact .inl ⟨rfl, .nil w'⟩

/-- `write_test` makes all its passes, or the program exits with status 1. -/
theorem write_test_runs {src : Block} {w w' : World} {made : List Call}
    {outcome : Except Stop Unit} (hsrc : src.length < 2 ^ 64)
    (houtput : w.output = [] ∨ w.output = src)
    (hrun : (write_test src src.length).Runs Sys w made outcome w') :
    (outcome = .ok () ∧ Passes src bufferSizes w w') ∨ outcome = .error (.exit 1) :=
  @sizeLoop_runs src 0 21 0 w w' made outcome hsrc rfl (by decide) houtput hrun

/-- A system on which nothing fails, with zeros in new memory, where a read gives `most` bytes
at most, and a write takes all it is given. -/
def answer (most : Nat) : (op : Op) → World → op.Res × World
  | .openTarget _, w => (true, { w with output := [], outpos := 0 })
  | .seekEnd, w =>
      if w.input.length < 2 ^ 63 then (some w.input.length, { w with inpos := w.input.length })
      else (none, w)
  | .rewindInput, w => ((), { w with inpos := 0 })
  | .malloc size, w => (some (List.replicate size 0), w)
  | .read count, w =>
      if w.inpos ≤ w.input.length then
        let k := min (min count (w.input.length - w.inpos)) (max 1 most)
        (some (readAt w.input w.inpos k), { w with inpos := w.inpos + k })
      else (none, w)
  | .rewindTarget, w => (true, { w with outpos := 0 })
  | .times, w => (some 0, w)
  | .write _ bytes, w => ((bytes.length : Int), w.written bytes)
  | .sysconf, w => ((100 : Int), w)
  | .printf _, w => ((), w)

theorem answer_sys (most : Nat) (op : Op) (w : World) :
    Sys op w (answer most op w).1 (answer most op w).2 := by
  cases op with
  | openTarget sync => exact .opened
  | seekEnd =>
      rw [answer]
      split
      · exact .seekEnd ‹_›
      · exact .notSeekable
  | rewindInput => exact .rewindInput
  | malloc size => exact .malloc List.length_replicate
  | read count =>
      by_cases hpos : w.inpos ≤ w.input.length
      · rw [answer, if_pos hpos]
        exact .read (by omega) (by omega) (by omega)
      · rw [answer, if_neg hpos]
        exact .readError
  | rewindTarget => exact .rewindTarget
  | times => exact .times
  | write offset bytes =>
      have hwrite : Sys (.write offset bytes) w (bytes.length : Int)
          (w.written (bytes.take bytes.length)) := .write le_rfl
      rwa [List.take_length] at hwrite
  | sysconf => exact .sysconf
  | printf row => exact .printf

instance : DecidablePred Full
  | ⟨.write _ bytes, (n : Int)⟩ => inferInstanceAs (Decidable (n = bytes.length))
  | ⟨.openTarget _, _⟩ | ⟨.seekEnd, _⟩ | ⟨.rewindInput, _⟩ | ⟨.malloc _, _⟩ | ⟨.read _, _⟩
  | ⟨.rewindTarget, _⟩ | ⟨.times, _⟩ | ⟨.sysconf, _⟩ | ⟨.printf _, _⟩ =>
    inferInstanceAs (Decidable True)

end ApueCourse.Timewrite

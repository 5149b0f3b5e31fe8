import ApueCourse.Timewrite.Passes

/-! The output file of the whole program. -/

namespace ApueCourse.Timewrite

open Memory Program Program.Prog

/-- The calls of `main` up to `write_test`, where none of them fails. -/
def loading (sync : Bool) (file_len : Nat) (block bytes : List Byte) : List Call :=
  [⟨.openTarget sync, true⟩, ⟨.seekEnd, some file_len⟩, ⟨.rewindInput, ()⟩,
    ⟨.malloc file_len, some block⟩, ⟨.read file_len, some bytes⟩]

/-- A run of `main` that exits with status 0: what `malloc` and the one `read` have given, and
`write_test` on both of them. -/
theorem main_exit_zero {argv : List (List Byte)} {w w' : World} {made : List Call}
    (hrun : (main argv).Runs Sys w made (.error (.exit 0)) w') :
    ∃ (sync : Bool) (block bytes : List Byte) (w₁ : World) (tests : List Call),
      made = loading sync w.input.length block bytes ++ tests ∧
      block.length = w.input.length ∧ w.input.length < 2 ^ 63 ∧
      bytes = w.input.take bytes.length ∧ bytes.length ≤ w.input.length ∧ w₁.output = [] ∧
      (write_test (bytes ++ block.drop bytes.length) w.input.length >>= fun _ =>
        (.stop (.exit 0) : P Unit)).Runs Sys w₁ tests (.error (.exit 0)) w' := by
  rw [main] at hrun
  split at hrun
  · obtain ⟨-, hexit, -⟩ := hrun.of_stop
    cases hexit
  · obtain ⟨opened, w₁, made₁, rfl, hopen, hrun₁⟩ := hrun.of_call
    cases hopen with
    | refused =>
        obtain ⟨-, hexit, -⟩ := hrun₁.of_stop
        cases hexit
    | opened =>
        obtain ⟨seek_res, w₂, made₂, rfl, hseek, hrun₂⟩ := hrun₁.of_call
        cases hseek with
        | notSeekable =>
            obtain ⟨-, hexit, -⟩ := hrun₂.of_stop
            cases hexit
        | seekEnd hlength =>
            obtain ⟨⟨⟩, w₃, made₃, rfl, hrewind, hrun₃⟩ := hrun₂.of_call
            cases hrewind
            obtain ⟨buf, w₄, made₄, rfl, hmalloc, hrun₄⟩ := hrun₃.of_call
            cases hmalloc with
            | noMemory =>
                obtain ⟨-, hexit, -⟩ := hrun₄.of_stop
                cases hexit
            | @malloc _ _ block hblock =>
                obtain ⟨bytes, w₅, made₅, rfl, hread, hrun₅⟩ := hrun₄.of_call
                cases hread with
                | readError =>
                    obtain ⟨-, hexit, -⟩ := hrun₅.of_stop
                    cases hexit
                | @read _ _ k hcount hleft hsome =>
                    have hle : k ≤ w.input.length := hcount
                    have hsize : block.length = w.input.length := hblock
                    have hk : (w.input.take k).length = k := List.length_take_of_le hle
                    have hblit : blit block 0 (w.input.take k) =
                        some (w.input.take k ++ block.drop (w.input.take k).length) := by
                      rw [blit, if_pos (by omega), List.take_zero, List.nil_append, Nat.zero_add]
                    dsimp only at hrun₅
                    rw [readAt, List.drop_zero, hblit] at hrun₅
                    exact ⟨_, block, w.input.take k, _, made₅, rfl, hsize, hlength, by rw [hk],
                      by omega, rfl, hrun₅⟩

/-- Where the program exits with status 0, the output file holds the input exactly if the memory
behind what the one `read` has given holds the rest of the input: nothing, where it has given
the whole of it. -/
theorem exact_copy_iff {argv : List (List Byte)} {w w' : World} {made : List Call}
    (hrun : (main argv).Runs Sys w made (.error (.exit 0)) w') :
    ∃ (sync : Bool) (block bytes : List Byte) (tests : List Call),
      made = loading sync w.input.length block bytes ++ tests ∧
      (w'.output = w.input ↔ block.drop bytes.length = w.input.drop bytes.length) := by
  obtain ⟨sync, block, bytes, w₁, tests, hmade, hblock, hlength, hbytes, hle, hempty, hrun⟩ :=
    main_exit_zero hrun
  refine ⟨sync, block, bytes, tests, hmade, ?_⟩
  have hsrc : (bytes ++ block.drop bytes.length).length = w.input.length := by
    rw [List.length_append, List.length_drop]
    omega
  rw [← hsrc] at hrun hlength
  have hinput : w.input = bytes ++ w.input.drop bytes.length := by
    rw [hbytes, List.length_take_of_le hle, List.take_append_drop]
  have hdone : w'.output = bytes ++ block.drop bytes.length := by
    rcases hrun.of_bind with ⟨⟨⟩, w₂, first, second, -, htests, hstop⟩ | ⟨reason, hreason, htests⟩
    · obtain ⟨-, -, rfl⟩ := hstop.of_stop
      rcases write_test_runs (by omega) (.inl hempty) htests with ⟨-, hpasses⟩ | hexit
      · rcases hpasses.output (by omega) (.inl hempty) with houtput | ⟨hnone, -⟩
        · exact houtput
        · cases hnone
      · cases hexit
    · rcases write_test_runs (by omega) (.inl hempty) htests with ⟨hok, -⟩ | hexit
      · cases hok
      · cases hreason.trans hexit
  rw [hdone]
  constructor
  · intro hsame
    exact List.append_cancel_left (hsame.trans hinput)
  · intro hsame
    rw [hsame]
    exact hinput.symm

/-- A file of two bytes. -/
def twoBytes : World := { input := [97, 98], inpos := 0, output := [], outpos := 0 }

/-- `timewrite` with a name for the output. -/
def copying : P Unit := main [[116], [102]]

theorem copying_runs (most : Nat) :
    copying.Runs Sys twoBytes (copying.follow (answer most) twoBytes).1
      (copying.follow (answer most) twoBytes).2.1 (copying.follow (answer most) twoBytes).2.2 :=
  follow_runs (answer_sys most) copying twoBytes

/-- The whole file in one read. -/
theorem exact_copy_whole :
    (∃ (sync : Bool) (block bytes : List Byte) (tests : List Call),
      (copying.follow (answer 2) twoBytes).1 = loading sync 2 block bytes ++ tests ∧
      ((copying.follow (answer 2) twoBytes).2.2.output = [97, 98] ↔
        block.drop bytes.length = [97, 98].drop bytes.length)) ∧
    (copying.follow (answer 2) twoBytes).2.2.output = [97, 98] := by
  have hexit : (copying.follow (answer 2) twoBytes).2.1 = .error (.exit 0) := by decide +kernel
  exact ⟨exact_copy_iff (hexit ▸ copying_runs 2), by decide +kernel⟩

/-- A read of one byte, and zeros in the memory. -/
theorem short_read_copies_zeros :
    copying.Runs Sys twoBytes (copying.follow (answer 1) twoBytes).1 (.error (.exit 0))
      (copying.follow (answer 1) twoBytes).2.2 ∧
    (∀ call ∈ (copying.follow (answer 1) twoBytes).1, Full call) ∧
    (copying.follow (answer 1) twoBytes).2.2.output = [97, 0] ∧ [97, 0] ≠ twoBytes.input := by
  have hexit : (copying.follow (answer 1) twoBytes).2.1 = .error (.exit 0) := by decide +kernel
  exact ⟨hexit ▸ copying_runs 1, by decide +kernel⟩

end ApueCourse.Timewrite

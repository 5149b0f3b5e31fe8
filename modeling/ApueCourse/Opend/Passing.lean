import ApueCourse.Opend.Request

/-! `recv_fd`, for any way in which a reply comes in pieces. -/

namespace ApueCourse.Opend

open Memory

/-- A byte in a stream pipe, with the descriptor that comes with it. -/
abbrev Item := Byte × Option Nat

/-- What one `recvmsg` returns: the bytes and the descriptor in the control buffer. -/
structure Recvmsg where
  bytes : List Byte
  fd : Option Nat

def Recvmsg.of (items : List Item) : Recvmsg where
  bytes := items.map (·.1)
  fd := items.findSome? (·.2)

/-- The status byte, if it is the last one. -/
def behindNul : List Byte → Option Byte
  | [status] => some status
  | _ => none

/-- The data in a buffer, and the status behind its NUL; `none` is a NUL that is not the last
byte but one. -/
def scan : List Byte → Option (List Byte × Option Byte)
  | [] => some ([], none)
  | c :: rest =>
      if c = 0 then (behindNul rest).map fun status => ([], some status)
      else (scan rest).map fun (data, status) => (c :: data, status)

inductive RecvEnd
  | returned (fd : Int)
  /-- `err_dump`. -/
  | dumped

/-- One turn of the loop of `recv_fd`: what goes to `userfunc`, which says whether it has taken it
all, and the end of the call, if it ends. -/
def recvOne (userfunc : List Byte → Bool) (msg : Recvmsg) : List Byte × Option RecvEnd :=
  match scan msg.bytes with
  | none => ([], some .dumped)
  | some (data, status) =>
      if status = some 0 ∧ msg.fd = none then ([], some .dumped)
      else if data ≠ [] ∧ userfunc data = false then (data, some (.returned (-1)))
      else
        (data, status.map fun status =>
          .returned (if status = 0 then msg.fd.getD 0 else -(status.toNat : Int)))

/-- The pipe is closed behind the messages. -/
def recv_fd (userfunc : List Byte → Bool) : List Recvmsg → List Byte × RecvEnd
  | [] => ([], .returned (-1))
  | msg :: rest =>
      match recvOne userfunc msg with
      | (data, some result) => (data, result)
      | (data, none) =>
          let (text, result) := recv_fd userfunc rest
          (data ++ text, result)

/-- The items of a reply. -/
def Reply.items (reply : Reply) : List Item := reply.text.map (·, none) ++ send_fd reply.fd

/-- The status byte for what `send_fd` is given. -/
def statusOf (fd : Int) : Byte :=
  if fd < 0 then
    if UInt8.ofInt (-fd) = 0 then 1 else UInt8.ofInt (-fd)
  else 0

/-- What `recv_fd` makes of it. -/
def received (fd : Int) : Int := if fd < 0 then -((statusOf fd).toNat : Int) else fd

theorem send_fd_eq (fd : Int) :
    send_fd fd = [(0, if fd < 0 then none else some fd.toNat), (statusOf fd, none)] := by
  rw [send_fd, statusOf]
  split <;> rfl

theorem statusOf_eq_zero_iff (fd : Int) : statusOf fd = 0 ↔ ¬ fd < 0 := by
  rw [statusOf]
  split
  · rename_i hfd
    refine iff_of_false ?_ (not_not.mpr hfd)
    split
    · decide
    · assumption
  · rename_i hfd
    exact iff_of_true rfl hfd

variable {text : List Byte} {status : Byte} {fd : Int} {pieces : List (List Item)}
  {userfunc : List Byte → Bool}

theorem scan_text (hnul : 0 ∉ text) : scan text = some (text, none) := by
  induction text with
  | nil => rfl
  | cons c text ih =>
      rw [List.mem_cons, not_or] at hnul
      rw [scan, if_neg (Ne.symm hnul.1), ih hnul.2]
      rfl

theorem scan_status (hnul : 0 ∉ text) (status : Byte) :
    scan (text ++ [0, status]) = some (text, some status) := by
  induction text with
  | nil => rfl
  | cons c text ih =>
      rw [List.mem_cons, not_or] at hnul
      rw [List.cons_append, scan, if_neg (Ne.symm hnul.1), ih hnul.2]
      rfl

theorem scan_cut (hnul : 0 ∉ text) : scan (text ++ [0]) = none := by
  induction text with
  | nil => rfl
  | cons c text ih =>
      rw [List.mem_cons, not_or] at hnul
      rw [List.cons_append, scan, if_neg (Ne.symm hnul.1), ih hnul.2]
      rfl

theorem bytes_of_text (text : List Byte) (items : List Item) :
    (Recvmsg.of (text.map (·, none) ++ items)).bytes = text ++ items.map (·.1) := by
  simp [Recvmsg.of, Function.comp_def]

theorem fd_of_text (text : List Byte) (items : List Item) :
    (Recvmsg.of (text.map (·, none) ++ items)).fd = items.findSome? (·.2) := by
  rw [Recvmsg.of, List.findSome?_append, List.findSome?_map]
  have hnone : List.findSome? ((fun item : Item => item.2) ∘ fun c => (c, none)) text = none :=
    List.findSome?_eq_none_iff.mpr fun _ _ => rfl
  rw [hnone]
  rfl

theorem recvOne_text (huser : ∀ data, userfunc data = true) (hnul : 0 ∉ text) :
    recvOne userfunc (.of (text.map (·, none))) = (text, none) := by
  have hbytes := bytes_of_text text []
  rw [List.append_nil, List.map_nil, List.append_nil] at hbytes
  rw [recvOne, hbytes, scan_text hnul]
  simp [huser]

theorem recvOne_cut (hnul : 0 ∉ text) (fd : Option Nat) :
    recvOne userfunc (.of (text.map (·, none) ++ [(0, fd)])) = ([], some .dumped) := by
  rw [recvOne, bytes_of_text, List.map_singleton, scan_cut hnul]

theorem recvOne_status (huser : ∀ data, userfunc data = true) (hnul : 0 ∉ text) (fd : Int) :
    recvOne userfunc (.of (text.map (·, none) ++ send_fd fd)) =
      (text, some (.returned (received fd))) := by
  rw [recvOne, bytes_of_text, fd_of_text, send_fd_eq, List.map_cons, List.map_singleton,
    scan_status hnul]
  by_cases hfd : fd < 0
  · have hstatus : statusOf fd ≠ 0 := fun h => (statusOf_eq_zero_iff fd).mp h hfd
    simp [hstatus, huser, received, hfd]
  · have hstatus := (statusOf_eq_zero_iff fd).mpr hfd
    simp [hstatus, huser, received, hfd]
    omega

theorem eq_nil_of_flatten (hne : [] ∉ pieces) (hflatten : pieces.flatten = []) : pieces = [] := by
  cases pieces with
  | nil => rfl
  | cons piece rest =>
      rw [List.flatten_cons, List.append_eq_nil_iff] at hflatten
      exact absurd (hflatten.1 ▸ List.mem_cons_self) hne

theorem eq_of_flatten_singleton {item : Item} (hne : [] ∉ pieces)
    (hflatten : pieces.flatten = [item]) : pieces = [[item]] := by
  cases pieces with
  | nil => cases hflatten
  | cons piece rest =>
      rw [List.mem_cons, not_or] at hne
      rw [List.flatten_cons] at hflatten
      rcases List.append_eq_singleton_iff.mp hflatten with ⟨rfl, -⟩ | ⟨rfl, hrest⟩
      · exact absurd rfl hne.1
      · rw [eq_nil_of_flatten hne.2 hrest]

/-- What becomes of a reply in pieces: all of it arrives, unless the status byte comes alone. -/
theorem recv_fd_pieces (huser : ∀ data, userfunc data = true) (hnul : 0 ∉ text)
    (hne : [] ∉ pieces) (hflatten : pieces.flatten = text.map (·, none) ++ send_fd fd) :
    pieces.getLast? = some [(statusOf fd, none)] ∧
        (recv_fd userfunc (pieces.map .of)).2 = .dumped ∨
      pieces.getLast? ≠ some [(statusOf fd, none)] ∧
        recv_fd userfunc (pieces.map .of) = (text, .returned (received fd)) := by
  induction pieces generalizing text with
  | nil =>
      rw [send_fd_eq] at hflatten
      exact absurd hflatten.symm (List.append_ne_nil_of_right_ne_nil _ (List.cons_ne_nil _ _))
  | cons piece rest ih =>
      rw [List.mem_cons, not_or] at hne
      rw [List.flatten_cons] at hflatten
      rw [List.map_cons]
      -- the piece ends within the text, or in what `send_fd` sends
      rcases List.append_eq_append_iff.mp hflatten with ⟨front, htext, hrest⟩ | ⟨back, rfl, hback⟩
      · obtain ⟨first, second, rfl, rfl, rfl⟩ := List.map_eq_append_iff.mp htext
        rw [List.mem_append, not_or] at hnul
        have hrestNe : rest ≠ [] := by
          rintro rfl
          rw [send_fd_eq] at hrest
          exact absurd hrest.symm (List.append_ne_nil_of_right_ne_nil _ (List.cons_ne_nil _ _))
        rw [List.getLast?_cons_of_ne_nil hrestNe, recv_fd, recvOne_text huser hnul.1]
        refine (ih hnul.2 hne.2 hrest).imp_right ?_
        rintro ⟨hlast, hrecv⟩
        exact ⟨hlast, by rw [hrecv]⟩
      · rw [send_fd_eq] at hback
        cases back with
        | nil =>
            rw [List.nil_append] at hback
            have hrestNe : rest ≠ [] := by
              rintro rfl
              cases hback
            rw [List.append_nil, List.getLast?_cons_of_ne_nil hrestNe, recv_fd,
              recvOne_text huser hnul]
            rw [← send_fd_eq, ← List.nil_append (send_fd fd)] at hback
            refine (@ih [] List.not_mem_nil hne.2 hback.symm).imp_right ?_
            rintro ⟨hlast, hrecv⟩
            refine ⟨hlast, ?_⟩
            rw [hrecv]
            dsimp only
            rw [List.append_nil]
        | cons first back =>
            rw [List.cons_append] at hback
            injection hback with hfirst hback
            subst hfirst
            cases back with
            | nil =>
                -- the status byte is left for the next `recvmsg`
                obtain rfl := eq_of_flatten_singleton hne.2 hback.symm
                exact .inl ⟨rfl, by rw [recv_fd, recvOne_cut hnul]⟩
            | cons second back =>
                rw [List.cons_append] at hback
                injection hback with hsecond hback
                subst hsecond
                obtain ⟨rfl, hnil⟩ := List.append_eq_nil_iff.mp hback.symm
                obtain rfl := eq_nil_of_flatten hne.2 hnil
                refine .inr ⟨fun hlast => ?_, ?_⟩
                · rw [List.getLast?_singleton] at hlast
                  have hlength := congrArg List.length (Option.some.inj hlast)
                  rw [List.length_append, List.length_cons, List.length_singleton] at hlength
                  omega
                · rw [← send_fd_eq, recv_fd, recvOne_status huser hnul]

/-- The descriptor or the error arrives with the whole text, exactly when the status byte does not
come alone; if it does, `recv_fd` dumps core. -/
theorem recv_fd_returns_iff (huser : ∀ data, userfunc data = true) (hnul : 0 ∉ text)
    (hne : [] ∉ pieces) (hflatten : pieces.flatten = text.map (·, none) ++ send_fd fd) :
    (recv_fd userfunc (pieces.map .of) = (text, .returned (received fd)) ↔
      pieces.getLast? ≠ some [(statusOf fd, none)]) ∧
    ((recv_fd userfunc (pieces.map .of)).2 = .dumped ↔
      pieces.getLast? = some [(statusOf fd, none)]) := by
  rcases recv_fd_pieces huser hnul hne hflatten with ⟨hlast, hdumped⟩ | ⟨hlast, hreturned⟩
  · refine ⟨iff_of_false (fun h => ?_) (not_not.mpr hlast), iff_of_true hdumped hlast⟩
    rw [h] at hdumped
    cases hdumped
  · refine ⟨iff_of_true hreturned hlast, iff_of_false (fun h => ?_) hlast⟩
    rw [hreturned] at h
    cases h

/-- An error message of one byte, all at once. -/
def wholeReply : List (List Item) := [[(104, none), (0, none), (1, none)]]

/-- The same with the status byte alone. -/
def splitReply : List (List Item) := [[(104, none), (0, none)], [(1, none)]]

theorem recv_fd_returns_iff_both :
    ((recv_fd (fun _ => true) (wholeReply.map .of) = ([104], .returned (received (-1))) ↔
        wholeReply.getLast? ≠ some [(statusOf (-1), none)]) ∧
      ((recv_fd (fun _ => true) (wholeReply.map .of)).2 = .dumped ↔
        wholeReply.getLast? = some [(statusOf (-1), none)])) ∧
    ((recv_fd (fun _ => true) (splitReply.map .of) = ([104], .returned (received (-1))) ↔
        splitReply.getLast? ≠ some [(statusOf (-1), none)]) ∧
      ((recv_fd (fun _ => true) (splitReply.map .of)).2 = .dumped ↔
        splitReply.getLast? = some [(statusOf (-1), none)])) :=
  ⟨recv_fd_returns_iff (fun _ => rfl) (by decide) (by decide) rfl,
    recv_fd_returns_iff (fun _ => rfl) (by decide) (by decide) rfl⟩

end ApueCourse.Opend

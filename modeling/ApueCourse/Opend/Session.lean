import ApueCourse.Opend.Passing
import ApueCourse.Transition.Run

/-! `csopen` and the open server at the two ends of a stream pipe. -/

namespace ApueCourse.Opend

open Memory Transition

inductive Client
  | idle
  /-- `csopen` in `recv_fd`, with what it has written to standard error. -/
  | receiving (text : List Byte)
  | dumped

inductive Server
  | reading
  /-- `send_err` in `writen`, or before `send_fd`. -/
  | writing (left : List Byte) (fd : Int)

structure Session where
  client : Client
  /-- In the pipe to the server. -/
  requests : List Byte
  server : Server
  errmsg : List Byte
  /-- In the pipe to the client. -/
  replies : List Item

inductive Event
  | ask (name : List Byte) (oflag : Int)
  | serve (openFile : List Byte → Int → Opened)
  | write (n : Nat)
  | send
  | receive
  | returned (text : List Byte) (fd : Int)
  | dump

def Session.start : Session := ⟨.idle, [], .reading, [], []⟩

/-- A request is in the pipe at once, by `writev`; a message in pieces, as `write` takes it. -/
inductive Session.Step : Session → Event → Session → Prop
  | ask {s : Session} {name bytes : List Byte} {oflag : Int} (hclient : s.client = .idle)
      (hbytes : csopenRequest name oflag = some bytes) :
      Step s (.ask name oflag)
        { s with client := .receiving [], requests := s.requests ++ bytes }
  | serve {s : Session} {openFile : List Byte → Int → Opened} {rest : Block} {reply : Reply}
      (hserver : s.server = .reading) (hne : s.requests ≠ [])
      (hreply : request openFile s.errmsg (s.requests.take MAXLINE ++ rest)
        (s.requests.take MAXLINE).length = some reply) :
      Step s (.serve openFile)
        { s with requests := s.requests.drop MAXLINE, server := .writing reply.text reply.fd,
                 errmsg := reply.errmsg }
  | write {s : Session} {left : List Byte} {fd : Int} {n : Nat}
      (hserver : s.server = .writing left fd) (hn : 0 < n) (hle : n ≤ left.length) :
      Step s (.write n)
        { s with server := .writing (left.drop n) fd,
                 replies := s.replies ++ (left.take n).map (·, none) }
  | send {s : Session} {fd : Int} (hserver : s.server = .writing [] fd) :
      Step s .send { s with server := .reading, replies := s.replies ++ send_fd fd }
  | receive {s : Session} {text data : List Byte} (hclient : s.client = .receiving text)
      (hne : s.replies ≠ [])
      (hrecv : recvOne (fun _ => true) (.of (s.replies.take MAXLINE)) = (data, none)) :
      Step s .receive
        { s with client := .receiving (text ++ data), replies := s.replies.drop MAXLINE }
  | returned {s : Session} {text data : List Byte} {fd : Int}
      (hclient : s.client = .receiving text) (hne : s.replies ≠ [])
      (hrecv : recvOne (fun _ => true) (.of (s.replies.take MAXLINE)) =
        (data, some (.returned fd))) :
      Step s (.returned (text ++ data) fd)
        { s with client := .idle, replies := s.replies.drop MAXLINE }
  | dump {s : Session} {text data : List Byte} (hclient : s.client = .receiving text)
      (hne : s.replies ≠ [])
      (hrecv : recvOne (fun _ => true) (.of (s.replies.take MAXLINE)) = (data, some .dumped)) :
      Step s .dump { s with client := .dumped, replies := s.replies.drop MAXLINE }

def session : System Session Event where
  Initial s := s = .start
  Step := Session.Step

/-- The requests fit into the buffer of the server, and the messages with the two bytes behind
them into that of the client; `errlen` bounds the texts of `strerror`. -/
def fitting (errlen : Nat) (_ : Session) : Event → Prop
  | .ask name oflag =>
      0 ∉ name ∧ (∀ bytes ∈ csopenRequest name oflag, bytes.length ≤ MAXLINE) ∧
        name.length + errlen + 16 ≤ MAXLINE
  | .serve openFile =>
      ∀ pathname oflag error, openFile pathname oflag = .error error →
        0 ∉ error ∧ error.length ≤ errlen
  | _ => True

/-! Calls that are answered at once. -/

inductive Call
  | idle
  | asked (name : List Byte) (oflag : Int)
  | answered (text : List Byte) (fd : Int)

/-- With the message that is kept from one call to the next. -/
inductive Call.Step : List Byte × Call → Event → List Byte × Call → Prop
  | ask {errmsg name : List Byte} {oflag : Int} :
      Step (errmsg, .idle) (.ask name oflag) (errmsg, .asked name oflag)
  | answer {errmsg name : List Byte} {oflag : Int} {openFile : List Byte → Int → Opened}
      {reply : Reply} (hreply : openAnswer openFile errmsg name oflag = some reply) :
      Step (errmsg, .asked name oflag) (.serve openFile)
        (reply.errmsg, .answered reply.text reply.fd)
  | returned {errmsg text : List Byte} {fd : Int} :
      Step (errmsg, .answered text fd) (.returned text (received fd)) (errmsg, .idle)

def calls : System (List Byte × Call) Event where
  Initial a := a = ([], .idle)
  Step := Call.Step

/-- What a call shows of itself. -/
def visible : Event → Option Event
  | .write _ | .send | .receive => none
  | event => some event

/-- A message that the client can receive. -/
def Fits (text : List Byte) : Prop := 0 ∉ text ∧ text.length + 2 ≤ MAXLINE

/-- Where the parts of a call are. -/
inductive Represents (errlen : Nat) : Session → List Byte × Call → Prop
  | idle {errmsg : List Byte} (herrmsg : Fits errmsg) :
      Represents errlen ⟨.idle, [], .reading, errmsg, []⟩ (errmsg, .idle)
  | asked {errmsg name bytes : List Byte} {oflag : Int} (herrmsg : Fits errmsg)
      (hname : 0 ∉ name) (hbytes : csopenRequest name oflag = some bytes)
      (hlength : bytes.length ≤ MAXLINE) (hfits : name.length + errlen + 16 ≤ MAXLINE) :
      Represents errlen ⟨.receiving [], bytes, .reading, errmsg, []⟩ (errmsg, .asked name oflag)
  | writing {errmsg text passing left : List Byte} {fd : Int} (herrmsg : Fits errmsg)
      (htext : Fits (text ++ passing ++ left)) :
      Represents errlen
        ⟨.receiving text, [], .writing left fd, errmsg, passing.map (·, none)⟩
        (errmsg, .answered (text ++ passing ++ left) fd)
  | sent {errmsg text passing : List Byte} {fd : Int} (herrmsg : Fits errmsg)
      (htext : Fits (text ++ passing)) :
      Represents errlen
        ⟨.receiving text, [], .reading, errmsg, passing.map (·, none) ++ send_fd fd⟩
        (errmsg, .answered (text ++ passing) fd)

variable {errlen : Nat} {s s' : Session} {a : List Byte × Call} {event : Event}

theorem fits_usage : Fits usage := ⟨by decide, by decide⟩

theorem fits_cantOpen {pathname error : List Byte} (hpath : 0 ∉ pathname) (herror : 0 ∉ error)
    (hle : pathname.length + error.length + 16 ≤ MAXLINE) :
    Fits (cantOpen pathname error) := by
  refine ⟨?_, ?_⟩
  · simp only [cantOpen, List.mem_append, not_or]
    exact ⟨⟨⟨⟨by decide, hpath⟩, by decide⟩, herror⟩, by decide⟩
  · simp only [cantOpen, List.length_append, List.length_cons, List.length_nil]
    omega

/-- What the server has to say fits, when the name does. -/
theorem fits_openAnswer {openFile : List Byte → Int → Opened} {errmsg name : List Byte}
    {oflag : Int} {reply : Reply} (herrmsg : Fits errmsg) (hname : 0 ∉ name)
    (hfits : name.length + errlen + 16 ≤ MAXLINE)
    (herror : ∀ pathname oflag error, openFile pathname oflag = .error error →
      0 ∉ error ∧ error.length ≤ errlen)
    (hreply : openAnswer openFile errmsg name oflag = some reply) :
    Fits reply.errmsg ∧ Fits reply.text := by
  have hsend : ∀ {msg : List Byte}, Fits msg → some (send_err (-1) msg) = some reply →
      Fits reply.errmsg ∧ Fits reply.text := by
    rintro msg hmsg ⟨⟩
    exact ⟨hmsg, hmsg⟩
  rw [openAnswer] at hreply
  split at hreply
  · rename_i pathname hwords
    have hpart : pathname <:+: name :=
      @infix_of_mem_tokens WHITE _ _ (hwords ▸ List.mem_singleton_self pathname)
    have hpath : 0 ∉ pathname := fun h => hname (hpart.subset h)
    rw [opens] at hreply
    split at hreply
    · rename_i error hopen
      obtain ⟨herrorNul, herrlen⟩ := herror _ _ _ hopen
      have hle := hpart.length_le
      rw [sendErrmsg] at hreply
      split at hreply
      · exact hsend (fits_cantOpen hpath herrorNul (by omega)) hreply
      · cases hreply
    · cases hreply
      exact ⟨herrmsg, List.not_mem_nil, show 0 + 2 ≤ MAXLINE by decide⟩
  · split at hreply
    · exact hsend fits_usage hreply
    · exact hsend herrmsg hreply

theorem csopenRequest_ne_nil {name bytes : List Byte} {oflag : Int}
    (hbytes : csopenRequest name oflag = some bytes) : bytes ≠ [] := by
  rw [csopenRequest] at hbytes
  split at hbytes
  · cases hbytes
    exact List.append_ne_nil_of_right_ne_nil _ (List.cons_ne_nil _ _)
  · cases hbytes

theorem recvOne_passing {passing : List Byte} (hpassing : Fits passing) :
    recvOne (fun _ => true) (.of ((passing.map (·, none)).take MAXLINE)) = (passing, none) := by
  have hle := hpassing.2
  rw [List.take_of_length_le (by rw [List.length_map]; omega)]
  exact recvOne_text (fun _ => rfl) hpassing.1

theorem length_sent (passing : List Byte) (fd : Int) :
    (passing.map (·, none) ++ send_fd fd).length = passing.length + 2 := by
  rw [send_fd_eq, List.length_append, List.length_map]
  rfl

theorem recvOne_sent {passing : List Byte} (hpassing : Fits passing) (fd : Int) :
    recvOne (fun _ => true) (.of ((passing.map (·, none) ++ send_fd fd).take MAXLINE)) =
      (passing, some (.returned (received fd))) := by
  rw [List.take_of_length_le (by rw [length_sent]; exact hpassing.2)]
  exact recvOne_status (fun _ => rfl) hpassing.1 fd

theorem Fits.right {front back : List Byte} (h : Fits (front ++ back)) : Fits back := by
  refine ⟨fun hmem => h.1 (List.mem_append_right _ hmem), ?_⟩
  have hle := h.2
  rw [List.length_append] at hle
  omega

theorem Fits.left {front back : List Byte} (h : Fits (front ++ back)) : Fits front := by
  refine ⟨fun hmem => h.1 (List.mem_append_left _ hmem), ?_⟩
  have hle := h.2
  rw [List.length_append] at hle
  omega

theorem Represents.write {errmsg text passing left : List Byte} {fd : Int}
    (herrmsg : Fits errmsg) (htext : Fits (text ++ passing ++ left)) (n : Nat) :
    Represents errlen
      ⟨.receiving text, [], .writing (left.drop n) fd, errmsg,
        passing.map (·, none) ++ (left.take n).map (·, none)⟩
      (errmsg, .answered (text ++ passing ++ left) fd) := by
  have hsplit : text ++ passing ++ left =
      text ++ (passing ++ left.take n) ++ left.drop n := by
    rw [List.append_assoc, List.append_assoc, List.append_assoc, List.take_append_drop]
  rw [← List.map_append, hsplit]
  exact .writing herrmsg (hsplit ▸ htext)

theorem Represents.receive {errmsg text passing left : List Byte} {fd : Int}
    (herrmsg : Fits errmsg) (htext : Fits (text ++ passing ++ left)) :
    Represents errlen
      ⟨.receiving (text ++ passing), [], .writing left fd, errmsg,
        (passing.map (·, none)).drop MAXLINE⟩
      (errmsg, .answered (text ++ passing ++ left) fd) := by
  have hle := htext.left.right.2
  have hrep := @Represents.writing errlen errmsg (text ++ passing) [] left fd herrmsg
  rw [List.append_nil] at hrep
  rw [List.drop_of_length_le (by rw [List.length_map]; omega)]
  exact hrep htext

/-- The bytes of a message on their way do not show in the call. -/
theorem Represents.stutter (hrep : Represents errlen s a) (hstep : s.Step event s')
    (hevent : visible event = none) : Represents errlen s' a := by
  cases hstep with
  | ask | serve | returned | dump => cases hevent
  | write hserver hn hle =>
      cases hrep with
      | idle | asked | sent => cases hserver
      | writing herrmsg htext =>
          cases hserver
          exact .write herrmsg htext _
  | send hserver =>
      cases hrep with
      | idle | asked | sent => cases hserver
      | writing herrmsg htext =>
          cases hserver
          rw [List.append_nil] at htext ⊢
          exact .sent herrmsg htext
  | receive hclient hne hrecv =>
      cases hrep with
      | idle => cases hclient
      | asked => exact absurd rfl hne
      | @writing errmsg text passing left fd herrmsg htext =>
          cases hclient
          dsimp only at hrecv ⊢
          rw [recvOne_passing htext.left.right] at hrecv
          cases hrecv
          exact .receive herrmsg htext
      | sent herrmsg htext =>
          cases hclient
          dsimp only at hrecv
          rw [recvOne_sent htext.right] at hrecv
          cases hrecv

/-- What shows in the call is what a call does that is answered at once. -/
theorem Represents.step {event' : Event} (hrep : Represents errlen s a)
    (hstep : s.Step event s') (hfitting : fitting errlen s event)
    (hevent : visible event = some event') :
    ∃ a', Call.Step a event' a' ∧ Represents errlen s' a' := by
  cases hstep with
  | write | send | receive => cases hevent
  | ask hclient hbytes =>
      cases hevent
      cases hrep with
      | asked | writing | sent => cases hclient
      | idle herrmsg =>
          obtain ⟨hname, hlength, hfits⟩ := hfitting
          exact ⟨_, .ask, .asked herrmsg hname hbytes (hlength _ hbytes) hfits⟩
  | @serve openFile rest reply hserver hne hreply =>
      cases hevent
      cases hrep with
      | idle | sent => exact absurd rfl hne
      | writing => cases hserver
      | @asked errmsg name bytes oflag herrmsg hname hbytes hlength hfits =>
          dsimp only at hreply ⊢
          rw [List.take_of_length_le hlength, request_csopen openFile errmsg hname hbytes]
            at hreply
          obtain ⟨herrmsg', htext⟩ := fits_openAnswer herrmsg hname hfits hfitting hreply
          rw [List.drop_of_length_le hlength]
          exact ⟨_, .answer hreply, @Represents.writing _ _ [] [] _ _ herrmsg' htext⟩
  | returned hclient hne hrecv =>
      cases hevent
      cases hrep with
      | idle => cases hclient
      | asked => exact absurd rfl hne
      | writing herrmsg htext =>
          cases hclient
          dsimp only at hrecv
          rw [recvOne_passing htext.left.right] at hrecv
          cases hrecv
      | @sent errmsg text passing fd herrmsg htext =>
          cases hclient
          dsimp only at hrecv ⊢
          rw [recvOne_sent htext.right] at hrecv
          cases hrecv
          rw [List.drop_of_length_le (by rw [length_sent]; exact htext.right.2)]
          exact ⟨_, .returned, .idle herrmsg⟩
  | dump hclient hne hrecv =>
      cases hrep with
      | idle => cases hclient
      | asked => exact absurd rfl hne
      | writing herrmsg htext =>
          cases hclient
          dsimp only at hrecv
          rw [recvOne_passing htext.left.right] at hrecv
          cases hrecv
      | sent herrmsg htext =>
          cases hclient
          dsimp only at hrecv
          rw [recvOne_sent htext.right] at hrecv
          cases hrecv

/-- However the two ends and the pieces of a message take turns, `csopen` shows what the calls
show that are answered at once, the descriptor or the error with the whole message behind it. -/
theorem session_refines_calls {start : Session} {trace : List Event}
    (hstart : session.Initial start)
    (hrun : (session.restrict (fitting errlen)).Run start trace s) :
    ∃ a, calls.Run ([], .idle) (trace.filterMap visible) a ∧
      (s.client = .idle ↔ a.2 = .idle) ∧ s.client ≠ .dumped ∧ s.errmsg = a.1 := by
  obtain ⟨origin, a, rfl, hcalls, hrep⟩ :=
    @System.Run.simulation _ _ (session.restrict (fitting errlen)) _ _ calls
      (Represents errlen) visible
      (by
        rintro s rfl
        exact ⟨_, rfl, .idle ⟨List.not_mem_nil, show 0 + 2 ≤ MAXLINE by decide⟩⟩)
      (fun _ _ _ _ hrep hstep => hrep.stutter hstep.1)
      (fun _ _ _ _ _ hrep hstep => hrep.step hstep.1 hstep.2) _ _ _ hstart hrun
  refine ⟨a, hcalls, ?_⟩
  cases hrep <;> simp

/-- One file is opened. -/
theorem session_refines_calls_opened : ∃ (s : Session) (a : List Byte × Call),
    calls.Run ([], .idle)
      ([.ask [102] 0, .serve fun _ _ => .ok 5, .send, .returned [] 5].filterMap visible) a ∧
      (s.client = .idle ↔ a.2 = .idle) ∧ s.client ≠ .dumped ∧ s.errmsg = a.1 := by
  have hask : Session.Step .start (.ask [102] 0)
      ⟨.receiving [], [111, 112, 101, 110, 32, 102, 32, 48, 0], .reading, [], []⟩ := .ask rfl rfl
  have hserve := @Session.Step.serve
    ⟨.receiving [], [111, 112, 101, 110, 32, 102, 32, 48, 0], .reading, [], []⟩
    (fun _ _ => .ok 5) [] ⟨[], [], 5⟩ rfl (List.cons_ne_nil _ _) (by rfl)
  have hsend := @Session.Step.send ⟨.receiving [], [], .writing [] 5, [], []⟩ 5 rfl
  have hreturned := @Session.Step.returned ⟨.receiving [], [], .reading, [], send_fd 5⟩ [] [] 5
    rfl (List.cons_ne_nil _ _) (by rfl)
  have hfitting : fitting 0 .start (.ask [102] 0) :=
    ⟨by decide, by rintro bytes ⟨⟩; decide, by decide⟩
  have hrun := (((System.Run.single (M := session.restrict (fitting 0))
    (And.intro hask hfitting)).snoc (And.intro hserve (by rintro _ _ _ ⟨⟩))).snoc
      (And.intro hsend trivial)).snoc (And.intro hreturned trivial)
  exact ⟨_, session_refines_calls rfl hrun⟩

end ApueCourse.Opend

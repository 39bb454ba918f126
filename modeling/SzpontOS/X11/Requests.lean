import Mathlib.Data.List.GetD
import Mathlib.Logic.Function.Iterate
import SzpontOS.Lib.Framing

/-!
# The request stream of a client (`client_process_data` of the X server)

The server collects what a client sends in a buffer, takes the handshake off its front, and then one request after the
other, each as long as its header says. Every call reads twice: a first loop takes what the socket has, and a second
loop, for a request that is not complete, asks once more. What the socket answers is a script (`Arrival`): bytes,
nothing yet, or the end.

As long as the connection is open, the requests handed to `dispatch_request` are the ones that the bytes read so far are
cut into (`Client.Framed`, a matter of `Framing.parse_append`). When the first loop meets the end, the client is closed
at once, with whatever this call has read before in the buffer (`Client.CutOff`).
-/

namespace SzpontOS.X11

open Lib List Bool

/-! ## How a stream is cut -/

/-- A `uint16_t` at the place `i`. -/
def load16 (s : List UInt8) (i : Nat) : Nat := (s.getD i 0).toNat + 256 * (s.getD (i + 1) 0).toNat

def padded (n : Nat) : Nat := n + (4 - n % 4) % 4

/-- `total_handshake_len`. -/
def handshakeLength (s : List UInt8) : Nat := 12 + padded (load16 s 6) + padded (load16 s 8)

/-- `req_len`. -/
def requestLength (s : List UInt8) : Nat := if load16 s 2 * 4 < 4 then 4 else load16 s 2 * 4

variable {s : List UInt8}

theorem load16_append {i : Nat} (hi : i + 1 < s.length) (t : List UInt8) : load16 (s ++ t) i = load16 s i := by
  unfold load16
  rw [getD_append _ _ _ _ (by omega), getD_append _ _ _ _ hi]

theorem four_le_requestLength (s : List UInt8) : 4 ≤ requestLength s := by
  unfold requestLength
  split <;> omega

def requestFraming : Framing UInt8 where
  size s := if 4 ≤ s.length then some (requestLength s) else none
  size_pos := by
    intro s n hsize
    have hfour := four_le_requestLength s
    split at hsize
    · cases hsize
      omega
    · cases hsize
  size_append := by
    intro s n hsize t
    by_cases hlen : 4 ≤ s.length
    · rw [if_pos hlen] at hsize
      rw [if_pos (by rw [List.length_append]; omega), ← hsize, requestLength, requestLength, load16_append (by omega)]
    · rw [if_neg hlen] at hsize
      cases hsize

theorem requestFraming_size (hlen : 4 ≤ s.length) : requestFraming.size s = some (requestLength s) := if_pos hlen

theorem requestFraming_not_complete (hlen : s.length < 4) (n : Nat) : ¬requestFraming.Complete s n := by
  rintro ⟨hsize, -⟩
  have hnone : requestFraming.size s = none := if_neg (Nat.not_le.2 hlen)
  rw [hnone] at hsize
  cases hsize

def HandshakeDone (s : List UInt8) : Prop := 12 ≤ s.length ∧ handshakeLength s ≤ s.length

instance (s : List UInt8) : Decidable (HandshakeDone s) := inferInstanceAs (Decidable (_ ∧ _))

theorem handshakeLength_append (hlen : 12 ≤ s.length) (t : List UInt8) :
    handshakeLength (s ++ t) = handshakeLength s := by
  unfold handshakeLength
  rw [load16_append (by omega), load16_append (by omega)]

theorem HandshakeDone.append (h : HandshakeDone s) (t : List UInt8) : HandshakeDone (s ++ t) := by
  obtain ⟨hlen, hdone⟩ := h
  refine ⟨?_, ?_⟩
  · rw [length_append]
    omega
  · rw [handshakeLength_append hlen, length_append]
    omega

/-- A stream cut by its length fields: whether the handshake is complete, the complete requests after it, and the bytes
left over. -/
def session (s : List UInt8) : Bool × List (List UInt8) × List UInt8 :=
  if HandshakeDone s then (true, requestFraming.parse (s.drop (handshakeLength s))) else (false, [], s)

def requestsOf (s : List UInt8) : List (List UInt8) := (session s).2.1

theorem session_append (h : HandshakeDone s) (t : List UInt8) :
    session (s ++ t) = (true, (requestsOf s ++ (requestFraming.parse ((session s).2.2 ++ t)).1,
      (requestFraming.parse ((session s).2.2 ++ t)).2)) := by
  unfold requestsOf
  rw [session, if_pos (h.append t), session, if_pos h, handshakeLength_append h.1,
    drop_append_of_le_length h.2, Framing.parse_append]

/-! ## The socket -/

/-- What a `recv` finds: bytes, nothing yet (`-1`), or the end of the stream (`0`). -/
inductive Arrival where
  | data (first : UInt8) (more : List UInt8)
  | later
  | closed
  deriving DecidableEq, Repr

def arrivalBytes : List Arrival → Nat
  | [] => 0
  | .data _ more :: script => more.length + 1 + arrivalBytes script
  | _ :: script => arrivalBytes script

/-- Bytes that a `recv` had no room for come first in the next one. -/
def pushBack : List UInt8 → List Arrival → List Arrival
  | [], script => script
  | first :: more, script => .data first more :: script

theorem arrivalBytes_pushBack (bs : List UInt8) (script : List Arrival) :
    arrivalBytes (pushBack bs script) = bs.length + arrivalBytes script := by
  cases bs with
  | nil => rw [pushBack, length_nil, Nat.zero_add]
  | cons first more => rw [pushBack, arrivalBytes, length_cons]

/-- What a read loop leaves: the buffer, the script, and whether it has met the end. -/
structure Received where
  buf : List UInt8
  script : List Arrival
  ended : Bool
  deriving DecidableEq, Repr

/-- A read loop: it asks for as much as the buffer has room for, until it has `want` bytes or the buffer is full, or the
socket has nothing more. -/
def receive (want cap : Nat) : List Arrival → List UInt8 → Received
  | [], buf => ⟨buf, [], false⟩
  | arrival :: script, buf =>
    if buf.length < want ∧ buf.length < cap then
      match arrival with
      | .closed => ⟨buf, .closed :: script, true⟩
      | .later => ⟨buf, script, false⟩
      | .data first more =>
        if more.length < cap - buf.length then receive want cap script (buf ++ first :: more)
        else
          -- the buffer is full now
          ⟨buf ++ (first :: more).take (cap - buf.length), pushBack ((first :: more).drop (cap - buf.length)) script,
            false⟩
    else
      ⟨buf, arrival :: script, false⟩

theorem receive_spec (want cap : Nat) (script : List Arrival) (buf : List UInt8) :
    ∃ new, (receive want cap script buf).buf = buf ++ new ∧
      new.length + arrivalBytes (receive want cap script buf).script = arrivalBytes script := by
  induction script generalizing buf with
  | nil => exact ⟨[], (append_nil _).symm, rfl⟩
  | cons arrival script ih =>
    by_cases hgo : buf.length < want ∧ buf.length < cap
    · cases arrival with
      | closed =>
        rw [receive, if_pos hgo]
        exact ⟨[], (append_nil _).symm, Nat.zero_add _⟩
      | later =>
        rw [receive, if_pos hgo]
        exact ⟨[], (append_nil _).symm, Nat.zero_add _⟩
      | data first more =>
        by_cases hfits : more.length < cap - buf.length
        · rw [receive, if_pos hgo, if_pos hfits]
          obtain ⟨new, hbuf, hbyte⟩ := ih (buf ++ first :: more)
          refine ⟨(first :: more) ++ new, ?_, ?_⟩
          · rw [hbuf, append_assoc]
          · rw [length_append, length_cons, arrivalBytes]
            omega
        · rw [receive, if_pos hgo, if_neg hfits]
          refine ⟨_, rfl, ?_⟩
          rw [arrivalBytes_pushBack, length_take, length_drop, length_cons, arrivalBytes]
          omega
    · rw [receive.eq_def]
      dsimp only
      rw [if_neg hgo]
      exact ⟨[], (append_nil _).symm, Nat.zero_add _⟩

/-! ## The client -/

/-- `client_t`, as far as the stream goes, and its socket. `taken` are the bytes that `recv` has delivered so far,
`dispatched` the requests that `dispatch_request` was called with, `reallocs` whether the next calls of `realloc`
succeed. -/
structure Client where
  active : Bool
  authenticated : Bool
  /-- `in_buf` is not `NULL` -/
  allocated : Bool
  /-- the first `in_len` bytes of `in_buf` -/
  inBuf : List UInt8
  inCap : Nat
  arrivals : List Arrival
  reallocs : List Bool
  taken : List UInt8
  dispatched : List (List UInt8)
  deriving DecidableEq, Repr

namespace Client

/-- `client_accept`, where `malloc` may fail. -/
def accept (allocated : Bool) (arrivals : List Arrival) (reallocs : List Bool) : Client where
  active := true
  authenticated := false
  allocated := allocated
  inBuf := []
  inCap := 64 * 1024
  arrivals := arrivals
  reallocs := reallocs
  taken := []
  dispatched := []

def close (c : Client) : Client :=
  { c with active := false, authenticated := false, allocated := false, inBuf := [], inCap := 0 }

def grow (c : Client) (cap : Nat) : Client :=
  match c.reallocs with
  | [] => { c with inCap := cap }
  | ok :: reallocs => { c with inCap := if ok then cap else c.inCap, reallocs := reallocs }

def read (c : Client) (want : Nat) : Client :=
  let r := receive want c.inCap c.arrivals c.inBuf
  { c with inBuf := r.buf, arrivals := r.script, taken := c.taken ++ r.buf.drop c.inBuf.length }

def makeRoom (c : Client) : Client := if c.inCap ≤ c.inBuf.length then c.grow (c.inCap * 2) else c

/-- The first read loop meets the end of the stream. -/
def meetsEnd (c : Client) : Bool := (receive c.inCap c.inCap c.arrivals c.inBuf).ended

/-- In the request loop: room for the request at the front, and the second read loop if it is not complete. -/
def await (c : Client) : Client :=
  let roomy := if c.inCap < requestLength c.inBuf then c.grow (requestLength c.inBuf + 65536) else c
  if c.inBuf.length < requestLength c.inBuf then roomy.read (requestLength c.inBuf) else roomy

/-- `dispatch_request`, and the buffer moved up. -/
def dispatch (c : Client) (length : Nat) : Client :=
  { c with dispatched := c.dispatched ++ [c.inBuf.take length], inBuf := c.inBuf.drop length }

def pending (c : Client) : Nat := c.inBuf.length + arrivalBytes c.arrivals

/-- `c'` is `c` after it has read `new`. -/
structure Reads (c c' : Client) (new : List UInt8) : Prop where
  inBuf : c'.inBuf = c.inBuf ++ new
  taken : c'.taken = c.taken ++ new
  dispatched : c'.dispatched = c.dispatched
  authenticated : c'.authenticated = c.authenticated
  active : c'.active = c.active
  pending : c'.pending = c.pending

theorem Reads.trans {c c' c'' : Client} {new new' : List UInt8} (h : Reads c c' new) (h' : Reads c' c'' new') :
    Reads c c'' (new ++ new') where
  inBuf := by rw [h'.inBuf, h.inBuf, append_assoc]
  taken := by rw [h'.taken, h.taken, append_assoc]
  dispatched := h'.dispatched.trans h.dispatched
  authenticated := h'.authenticated.trans h.authenticated
  active := h'.active.trans h.active
  pending := h'.pending.trans h.pending

theorem Reads.refl (c : Client) : Reads c c [] where
  inBuf := (append_nil _).symm
  taken := (append_nil _).symm
  dispatched := rfl
  authenticated := rfl
  active := rfl
  pending := rfl

theorem reads_grow (c : Client) (cap : Nat) : Reads c (c.grow cap) [] := by
  unfold grow
  split <;> exact ⟨(append_nil _).symm, (append_nil _).symm, rfl, rfl, rfl, rfl⟩

theorem reads_read (c : Client) (want : Nat) : ∃ new, Reads c (c.read want) new := by
  obtain ⟨new, hbuf, hbyte⟩ := receive_spec want c.inCap c.arrivals c.inBuf
  refine ⟨new, hbuf, ?_, rfl, rfl, rfl, ?_⟩
  · rw [read, hbuf, drop_left]
  · rw [pending, pending, read, hbuf, length_append]
    dsimp only
    omega

theorem reads_makeRoom (c : Client) : Reads c c.makeRoom [] := by
  unfold makeRoom
  split
  · exact reads_grow c _
  · exact .refl c

theorem reads_await (c : Client) : ∃ new, Reads c c.await new := by
  have hroomy : Reads c (if c.inCap < requestLength c.inBuf then c.grow (requestLength c.inBuf + 65536) else c) [] := by
    split
    · exact reads_grow c _
    · exact .refl c
  unfold await
  dsimp only
  split
  · obtain ⟨new, hnew⟩ := reads_read _ (requestLength c.inBuf)
    exact ⟨new, hroomy.trans hnew⟩
  · exact ⟨[], hroomy⟩

/-- The request loop of `client_process_data`. -/
def requestLoop (c : Client) : Client :=
  if c.authenticated ∧ 4 ≤ c.inBuf.length then
    if c.await.inBuf.length < requestLength c.inBuf then c.await
    else requestLoop (c.await.dispatch (requestLength c.inBuf))
  else
    c
termination_by c.pending
decreasing_by
  obtain ⟨new, hreads⟩ := reads_await c
  have hfour := four_le_requestLength c.inBuf
  have hpending := hreads.pending
  unfold pending at hpending ⊢
  rw [dispatch, List.length_drop]
  dsimp only
  omega

def processData (c : Client) : Client :=
  if ¬(c.active ∧ c.allocated) then c
  else if c.makeRoom.meetsEnd then (c.makeRoom.read c.makeRoom.inCap).close
  else
    let c := c.makeRoom.read c.makeRoom.inCap
    if c.inBuf.length = 0 then c
    else if c.authenticated then c.requestLoop
    else if HandshakeDone c.inBuf then
      { c with authenticated := true, inBuf := c.inBuf.drop (handshakeLength c.inBuf) }.requestLoop
    else
      c

/-! ## What is dispatched -/

/-- The bytes read so far are cut as their length fields say: handshake, requests dispatched, bytes in the buffer. -/
def Framed (c : Client) : Prop := session c.taken = (c.authenticated, c.dispatched, c.inBuf)

/-- **The request loop.** It dispatches the requests of the buffer and of what it reads meanwhile. -/
theorem requestLoop_spec (c : Client) (hauth : c.authenticated = true) : ∃ new, c.requestLoop.taken = c.taken ++ new ∧
      c.requestLoop.dispatched = c.dispatched ++ (requestFraming.parse (c.inBuf ++ new)).1 ∧
      c.requestLoop.inBuf = (requestFraming.parse (c.inBuf ++ new)).2 ∧ c.requestLoop.authenticated = true := by
  induction c using requestLoop.induct with
  | case1 c hgo hfits =>
    obtain ⟨new, hreads⟩ := reads_await c
    have hsize := requestFraming.size_append (requestFraming_size hgo.2) new
    rw [requestLoop, if_pos hgo, if_pos hfits]
    -- the request at the front is not complete yet
    have hparse : requestFraming.parse (c.inBuf ++ new) = ([], c.inBuf ++ new) := by
      refine Framing.parse_eq_nil fun n hn => ?_
      obtain rfl := Option.some.inj (hsize.symm.trans hn.1)
      rw [hreads.inBuf] at hfits
      exact absurd hn.2 (Nat.not_le.2 hfits)
    refine ⟨new, hreads.taken, ?_, ?_, hreads.authenticated.trans hauth⟩
    · rw [hparse, append_nil, hreads.dispatched]
    · rw [hparse, hreads.inBuf]
  | case2 c hgo hlong ih =>
    obtain ⟨new, hreads⟩ := reads_await c
    have hcomp : requestFraming.Complete (c.inBuf ++ new) (requestLength c.inBuf) :=
      ⟨requestFraming.size_append (requestFraming_size hgo.2) new, hreads.inBuf ▸ Nat.not_lt.1 hlong⟩
    obtain ⟨new', htook, hdisp, hbuf, hstay⟩ := ih (hreads.authenticated.trans hauth)
    rw [requestLoop, if_pos hgo, if_neg hlong]
    have hparse : requestFraming.parse (c.inBuf ++ (new ++ new')) = ((c.inBuf ++ new).take (requestLength c.inBuf) ::
          (requestFraming.parse ((c.inBuf ++ new).drop (requestLength c.inBuf) ++ new')).1,
          (requestFraming.parse ((c.inBuf ++ new).drop (requestLength c.inBuf) ++ new')).2) := by
      rw [← append_assoc, (hcomp.append new').parse_eq, take_append_of_le_length hcomp.2,
        drop_append_of_le_length hcomp.2]
    refine ⟨new ++ new', ?_, ?_, ?_, hstay⟩
    · rw [htook, dispatch, hreads.taken, append_assoc]
    · rw [hdisp, dispatch, hreads.dispatched, hreads.inBuf, hparse, append_assoc, singleton_append]
    · rw [hbuf, dispatch, hreads.inBuf, hparse]
  | case3 c hstop =>
    rw [requestLoop, if_neg hstop]
    have hfits : c.inBuf.length < 4 := Nat.not_le.1 fun hlen => hstop ⟨hauth, hlen⟩
    refine ⟨[], (append_nil _).symm, ?_, ?_, hauth⟩
    · rw [append_nil, Framing.parse_eq_nil (requestFraming_not_complete hfits), append_nil]
    · rw [append_nil, Framing.parse_eq_nil (requestFraming_not_complete hfits)]

theorem Framed.handshakeDone {c : Client} (h : c.Framed) (hauth : c.authenticated = true) : HandshakeDone c.taken := by
  by_contra hnot
  rw [Framed, session, if_neg hnot, hauth] at h
  exact false_ne_true (congrArg Prod.fst h)

theorem Framed.not_handshakeDone {c : Client} (h : c.Framed) (hauth : ¬c.authenticated = true) :
    ¬HandshakeDone c.taken := by
  intro hdone
  rw [Framed, session, if_pos hdone] at h
  exact hauth (congrArg Prod.fst h).symm

theorem Framed.unauthenticated {c : Client} (h : c.Framed) (hauth : ¬c.authenticated = true) :
    c.dispatched = [] ∧ c.inBuf = c.taken := by
  have hnot := h.not_handshakeDone hauth
  rw [Framed, session, if_neg hnot] at h
  injection h with _ hrest
  injection hrest with hdisp hbuf
  exact ⟨hdisp.symm, hbuf.symm⟩

theorem Framed.dispatched_eq {c : Client} (h : c.Framed) : c.dispatched = requestsOf c.taken := by
  rw [requestsOf, h]

theorem Framed.session_append {c : Client} (h : c.Framed) (hauth : c.authenticated = true) (t : List UInt8) :
    session (c.taken ++ t) =
      (true, c.dispatched ++ (requestFraming.parse (c.inBuf ++ t)).1, (requestFraming.parse (c.inBuf ++ t)).2) := by
  rw [X11.session_append (h.handshakeDone hauth), ← h.dispatched_eq, h]

theorem Framed.processData {c : Client} (h : c.Framed) (hgo : c.active = true ∧ c.allocated = true)
    (hopen : c.makeRoom.meetsEnd = false) : c.processData.Framed := by
  obtain ⟨new, hread⟩ := reads_read c.makeRoom c.makeRoom.inCap
  have hreads : Reads c (c.makeRoom.read c.makeRoom.inCap) new := (reads_makeRoom c).trans hread
  rw [Client.processData, if_neg (not_not.2 hgo), hopen, if_neg Bool.false_ne_true]
  generalize c.makeRoom.read c.makeRoom.inCap = c' at hreads ⊢
  by_cases hemp : c'.inBuf.length = 0
  · -- nothing was read and nothing was left over
    have hnil := append_eq_nil_iff.1 (hreads.inBuf.symm.trans (eq_nil_of_length_eq_zero hemp))
    rw [if_pos hemp, Framed, hreads.taken, hnil.2, append_nil, h, hreads.authenticated, hreads.dispatched,
      hreads.inBuf, hnil.2, append_nil]
  rw [if_neg hemp]
  by_cases hauth : c.authenticated = true
  · have hauth' : c'.authenticated = true := hreads.authenticated.trans hauth
    obtain ⟨new', htook, hdisp, hbuf, hstay⟩ := requestLoop_spec c' hauth'
    rw [if_pos hauth', Framed, htook, hreads.taken, append_assoc, h.session_append hauth, hdisp, hbuf, hstay,
      hreads.dispatched, hreads.inBuf, append_assoc]
  have hauth' : ¬c'.authenticated = true := hreads.authenticated ▸ hauth
  obtain ⟨hnone, hall⟩ := h.unauthenticated hauth
  have hall' : c'.inBuf = c'.taken := by rw [hreads.inBuf, hreads.taken, hall]
  rw [if_neg hauth']
  by_cases hdone : HandshakeDone c'.inBuf
  · obtain ⟨new', htook, hdisp, hbuf, hstay⟩ := requestLoop_spec
      { c' with authenticated := true, inBuf := c'.inBuf.drop (handshakeLength c'.inBuf) } rfl
    rw [if_pos hdone, Framed, htook, hdisp, hbuf, hstay]
    rw [← hall', session, if_pos (hdone.append new'), handshakeLength_append hdone.1,
      drop_append_of_le_length hdone.2, hreads.dispatched, hnone, nil_append]
  · rw [if_neg hdone, Framed, ← hall', session, if_neg hdone, hreads.dispatched, hnone]
    rw [not_eq_true] at hauth'
    rw [hauth']

/-- The first read loop of a call meets the end of the stream, after bytes that complete a request. -/
def CutOff (c : Client) : Prop :=
  (c.active = true ∧ c.allocated = true) ∧ c.makeRoom.meetsEnd = true ∧
    requestsOf (c.makeRoom.read c.makeRoom.inCap).taken ≠ requestsOf c.taken

/-- What holds between calls while no call was cut off. -/
structure Served (c : Client) : Prop where
  framed : c.active = true → c.Framed
  dispatched : c.dispatched = requestsOf c.taken

/-- What holds once a call was cut off. -/
structure Missed (c : Client) : Prop where
  inactive : c.active = false
  dispatched : c.dispatched ≠ requestsOf c.taken

theorem Served.processData {c : Client} (h : c.Served) (hcut : ¬c.CutOff) : c.processData.Served := by
  by_cases hgo : c.active = true ∧ c.allocated = true
  · cases hend : c.makeRoom.meetsEnd with
    | false =>
      have hframed := (h.framed hgo.1).processData hgo hend
      exact ⟨fun _ => hframed, hframed.dispatched_eq⟩
    | true =>
      obtain ⟨new, hread⟩ := reads_read c.makeRoom c.makeRoom.inCap
      have hsame : requestsOf (c.makeRoom.read c.makeRoom.inCap).taken = requestsOf c.taken := by
        by_contra hne
        exact hcut ⟨hgo, hend, hne⟩
      rw [Client.processData, if_neg (not_not.2 hgo), if_pos hend]
      refine ⟨fun hact => Bool.noConfusion hact, ?_⟩
      exact (((reads_makeRoom c).trans hread).dispatched.trans h.dispatched).trans hsame.symm
  · rw [Client.processData, if_pos hgo]
    exact h

theorem Served.processData_cutOff {c : Client} (h : c.Served) (hcut : c.CutOff) : c.processData.Missed := by
  obtain ⟨hgo, hend, hne⟩ := hcut
  obtain ⟨new, hread⟩ := reads_read c.makeRoom c.makeRoom.inCap
  rw [Client.processData, if_neg (not_not.2 hgo), if_pos hend]
  refine ⟨rfl, fun heq => hne ?_⟩
  exact heq.symm.trans (((reads_makeRoom c).trans hread).dispatched.trans h.dispatched)

theorem Missed.processData {c : Client} (h : c.Missed) : c.processData = c := by
  rw [Client.processData, if_pos fun hgo => false_ne_true (h.inactive.symm.trans hgo.1)]

theorem served_accept (allocated : Bool) (arrivals : List Arrival) (reallocs : List Bool) :
    (accept allocated arrivals reallocs).Served := by
  have hnot : ¬HandshakeDone [] := by decide
  have hframed : (accept allocated arrivals reallocs).Framed := by
    rw [Framed, accept, session, if_neg hnot]
  exact ⟨fun _ => hframed, hframed.dispatched_eq⟩

end Client

open Client

/-! ## Runs -/

open Client in
/-- After any number of calls, either none was cut off and all is served, or one was and the client is gone. -/
theorem served_or_missed (allocated : Bool) (arrivals : List Arrival) (reallocs : List Bool) (n : Nat) :
    ((∀ j < n, ¬(processData^[j] (accept allocated arrivals reallocs)).CutOff) ∧
        (processData^[n] (accept allocated arrivals reallocs)).Served) ∨
      ((∃ j < n, (processData^[j] (accept allocated arrivals reallocs)).CutOff) ∧
        (processData^[n] (accept allocated arrivals reallocs)).Missed) := by
  induction n with
  | zero => exact .inl ⟨fun j hj => absurd hj (Nat.not_lt_zero j), served_accept allocated arrivals reallocs⟩
  | succ n ih =>
    rw [Function.iterate_succ_apply']
    rcases ih with ⟨hnone, hserved⟩ | ⟨⟨j, hj, hcut⟩, hmiss⟩
    · by_cases hcut : (processData^[n] (accept allocated arrivals reallocs)).CutOff
      · exact .inr ⟨⟨n, Nat.lt_succ_self n, hcut⟩, hserved.processData_cutOff hcut⟩
      · refine .inl ⟨fun j hj => ?_, hserved.processData hcut⟩
        rcases Nat.lt_succ_iff_lt_or_eq.1 hj with hlt | rfl
        · exact hnone j hlt
        · exact hcut
    · rw [hmiss.processData]
      exact .inr ⟨⟨j, Nat.lt_succ_of_lt hj, hcut⟩, hmiss⟩

/-- **Request framing.** Whatever a client sends and however it arrives, the requests handed to `dispatch_request` are
the complete requests of the bytes received exactly if no call met the end of the stream in its first read loop after
bytes that complete a request. -/
theorem request_framing_iff (allocated : Bool) (arrivals : List Arrival) (reallocs : List Bool) (n : Nat) :
    (processData^[n] (accept allocated arrivals reallocs)).dispatched =
        requestsOf (processData^[n] (accept allocated arrivals reallocs)).taken ↔
      ∀ j < n, ¬(processData^[j] (accept allocated arrivals reallocs)).CutOff := by
  rcases served_or_missed allocated arrivals reallocs n with ⟨hnone, hserved⟩ | ⟨⟨j, hj, hcut⟩, hmissed⟩
  · exact ⟨fun _ => hnone, fun _ => hserved.dispatched⟩
  · exact ⟨fun heq => absurd heq hmissed.dispatched, fun hnone => absurd hcut (hnone j hj)⟩

/-- A handshake and a `NoOperation` request. -/
def hello : List UInt8 := [0x6c, 0, 11, 0, 0, 0, 0, 0, 0, 0, 0, 0, 127, 0, 1, 0]

/-- A client that sends its request and closes the connection, and one that waits a moment in between: the request of
the first one is lost. -/
theorem request_lost : requestsOf hello = [[127, 0, 1, 0]] ∧
      (∃ c, processData^[1] (accept true [.data 0x6c hello.tail, .closed] []) = c ∧
        c.taken = hello ∧ c.dispatched = [] ∧ c.active = false) ∧
      ∃ c, processData^[2] (accept true [.data 0x6c hello.tail, .later, .closed] []) = c ∧
        c.taken = hello ∧ c.dispatched = [[127, 0, 1, 0]] ∧ c.active = false := by
  refine ⟨by decide +kernel, ⟨_, rfl, ?_⟩, ⟨_, rfl, ?_⟩⟩
  · decide +kernel
  · decide +kernel

end SzpontOS.X11

import Coursework.Lib.Machine
import Mathlib.Data.List.Basic
import Mathlib.Data.List.TakeWhile
import Mathlib.Data.Nat.Notation
import Mathlib.Tactic.SplitIfs

/-!
# The echo client and server of `client.c` and `server.c`

The two programs exchange lines over a connection that keeps the bytes in order and hands them
over in pieces of any size. Both take what one `recv` returns for a whole message. The event of
a `recv` says how many bytes it returns; 0 is the end of the stream.
-/
namespace Coursework.Cn

abbrev Line := List UInt8

namespace Echo

/-- `"bye\n"` -/
def bye : Line := [98, 121, 101, 10]

def newline : UInt8 := 10

/-- `MAXLINE` of the client -/
def maxLine : ℕ := 1024

/-- `sizeof(recv_msg)` of the server -/
def recvSize : ℕ := 255

/-- The string in an array of `size` zeros into which the bytes of `piece` were received; `none`
when it does not end in the array. -/
def cString (size : ℕ) (piece : Line) : Option Line :=
  let array := piece ++ List.replicate (size - piece.length) 0
  if 0 ∈ array then some (array.takeWhile (· ≠ 0)) else none

/-- What `recv` returns of a stream into `size` bytes. -/
def recv (stream : Line) (closed : Bool) (size n : ℕ) : Option Line :=
  if n = 0 then (if stream = [] ∧ closed then some [] else none)
  else if n ≤ size ∧ n ≤ stream.length then some (stream.take n)
  else none

/-- `undefined` is a program that went on with a string that has no end. -/
inductive Client where
  | typing
  | waiting (line : Line)
  | leaving
  | gone
  | undefined
  deriving DecidableEq

inductive Server where
  | receiving
  | replying (msg : Line)
  | left
  | undefined
  deriving DecidableEq

/-- A connection. The last three fields are a record: whether the client has sent the line
`bye`, whether a `recv` of the server has returned 0, and the lines with the replies printed. -/
structure Session where
  client : Client
  server : Server
  toServer : Line
  toClient : Line
  closed : Bool
  saidBye : Bool
  ended : Bool
  replies : List (Line × Line)
  deriving DecidableEq

inductive Event where
  | type (line : Line)
  | clientRecv (n : ℕ)
  | clientClose
  /-- The client is killed; its end of the connection is closed then. -/
  | clientDies
  | serverRecv (n : ℕ)
  | serverSend
  deriving DecidableEq

/-- What `fgets` returns for a line that fits. -/
def IsLine (line : Line) : Prop :=
  line.length < maxLine ∧ 0 ∉ line ∧ newline ∉ line.dropLast ∧ line.getLast? = some newline

instance : DecidablePred IsLine := fun _ => inferInstanceAs (Decidable (_ ∧ _))

namespace Session

/-- The client after a `recv` for the reply to `line`. -/
def print (s : Session) (line piece : Line) : Session :=
  match cString maxLine piece with
  | some reply => { s with client := .typing, replies := s.replies ++ [(line, reply)] }
  | none => { s with client := .undefined }

/-- The server after a `recv`: `strcmp` with `"bye\n"`, and then the session is left or the
message is sent back. -/
def answer (s : Session) (piece : Line) : Session :=
  match cString recvSize piece with
  | some msg => { s with server := if msg = bye then .left else .replying msg }
  | none => { s with server := .undefined }

def step (s : Session) : Event → Option Session
  | .type line =>
    if s.client = .typing ∧ IsLine line then
      some { s with
        toServer := s.toServer ++ line
        client := if line = bye then .leaving else .waiting line
        saidBye := s.saidBye || decide (line = bye) }
    else none
  | .clientRecv n =>
    match s.client with
    | .waiting line => (recv s.toClient (s.server = .left) maxLine n).map fun piece =>
        { s with toClient := s.toClient.drop n }.print line piece
    | _ => none
  | .clientClose =>
    if s.client = .leaving then some { s with client := .gone, closed := true } else none
  | .clientDies =>
    if s.client = .gone then none else some { s with client := .gone, closed := true }
  | .serverRecv n =>
    if s.server = .receiving then
      (recv s.toServer s.closed recvSize n).map fun piece =>
        { s with toServer := s.toServer.drop n, ended := s.ended || decide (n = 0) }.answer piece
    else none
  | .serverSend =>
    match s.server with
    | .replying msg => some { s with server := .receiving, toClient := s.toClient ++ msg }
    | _ => none

/-- Accepted and nothing sent. -/
def start : Session := ⟨.typing, .receiving, [], [], false, false, false, []⟩

def machine : Machine Session Event where
  init s := s = start
  step := step

/-- Client and server are in step: replies are the lines, and the server has left the session if,
and only if, it has received the line `bye` to its end or the end of the stream. -/
structure InStep (s : Session) : Prop where
  replies : ∀ p ∈ s.replies, p.2 = p.1
  only : s.server = .left → s.saidBye = true ∨ s.ended = true
  leaves : s.server ≠ .left → s.ended = false ∧ (s.saidBye = true → s.toServer ≠ [])
  server : s.server ≠ .undefined
  client : s.client ≠ .undefined

/-- A `recv` of the client returns as many bytes as its line has. One of the server never
returns 0 and leaves room for the end of the string; it returns `bye` only when the client has
sent that line, and the one that takes the last bytes of that line returns all of it. -/
def Whole (s : Session) : Event → Prop
  | .clientRecv n => ∀ line, s.client = .waiting line → n = line.length
  | .serverRecv n => n ≠ 0 ∧ n < recvSize ∧ (s.toServer.take n = bye → s.saidBye = true) ∧
      (s.saidBye = true → n = s.toServer.length → s.toServer.take n = bye)
  | _ => True

variable {s s' : Session} {e : Event} {line piece stream : Line} {size n : ℕ}

/-! ### What `recv` returns -/

theorem cString_of_lt (hlt : piece.length < size) (hnul : 0 ∉ piece) :
    cString size piece = some piece := by
  have hpad : List.replicate (size - piece.length) (0 : UInt8) =
      0 :: List.replicate (size - piece.length - 1) 0 := by
    rw [← List.replicate_succ]
    congr 1
    omega
  have htake : (piece ++ List.replicate (size - piece.length) 0).takeWhile (· ≠ 0) = piece := by
    rw [List.takeWhile_append_of_pos]
    · simp [hpad]
    · intro b hb
      simp only [ne_eq, decide_not, Bool.not_eq_eq_eq_not, Bool.not_true, decide_eq_false_iff_not]
      rintro rfl
      exact hnul hb
  rw [cString]
  simp only [htake]
  exact if_pos (by simp [hpad])

theorem cString_of_le (hle : size ≤ piece.length) (hnul : 0 ∉ piece) :
    cString size piece = none := by
  rw [cString, Nat.sub_eq_zero_of_le hle]
  simp [hnul]

theorem recv_cases {closed : Bool} (h : recv stream closed size n = some piece) :
    (n = 0 ∧ stream = [] ∧ closed = true ∧ piece = []) ∨
      (0 < n ∧ n ≤ size ∧ n ≤ stream.length ∧ piece = stream.take n) := by
  rw [recv] at h
  split_ifs at h with h0 hend hn
  · left
    exact ⟨h0, hend.1, hend.2, (Option.some.inj h).symm⟩
  · right
    exact ⟨by omega, hn.1, hn.2, (Option.some.inj h).symm⟩

/-! ### What the steps keep -/

/-- Where the bytes of the line are that the client waits for. -/
def Flow (s : Session) : Prop :=
  match s.client with
  | .typing => s.server = .receiving ∧ s.toServer = [] ∧ s.toClient = [] ∧ s.saidBye = false
  | .waiting line => line.length < maxLine ∧ 0 ∉ line ∧ s.saidBye = false ∧
      (s.server = .receiving ∧ s.toClient ++ s.toServer = line ∨
        ∃ msg, msg ≠ [] ∧ s.server = .replying msg ∧ s.toClient ++ msg ++ s.toServer = line)
  | _ => True

structure Inv (s : Session) : Prop where
  inStep : s.InStep
  noNul : 0 ∉ s.toServer
  flow : s.Flow

theorem Flow.said (h : s.Flow) (hbye : s.saidBye = true) :
    s.client = .leaving ∨ s.client = .gone ∨ s.client = .undefined := by
  rw [Flow] at h
  cases hc : s.client with
  | typing => simp [hc, hbye] at h
  | waiting line => simp [hc, hbye] at h
  | leaving => simp
  | gone => simp
  | undefined => simp

theorem Inv.type (hi : s.Inv) (hs : s.step (.type line) = some s') : s'.Inv := by
  simp only [step, Option.ite_none_right_eq_some, Option.some.injEq] at hs
  obtain ⟨⟨hc, hlen, hnul, -, hlast⟩, rfl⟩ := hs
  obtain ⟨hserver, hto, hfrom, hsaid⟩ : _ ∧ _ ∧ _ ∧ _ := by
    have hflow := hi.flow
    rwa [Flow, hc] at hflow
  have hne : line ≠ [] := by
    rintro rfl
    simp at hlast
  have hleft : s.server ≠ .left := by simp [hserver]
  refine ⟨⟨hi.inStep.replies, fun h => absurd h hleft, fun _ => ?_, hi.inStep.server, ?_⟩, ?_, ?_⟩
  · exact ⟨(hi.inStep.leaves hleft).1, fun _ => by simp [hto, hne]⟩
  · by_cases hbye : line = bye <;> simp [hbye]
  · simpa [hto] using hnul
  · by_cases hbye : line = bye
    · simp [Flow, hbye]
    · simp [Flow, hbye, hlen, hnul, hserver, hto, hfrom, hsaid]

theorem Inv.serverRecv (hi : s.Inv) (hw : s.Whole (.serverRecv n))
    (hs : s.step (.serverRecv n) = some s') : s'.Inv := by
  simp only [step, Option.ite_none_right_eq_some, Option.map_eq_some_iff] at hs
  obtain ⟨hserver, piece, hrecv, rfl⟩ := hs
  obtain ⟨hn, hlt, honly, hlast⟩ := hw
  obtain ⟨h0, -⟩ | ⟨-, -, hlen, rfl⟩ := recv_cases hrecv
  · exact absurd h0 hn
  have hnul : 0 ∉ s.toServer.take n := fun h => hi.noNul (List.mem_of_mem_take h)
  have hne : s.toServer.take n ≠ [] := by
    intro h
    have hl := congrArg List.length h
    rw [List.length_take, List.length_nil] at hl
    omega
  rw [answer, cString_of_lt (by rw [List.length_take]; omega) hnul]
  have hnul' : 0 ∉ s.toServer.drop n := fun h => hi.noNul (List.mem_of_mem_drop h)
  have hleft : s.server ≠ .left := by simp [hserver]
  by_cases hbye : s.toServer.take n = bye
  · have hclient := hi.flow.said (honly hbye)
    refine ⟨⟨hi.inStep.replies, fun _ => .inl (honly hbye), fun h => ?_, ?_, hi.inStep.client⟩,
      hnul', ?_⟩
    · simp [hbye] at h
    · simp [hbye]
    · rcases hclient with hc | hc | hc <;> simp [Flow, hc]
  · refine ⟨⟨hi.inStep.replies, fun h => ?_, fun _ => ?_, ?_, hi.inStep.client⟩, hnul', ?_⟩
    · simp [hbye] at h
    · refine ⟨by simp [(hi.inStep.leaves hleft).1, hn], fun hsaid hnil => ?_⟩
      rw [List.drop_eq_nil_iff] at hnil
      exact hbye (hlast hsaid (by omega))
    · simp [hbye]
    · have hflow := hi.flow
      rw [Flow] at hflow ⊢
      simp only [hbye, if_false]
      cases hc : s.client with
      | typing =>
        simp only [hc] at hflow
        simp [hflow.2.1] at hne
      | waiting line =>
        simp only [hc, hserver] at hflow
        obtain ⟨hlen, hline, hsaid, hsplit⟩ := hflow
        refine ⟨hlen, hline, hsaid, .inr ⟨_, hne, rfl, ?_⟩⟩
        rw [List.append_assoc, List.take_append_drop]
        simpa using hsplit
      | leaving => trivial
      | gone => trivial
      | undefined => trivial

theorem Inv.serverSend (hi : s.Inv) (hs : s.step .serverSend = some s') : s'.Inv := by
  rw [step] at hs
  cases hserver : s.server with
  | replying msg =>
    simp only [hserver, Option.some.injEq] at hs
    subst hs
    have hleft : s.server ≠ .left := by simp [hserver]
    refine ⟨⟨hi.inStep.replies, nofun, fun _ => hi.inStep.leaves hleft, nofun, hi.inStep.client⟩,
      hi.noNul, ?_⟩
    have hflow := hi.flow
    rw [Flow] at hflow ⊢
    cases hc : s.client with
    | typing => simp [hc, hserver] at hflow
    | waiting line =>
      simp only [hc, hserver] at hflow
      obtain ⟨hlen, hline, hsaid, hsplit⟩ := hflow
      have hsplit : msg ≠ [] ∧ s.toClient ++ msg ++ s.toServer = line := by simpa using hsplit
      exact ⟨hlen, hline, hsaid, .inl ⟨rfl, hsplit.2⟩⟩
    | leaving => trivial
    | gone => trivial
    | undefined => trivial
  | receiving => simp [hserver] at hs
  | left => simp [hserver] at hs
  | undefined => simp [hserver] at hs

/-- While the client waits, what has come back of its line is the beginning of it; all of it is
there only when nothing is on the way any more. -/
theorem Flow.waiting (h : s.Flow) (hc : s.client = .waiting line) :
    line.length < maxLine ∧ 0 ∉ line ∧ s.saidBye = false ∧ s.server ≠ .left ∧
      s.toClient <+: line ∧
      (line.length ≤ s.toClient.length → s.server = .receiving ∧ s.toServer = []) := by
  rw [Flow] at h
  simp only [hc] at h
  obtain ⟨hlen, hline, hsaid, ⟨hserver, hsplit⟩ | ⟨msg, hmsg, hserver, hsplit⟩⟩ := h
  · refine ⟨hlen, hline, hsaid, by simp [hserver], ⟨_, hsplit⟩, fun hle => ⟨hserver, ?_⟩⟩
    have hl := congrArg List.length hsplit
    rw [List.length_append] at hl
    exact List.length_eq_zero_iff.mp (by omega)
  · refine ⟨hlen, hline, hsaid, by simp [hserver], ⟨msg ++ s.toServer, by simp [← hsplit]⟩,
      fun hle => ?_⟩
    have hl := congrArg List.length hsplit
    simp only [List.length_append] at hl
    exact absurd (List.length_eq_zero_iff.mp (by omega)) hmsg

/-- A `recv` of the client returns the first bytes of its line. -/
theorem Inv.clientRecv_cases (hi : s.Inv) (hs : s.step (.clientRecv n) = some s') :
    ∃ line, s.client = .waiting line ∧ 0 < n ∧ n ≤ s.toClient.length ∧
      s.toClient.take n = line.take n ∧ n ≤ line.length ∧
      s' = { s with
        toClient := s.toClient.drop n
        client := .typing
        replies := s.replies ++ [(line, line.take n)] } := by
  rw [step] at hs
  cases hc : s.client with
  | waiting line =>
    simp only [hc, Option.map_eq_some_iff] at hs
    obtain ⟨piece, hrecv, rfl⟩ := hs
    obtain ⟨hlen, hline, -, hleft, hprefix, -⟩ := hi.flow.waiting hc
    obtain ⟨-, -, hleft', -⟩ | ⟨hn, -, hle, rfl⟩ := recv_cases hrecv
    · exact absurd (by simpa using hleft') hleft
    have htake : s.toClient.take n = line.take n := by
      rw [List.prefix_iff_eq_take.mp hprefix, List.take_take, Nat.min_eq_left hle]
    have hnl : n ≤ line.length := hle.trans hprefix.length_le
    refine ⟨line, rfl, hn, hle, htake, hnl, ?_⟩
    rw [htake, print, cString_of_lt (by rw [List.length_take]; omega)
      fun h => hline (List.mem_of_mem_take h)]
  | typing => simp [hc] at hs
  | leaving => simp [hc] at hs
  | gone => simp [hc] at hs
  | undefined => simp [hc] at hs

theorem Inv.clientRecv (hi : s.Inv) (hw : s.Whole (.clientRecv n))
    (hs : s.step (.clientRecv n) = some s') : s'.Inv := by
  obtain ⟨line, hc, hn, hle, htake, -, rfl⟩ := hi.clientRecv_cases hs
  obtain rfl := hw line hc
  obtain ⟨-, -, hsaid, -, -, hall⟩ := hi.flow.waiting hc
  obtain ⟨hserver, hto⟩ := hall hle
  refine ⟨⟨fun p hp => ?_, hi.inStep.only, hi.inStep.leaves, hi.inStep.server, nofun⟩, hi.noNul, ?_⟩
  · rw [List.mem_append, List.mem_singleton] at hp
    rcases hp with hp | rfl
    · exact hi.inStep.replies p hp
    · exact List.take_length
  · have hdrop : s.toClient.drop line.length = [] := by
      obtain ⟨-, -, -, -, hprefix, -⟩ := hi.flow.waiting hc
      exact List.drop_eq_nil_of_le hprefix.length_le
    simp [Flow, hserver, hto, hsaid, hdrop]

theorem Inv.gone (hi : s.Inv) : Inv { s with client := .gone, closed := true } :=
  ⟨⟨hi.inStep.replies, hi.inStep.only, hi.inStep.leaves, hi.inStep.server, nofun⟩, hi.noNul, trivial⟩

theorem Inv.step (hi : s.Inv) (hw : s.Whole e) (hs : s.step e = some s') : s'.Inv := by
  cases e with
  | type line => exact hi.type hs
  | clientRecv n => exact hi.clientRecv hw hs
  | serverRecv n => exact hi.serverRecv hw hs
  | serverSend => exact hi.serverSend hs
  | clientClose =>
    simp only [Session.step, Option.ite_none_right_eq_some, Option.some.injEq] at hs
    rw [← hs.2]
    exact hi.gone
  | clientDies =>
    simp only [Session.step, Option.ite_none_left_eq_some, Option.some.injEq] at hs
    rw [← hs.2]
    exact hi.gone

/-! ### Where client and server come apart -/

/-- A reply that is not whole is printed. -/
theorem Inv.not_inStep_client (hi : s.Inv) (hw : ¬ s.Whole (.clientRecv n))
    (hs : s.step (.clientRecv n) = some s') : ¬ s'.InStep := by
  obtain ⟨line, hc, -, -, -, hle, rfl⟩ := hi.clientRecv_cases hs
  intro hin
  have hreply : line.take n = line := hin.replies (line, line.take n) (by simp)
  apply hw
  intro line' hline'
  cases hc.symm.trans hline'
  have hlen := congrArg List.length hreply
  rw [List.length_take] at hlen
  omega

/-- The server leaves the session for a line that is not `bye`, stays in it, or goes on with a
string that has no end. -/
theorem Inv.not_inStep_server (hi : s.Inv) (hw : ¬ s.Whole (.serverRecv n))
    (hs : s.step (.serverRecv n) = some s') : ¬ s'.InStep := by
  simp only [Session.step, Option.ite_none_right_eq_some, Option.map_eq_some_iff] at hs
  obtain ⟨hserver, piece, hrecv, rfl⟩ := hs
  have hleft : s.server ≠ .left := by simp [hserver]
  have hended := (hi.inStep.leaves hleft).1
  obtain ⟨rfl, -, -, rfl⟩ | ⟨hn, hsize, hlen, rfl⟩ := recv_cases hrecv
  · have hempty : cString recvSize [] = some [] := cString_of_lt (by decide) (by simp)
    intro hin
    have hstays := hin.leaves (by simp [answer, hempty, bye])
    simp [answer, hempty] at hstays
  have hnul : 0 ∉ s.toServer.take n := fun h => hi.noNul (List.mem_of_mem_take h)
  by_cases hlt : n < recvSize
  · rw [answer, cString_of_lt (by rw [List.length_take]; omega) hnul]
    intro hin
    by_cases hbye : s.toServer.take n = bye
    · -- `bye` was no line of the client
      have hsaid : s.saidBye = false := by
        by_contra hsaid
        exact hw ⟨by omega, hlt, fun _ => by simpa using hsaid, fun _ _ => hbye⟩
      have honly := hin.only (by simp [hbye])
      simp [hsaid, hended, hn.ne'] at honly
    · -- the last bytes of the line `bye` came alone
      have hlast : s.saidBye = true ∧ n = s.toServer.length := by
        by_contra hno
        exact hw ⟨by omega, hlt, fun h => absurd h hbye, fun h h' => absurd ⟨h, h'⟩ hno⟩
      have hstays := (hin.leaves (by simp [hbye])).2 hlast.1
      exact hstays (List.drop_eq_nil_of_le hlast.2.ge)
  · rw [answer, cString_of_le (by rw [List.length_take]; omega) hnul]
    exact fun hin => hin.server rfl

theorem Inv.not_inStep (hi : s.Inv) (hw : ¬ s.Whole e) (hs : s.step e = some s') :
    ¬ s'.InStep := by
  cases e with
  | clientRecv n => exact hi.not_inStep_client hw hs
  | serverRecv n => exact hi.not_inStep_server hw hs
  | _ => exact absurd trivial hw

theorem inv_start : Inv start := by
  refine ⟨⟨nofun, nofun, fun _ => ⟨rfl, nofun⟩, nofun, nofun⟩, nofun, ?_⟩
  simp [Flow, start]

/-- Client and server stay in step along a run exactly when its pieces are whole. -/
theorem echo_in_step_iff (es : List Event) :
    machine.Visits InStep start es ↔ machine.Meets Whole start es := by
  apply Machine.visits_iff_meets (I := Inv) (fun _ hi => hi.inStep) ?_ ?_ inv_start
    (Machine.meets_true start es)
  · exact fun s e s' hi _ hw hs => hi.step hw hs
  · exact fun s e s' hi hw hs => hi.not_inStep hw hs

/-- `"hi\n"` -/
def greeting : Line := [104, 105, 10]

/-- The reply to the first line comes in two pieces; in the second session the client closes the
connection, and the server stays. -/
theorem echo_falls_out_of_step :
    ¬ machine.Visits InStep start
        [.type greeting, .serverRecv 3, .serverSend, .clientRecv 1] ∧
      ¬ machine.Visits InStep start [.clientDies, .serverRecv 0, .serverSend, .serverRecv 0] := by
  constructor
  · intro h
    have hlast := h.last (show machine.run start _ = some _ from rfl)
    exact absurd (hlast.replies (greeting, [104]) (by decide)) (by decide)
  · intro h
    have hlast := h.last (show machine.run start _ = some _ from rfl)
    exact absurd (hlast.leaves (by decide)).1 (by decide)

end Session
end Echo
end Coursework.Cn

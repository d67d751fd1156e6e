import ChaosForger.Handles
import ChaosForger.Http.Client

/-!
# ChaosForger.Http.UnixSocket

`UnixSocketTransport`: the calls of the transport as system calls.

The kernel answers each system call by what the process has asked before, so
that a theorem about every `Kernel` is one about every behaviour it can show:
partial sends, interrupted calls, timeouts, and reads cut anywhere.  The log
holds each call with its answer, for all transports of the process.

The two loops run on fuel; `Sending` and `receiving` say what they can have
done when they return, and `sendAll_returns` when the send loop does.
-/

namespace ChaosForger

open Libc

/-- The `errno` of a failed system call. -/
inductive Errno where
  | eintr
  | eagain
  | ewouldblock
  | other (code : Nat)
  deriving DecidableEq, Repr

inductive SocketOption where
  | receiveTimeout | sendTimeout
  deriving DecidableEq, Repr

/-- A system call, with what it returned. -/
inductive Syscall where
  | socket (result : Except Errno Nat)
  | setsockopt (fd : Int) (option : SocketOption) (seconds : Int)
  | connect (fd : Int) (path : List UInt8) (result : Except Errno Unit)
  | send (fd : Int) (data : List UInt8) (result : Except Errno Nat)
  | recv (fd : Int) (result : Except Errno (List UInt8))
  | close (fd : Int)

namespace Syscall

/-- What a call does with a descriptor. -/
def access : Syscall → Option (Handles.Access Int)
  | .socket (.ok fd) => some (.acquire fd)
  | .socket (.error _) => none
  | .setsockopt fd _ _ | .connect fd _ _ | .send fd _ _ | .recv fd _ => some (.use fd)
  | .close fd => some (.release fd)

/-- A new socket. -/
def opens : Syscall → Bool
  | .socket (.ok _) => true
  | _ => false

/-- The bytes the kernel took. -/
def accepted : Syscall → List UInt8
  | .send _ data (.ok n) => data.take n
  | _ => []

/-- The block a read brought: empty at the end of the stream. -/
def received : Syscall → Option (List UInt8)
  | .recv _ (.ok bytes) => some bytes
  | _ => none

end Syscall

def accesses (log : List Syscall) : List (Handles.Access Int) := log.filterMap Syscall.access

/-- The descriptors that are open after these calls. -/
def openFds (log : List Syscall) : List Int := Handles.held (accesses log)

def acceptedBytes (log : List Syscall) : List UInt8 := log.flatMap Syscall.accepted

/-- What the kernel gave, a block for each `recv` that did not fail. -/
def receivedBlocks (log : List Syscall) : List (List UInt8) := log.filterMap Syscall.received

def receivedBytes (log : List Syscall) : List UInt8 := (receivedBlocks log).flatten

/-- What the kernel took on each connection: the bytes between one socket and
the next. -/
def connections : List Syscall → List (List UInt8)
  | [] => []
  | call :: log =>
      if call.opens then acceptedBytes (log.takeWhile fun c => !c.opens) :: connections log
      else connections log

/-- The kernel, by its answers. -/
structure Kernel where
  socket : List Syscall → Except Errno Nat
  connect : List Syscall → Int → List UInt8 → Except Errno Unit
  send : List Syscall → Int → List UInt8 → Except Errno Nat
  recv : List Syscall → Int → Nat → Except Errno (List UInt8)
  strerror : Errno → List UInt8
  send_le : ∀ log fd data n, send log fd data = .ok n → n ≤ data.length
  recv_le : ∀ log fd len bytes, recv log fd len = .ok bytes → bytes.length ≤ len

def sysError (k : Kernel) (what : List UInt8) (errno : Errno) : List UInt8 :=
  what ++ lit ": " ++ k.strerror errno

structure UnixSocketTransport where
  socketPath : List UInt8
  timeoutSec : Int := 5
  fd : Int := -1
  /-- The system calls of the process so far. -/
  log : List Syscall := []

namespace UnixSocketTransport

/-- `sizeof(sockaddr_un::sun_path)` -/
def sunPathSize : Nat := 108

def emit (t : UnixSocketTransport) (call : Syscall) : UnixSocketTransport :=
  { t with log := t.log ++ [call] }

def close (t : UnixSocketTransport) : UnixSocketTransport :=
  if 0 ≤ t.fd then { t.emit (.close t.fd) with fd := -1 } else t

/-- A new descriptor, with its timeouts set. -/
def withSocket (t : UnixSocketTransport) (fd : Nat) : UnixSocketTransport :=
  let t := { t.emit (.socket (.ok fd)) with fd }
  let t := t.emit (.setsockopt t.fd .receiveTimeout t.timeoutSec)
  t.emit (.setsockopt t.fd .sendTimeout t.timeoutSec)

def connect (k : Kernel) (t : UnixSocketTransport) :
    Except (List UInt8) Unit × UnixSocketTransport :=
  if t.socketPath = [] then (.error (lit "socket path is empty"), t)
  else if sunPathSize ≤ t.socketPath.length then
    (.error (lit "socket path too long: '" ++ t.socketPath ++ lit "'"), t)
  else
    match k.socket t.log with
    | .error errno =>
        (.error (sysError k (lit "socket(AF_UNIX) failed") errno),
          { t.emit (.socket (.error errno)) with fd := -1 })
    | .ok fd =>
        let t := t.withSocket fd
        let path := cstr t.socketPath
        match k.connect t.log t.fd path with
        | .error errno =>
            (.error (sysError k (lit "connect('" ++ t.socketPath ++ lit "') failed") errno),
              (t.emit (.connect t.fd path (.error errno))).close)
        | .ok _ => (.ok (), t.emit (.connect t.fd path (.ok ())))

/-- One round of the send loop, with `sent` bytes taken so far. -/
def sendPass (k : Kernel) (data : List UInt8) : Nat × UnixSocketTransport →
    Pass (Nat × UnixSocketTransport) (Except (List UInt8) Unit × UnixSocketTransport)
  | (sent, t) =>
      if sent < data.length then
        let result := k.send t.log t.fd (data.drop sent)
        let t := t.emit (.send t.fd (data.drop sent) result)
        match result with
        | .error .eintr => .again (sent, t)
        | .error errno => .exit (.error (sysError k (lit "send() failed") errno), t)
        | .ok n => .again (sent + n, t)
      else .exit (.ok (), t)

def sendAll (k : Kernel) (data : List UInt8) (fuel : Nat) (t : UnixSocketTransport) :
    Option (Except (List UInt8) Unit × UnixSocketTransport) :=
  Loop.iterate (sendPass k data) fuel (0, t)

/-- One round of the read loop. -/
def readPass (k : Kernel) (bufLen : Nat) (t : UnixSocketTransport) :
    Pass UnixSocketTransport (Read × UnixSocketTransport) :=
  let result := k.recv t.log t.fd bufLen
  let t := t.emit (.recv t.fd result)
  match result with
  | .ok [] => .exit (.eof, t)
  | .ok bytes => .exit (.data bytes, t)
  | .error .eintr => .again t
  | .error .eagain => .exit (.failed (sysError k (lit "recv() timed out") .eagain), t)
  | .error .ewouldblock => .exit (.failed (sysError k (lit "recv() timed out") .ewouldblock), t)
  | .error errno => .exit (.failed (sysError k (lit "recv() failed") errno), t)

def readSome (k : Kernel) (bufLen fuel : Nat) (t : UnixSocketTransport) :
    Option (Read × UnixSocketTransport) :=
  Loop.iterate (readPass k bufLen) fuel t

def describe (t : UnixSocketTransport) : List UInt8 := lit "unix:" ++ t.socketPath

/-! ## What the loops do -/

section Loops

/-- The calls of the send loop for the bytes it has left, and the error that
ends it when there is one. -/
inductive Sending (fd : Int) : List UInt8 → List Syscall → Option Errno → Prop where
  | done : Sending fd [] [] none
  | interrupted {data calls stop} : data ≠ [] → Sending fd data calls stop →
      Sending fd data (.send fd data (.error .eintr) :: calls) stop
  | failed {data errno} : data ≠ [] → errno ≠ .eintr →
      Sending fd data [.send fd data (.error errno)] (some errno)
  | took {data n calls stop} : data ≠ [] → n ≤ data.length → Sending fd (data.drop n) calls stop →
      Sending fd data (.send fd data (.ok n) :: calls) stop

/-- What `sendAll` returns when this ends its loop. -/
def sendResult (k : Kernel) : Option Errno → Except (List UInt8) Unit
  | none => .ok ()
  | some errno => .error (sysError k (lit "send() failed") errno)

variable {k : Kernel} {data : List UInt8} {fuel : Nat} {t t' : UnixSocketTransport}

theorem sending_iterate {sent : Nat} {r : Except (List UInt8) Unit}
    (h : Loop.iterate (sendPass k data) fuel (sent, t) = some (r, t')) :
    ∃ calls stop, Sending t.fd (data.drop sent) calls stop ∧
      t' = { t with log := t.log ++ calls } ∧ r = sendResult k stop := by
  induction fuel generalizing sent t with
  | zero => contradiction
  | succ fuel ih =>
      rw [Loop.iterate, sendPass] at h
      by_cases hlt : sent < data.length
      · have hne : data.drop sent ≠ [] := by simpa using hlt
        rw [if_pos hlt] at h
        dsimp only at h
        cases hr : k.send t.log t.fd (data.drop sent) with
        | ok n =>
            rw [hr] at h
            obtain ⟨calls, stop, hcalls, rfl, rfl⟩ := ih h
            rw [← List.drop_drop] at hcalls
            exact ⟨_, stop, .took hne (k.send_le _ _ _ _ hr) hcalls, by simp [emit], rfl⟩
        | error errno =>
            rw [hr] at h
            cases errno with
            | eintr =>
                obtain ⟨calls, stop, hcalls, rfl, rfl⟩ := ih h
                exact ⟨_, stop, .interrupted hne hcalls, by simp [emit], rfl⟩
            | eagain | ewouldblock | other =>
                obtain ⟨rfl, rfl⟩ := Prod.mk.inj (Option.some.inj h)
                exact ⟨_, _, .failed hne (by simp), rfl, rfl⟩
      · rw [if_neg hlt] at h
        obtain ⟨rfl, rfl⟩ := Prod.mk.inj (Option.some.inj h)
        have hnil : data.drop sent = [] := by simpa using hlt
        exact ⟨[], none, hnil ▸ .done, by simp, rfl⟩

theorem sendAll_spec {r : Except (List UInt8) Unit} (h : sendAll k data fuel t = some (r, t')) :
    ∃ calls stop, Sending t.fd data calls stop ∧ t' = { t with log := t.log ++ calls } ∧
      r = sendResult k stop :=
  sending_iterate h

/-- **The bytes the kernel takes are the data, in order and none twice**: all
of them when the loop ends well, and fewer when it fails. -/
theorem Sending.accepted {fd : Int} {calls : List Syscall} {stop : Option Errno}
    (h : Sending fd data calls stop) :
    ∃ rest, acceptedBytes calls ++ rest = data ∧ (rest = [] ↔ stop = none) := by
  induction h with
  | done => exact ⟨[], rfl, by simp⟩
  | interrupted _ _ ih => exact ih
  | @failed data errno hne _ => exact ⟨data, rfl, by simp [hne]⟩
  | @took data n calls stop _ _ _ ih =>
      obtain ⟨rest, heq, hrest⟩ := ih
      refine ⟨rest, ?_, hrest⟩
      have hhead : acceptedBytes (.send fd data (.ok n) :: calls) =
          data.take n ++ acceptedBytes calls := rfl
      rw [hhead, List.append_assoc, heq, List.take_append_drop]

/-- The bytes the send loop still has. -/
def unsent (data : List UInt8) (s : Nat × UnixSocketTransport) : Nat := data.length - s.1

/-- The kernel answers the next `send` with no byte taken: it was interrupted,
or it took none. -/
def stalled (k : Kernel) (data : List UInt8) (s : Nat × UnixSocketTransport) : Bool :=
  s.1 < data.length &&
    match k.send s.2.log s.2.fd (data.drop s.1) with
    | .error .eintr | .ok 0 => true
    | _ => false

/-- The loop heads of the first `n` rounds where the kernel stalls. -/
def stallCount (k : Kernel) (data : List UInt8) (n : Nat) (t : UnixSocketTransport) : Nat :=
  (Loop.rounds (sendPass k data) n (0, t)).countP (stalled k data)

/-- A round that goes on keeps what is left or lowers it, and it is a stall that keeps it. -/
theorem unsent_sendPass {s s' : Nat × UnixSocketTransport} (h : sendPass k data s = .again s') :
    unsent data s' ≤ unsent data s ∧ (unsent data s' = unsent data s ↔ stalled k data s = true) := by
  obtain ⟨sent, t⟩ := s
  rw [sendPass] at h
  by_cases hlt : sent < data.length
  · rw [if_pos hlt] at h
    dsimp only at h
    cases hr : k.send t.log t.fd (data.drop sent) with
    | ok n =>
        rw [hr] at h
        cases h
        have hn : n ≤ (data.drop sent).length := k.send_le _ _ _ _ hr
        rw [List.length_drop] at hn
        cases n with
        | zero => simp [unsent, stalled, hlt, hr]
        | succ n =>
            simp only [unsent, stalled, hlt, hr, Bool.and_false, Bool.false_eq_true, iff_false]
            omega
    | error errno =>
        rw [hr] at h
        cases errno with
        | eintr =>
            cases h
            simp [unsent, stalled, hlt, hr]
        | eagain | ewouldblock | other => cases h
  · rw [if_neg hlt] at h
    cases h

theorem stalled_of_exit {s : Nat × UnixSocketTransport}
    {r : Except (List UInt8) Unit × UnixSocketTransport} (h : sendPass k data s = .exit r) :
    stalled k data s = false := by
  obtain ⟨sent, t⟩ := s
  rw [sendPass] at h
  by_cases hlt : sent < data.length
  · rw [if_pos hlt] at h
    dsimp only at h
    cases hr : k.send t.log t.fd (data.drop sent) with
    | ok n =>
        rw [hr] at h
        cases h
    | error errno =>
        rw [hr] at h
        cases errno with
        | eintr => cases h
        | eagain | ewouldblock | other => simp [stalled, hr]
  · simp [stalled, hlt]

/-- The rounds that keep what is left are the stalls of the kernel. -/
theorem stalls_sendPass (k : Kernel) (data : List UInt8) :
    Loop.stalls (sendPass k data) (unsent data) = stalled k data := by
  funext s
  rw [Loop.stalls]
  split
  · next s' hs => rw [Bool.eq_iff_iff, decide_eq_true_iff, (unsent_sendPass hs).2]
  · next r hs => exact (stalled_of_exit hs).symm

/-- **`send_all` returns exactly when the kernel stalls it finitely often**: a
bound on the stalls bounds the rounds, and a call that returns has stalled no
more than it went round. -/
theorem sendAll_returns (k : Kernel) (data : List UInt8) (t : UnixSocketTransport) :
    (∀ bound, (∀ n, stallCount k data n t ≤ bound) →
        (sendAll k data (data.length + bound + 1) t).isSome = true) ∧
      ∀ fuel, (sendAll k data fuel t).isSome = true → ∀ n, stallCount k data n t ≤ fuel := by
  have hrank : ∀ s s', sendPass k data s = .again s' → unsent data s' ≤ unsent data s :=
    fun s s' h => (unsent_sendPass h).1
  have hiff := Loop.returns_iff_stalls hrank (0, t)
  rw [stalls_sendPass] at hiff
  exact hiff

theorem Sending.mem {fd : Int} {calls : List Syscall} {stop : Option Errno}
    (h : Sending fd data calls stop) : ∀ c ∈ calls, ∃ rest result, c = .send fd rest result := by
  induction h with
  | done => simp
  | interrupted _ _ ih | took _ _ _ ih => simpa using ih
  | failed => simp

/-- The outcome of a read, by the answer that ends it. -/
def readResult (k : Kernel) : Except Errno (List UInt8) → Read
  | .ok [] => .eof
  | .ok bytes => .data bytes
  | .error .eagain => .failed (sysError k (lit "recv() timed out") .eagain)
  | .error .ewouldblock => .failed (sysError k (lit "recv() timed out") .ewouldblock)
  | .error errno => .failed (sysError k (lit "recv() failed") errno)

/-- The calls of one read: interrupted ones, then the one that ends it. -/
def receiving (fd : Int) (interrupts : Nat) (result : Except Errno (List UInt8)) : List Syscall :=
  List.replicate interrupts (.recv fd (.error .eintr)) ++ [.recv fd result]

theorem readSome_spec {bufLen : Nat} {r : Read} (h : readSome k bufLen fuel t = some (r, t')) :
    ∃ n result, result ≠ .error .eintr ∧
      t' = { t with log := t.log ++ receiving t.fd n result } ∧ r = readResult k result ∧
      ∀ bytes, result = .ok bytes → bytes.length ≤ bufLen := by
  unfold readSome at h
  induction fuel generalizing t with
  | zero => contradiction
  | succ fuel ih =>
      rw [Loop.iterate, readPass] at h
      cases hr : k.recv t.log t.fd bufLen with
      | ok bytes =>
          rw [hr] at h
          have hle : ∀ bytes', Except.ok (ε := Errno) bytes = .ok bytes' → bytes'.length ≤ bufLen := by
            rintro _ ⟨⟩
            exact k.recv_le _ _ _ _ hr
          cases bytes with
          | nil | cons =>
              obtain ⟨rfl, rfl⟩ := Prod.mk.inj (Option.some.inj h)
              exact ⟨0, _, by simp, rfl, rfl, hle⟩
      | error errno =>
          rw [hr] at h
          cases errno with
          | eintr =>
              obtain ⟨n, result, hne, rfl, rfl, hle⟩ := ih h
              exact ⟨n + 1, result, hne, by simp [emit, receiving, List.replicate_succ], rfl, hle⟩
          | eagain | ewouldblock | other =>
              obtain ⟨rfl, rfl⟩ := Prod.mk.inj (Option.some.inj h)
              exact ⟨0, _, by simp, rfl, rfl, by simp⟩

end Loops

/-! ## Descriptors -/

section Descriptors

@[simp] theorem emit_fd (t : UnixSocketTransport) (call : Syscall) : (t.emit call).fd = t.fd := rfl

@[simp] theorem emit_log (t : UnixSocketTransport) (call : Syscall) :
    (t.emit call).log = t.log ++ [call] := rfl

/-- The transport holds the one descriptor that is open in the process, and
every descriptor before it has been closed. -/
structure Tidy (t : UnixSocketTransport) : Prop where
  disciplined : Handles.Disciplined 1 (accesses t.log)
  openFds : openFds t.log = if t.fd = -1 then [] else [t.fd]
  fd_range : -1 ≤ t.fd

variable {k : Kernel} {t t' : UnixSocketTransport}

/-- A call on the open descriptor. -/
theorem Tidy.use (h : Tidy t) (hfd : t.fd ≠ -1) (call : Syscall)
    (hcall : call.access = some (.use t.fd)) : Tidy (t.emit call) := by
  have hlog : accesses (t.log ++ [call]) = accesses t.log ++ [.use t.fd] := by
    simp [accesses, hcall]
  have hopen := h.openFds
  rw [if_neg hfd] at hopen
  have hmem : t.fd ∈ Handles.held (accesses t.log) := by
    rw [show Handles.held (accesses t.log) = [t.fd] from hopen]
    simp
  refine ⟨?_, ?_, h.fd_range⟩
  · rw [emit_log, hlog]
    refine h.disciplined.snoc hmem ?_
    rw [Handles.after, show Handles.held (accesses t.log) = [t.fd] from hopen]
    simp
  · rw [emit_log, ChaosForger.openFds, hlog, Handles.held_snoc, emit_fd, if_neg hfd]
    exact hopen

theorem Tidy.uses {calls : List Syscall} (h : Tidy t) (hfd : t.fd ≠ -1)
    (hcalls : ∀ c ∈ calls, c.access = some (.use t.fd)) :
    Tidy { t with log := t.log ++ calls } := by
  induction calls generalizing t with
  | nil => simpa using h
  | cons c calls ih =>
      have hnext := ih (h.use hfd c (hcalls c (by simp))) hfd fun d hd => hcalls d (by simp [hd])
      simpa [emit] using hnext

/-- `close` leaves nothing open, and may be repeated. -/
theorem Tidy.close (h : Tidy t) : Tidy t.close ∧ t.close.fd = -1 := by
  have hrange := h.fd_range
  unfold UnixSocketTransport.close
  split
  · next hfd =>
      have hne : t.fd ≠ -1 := by omega
      have hopen := h.openFds
      rw [if_neg hne] at hopen
      have hheld : Handles.held (accesses t.log) = [t.fd] := hopen
      have hlog : accesses (t.log ++ [.close t.fd]) = accesses t.log ++ [.release t.fd] := by
        simp [accesses, Syscall.access]
      refine ⟨⟨?_, ?_, by simp⟩, rfl⟩
      · rw [emit_log, hlog]
        refine h.disciplined.snoc ?_ ?_
        · rw [hheld]
          exact List.mem_singleton_self _
        · rw [hheld]
          simp [Handles.after]
      · rw [emit_log, ChaosForger.openFds, hlog, Handles.held_snoc, hheld]
        simp [Handles.after]
  · next hfd => exact ⟨h, by omega⟩

theorem Tidy.withSocket (h : Tidy t) (hfd : t.fd = -1) (fd : Nat) : Tidy (t.withSocket fd) := by
  have hopen := h.openFds
  rw [if_pos hfd] at hopen
  have hheld : Handles.held (accesses t.log) = [] := hopen
  have hne : (fd : Int) ≠ -1 := by omega
  have hlog : accesses (t.log ++ [.socket (.ok fd)]) = accesses t.log ++ [.acquire (fd : Int)] := by
    simp [accesses, Syscall.access]
  have hacquired : Tidy { t.emit (.socket (.ok fd)) with fd } := by
    refine ⟨?_, ?_, by simp⟩
    · rw [emit_log, hlog]
      refine h.disciplined.snoc ?_ ?_
      · rw [hheld]
        exact List.not_mem_nil
      · rw [hheld]
        simp [Handles.after]
    · rw [emit_log, ChaosForger.openFds, hlog, Handles.held_snoc, hheld, if_neg hne]
      rfl
  exact (hacquired.use hne (.setsockopt fd .receiveTimeout t.timeoutSec) rfl).use hne
    (.setsockopt fd .sendTimeout t.timeoutSec) rfl

/-- A transport without a descriptor opens at most one, and keeps it only when
it is connected. -/
theorem Tidy.connect {r : Except (List UInt8) Unit} (h : Tidy t) (hfd : t.fd = -1)
    (hr : t.connect k = (r, t')) : Tidy t' ∧ (t'.fd = -1 ↔ r ≠ .ok ()) := by
  have hopen := h.openFds
  rw [if_pos hfd] at hopen
  unfold UnixSocketTransport.connect at hr
  split at hr
  · obtain ⟨rfl, rfl⟩ := Prod.mk.inj hr
    exact ⟨h, by simp [hfd]⟩
  · split at hr
    · obtain ⟨rfl, rfl⟩ := Prod.mk.inj hr
      exact ⟨h, by simp [hfd]⟩
    · cases hs : k.socket t.log with
      | error errno =>
          rw [hs] at hr
          obtain ⟨rfl, rfl⟩ := Prod.mk.inj hr
          have hlog : accesses (t.log ++ [.socket (.error errno)]) = accesses t.log := by
            simp [accesses, Syscall.access]
          refine ⟨⟨?_, ?_, by simp⟩, by simp⟩
          · rw [emit_log, hlog]
            exact h.disciplined
          · rw [emit_log, ChaosForger.openFds, hlog]
            exact hopen
      | ok fd =>
          have hne : (fd : Int) ≠ -1 := by omega
          have hsocket := h.withSocket hfd fd
          rw [hs] at hr
          dsimp only at hr
          split at hr
          · next errno _ =>
              obtain ⟨rfl, rfl⟩ := Prod.mk.inj hr
              have hclosed :=
                (hsocket.use hne (.connect fd (cstr t.socketPath) (.error errno)) rfl).close
              exact ⟨hclosed.1, iff_of_true hclosed.2 (by simp)⟩
          · obtain ⟨rfl, rfl⟩ := Prod.mk.inj hr
            have hconnected := hsocket.use hne (.connect fd (cstr t.socketPath) (.ok ())) rfl
            refine ⟨hconnected, iff_of_false ?_ (by simp)⟩
            exact hne

theorem Tidy.sendAll {data : List UInt8} {fuel : Nat} {r : Except (List UInt8) Unit} (h : Tidy t)
    (hfd : t.fd ≠ -1) (hr : t.sendAll k data fuel = some (r, t')) : Tidy t' ∧ t'.fd = t.fd := by
  obtain ⟨calls, stop, hcalls, rfl, -⟩ := sendAll_spec hr
  refine ⟨h.uses hfd fun c hc => ?_, rfl⟩
  obtain ⟨rest, result, rfl⟩ := hcalls.mem c hc
  rfl

theorem Tidy.readSome {bufLen fuel : Nat} {r : Read} (h : Tidy t) (hfd : t.fd ≠ -1)
    (hr : t.readSome k bufLen fuel = some (r, t')) : Tidy t' ∧ t'.fd = t.fd := by
  obtain ⟨n, result, -, rfl, -⟩ := readSome_spec hr
  refine ⟨h.uses hfd fun c hc => ?_, rfl⟩
  simp only [receiving, List.mem_append, List.mem_replicate, List.mem_singleton] at hc
  obtain ⟨-, rfl⟩ | rfl := hc <;> rfl

end Descriptors

end UnixSocketTransport

end ChaosForger

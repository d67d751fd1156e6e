import ChaosForger.Docker.Entries
import ChaosForger.Docker.Wire
import ChaosForger.Http.Connection
import ChaosForger.Log

/-!
# ChaosForger.Docker.Live

`DockerClient` over UNIX sockets: the ping, the container list, and the stop
and kill calls, each on a connection of its own.

The calls act on a `World`: the system calls and the log lines of the process.
Every call leaves the process without an open descriptor (`Settled`), and a
call writes the bytes of its one request, or a front of them (`Asked`).
-/

namespace ChaosForger

open Libc HttpClient

/-- The other side of the client interface, and the log lines so far. -/
structure World (σ : Type u) where
  os : σ
  logged : List (LogLevel × List UInt8) := []

namespace World

variable {σ : Type u}

def log (w : World σ) (lvl : LogLevel) (msg : List UInt8) : World σ :=
  { w with logged := w.logged ++ [(lvl, msg)] }

def logAll (w : World σ) (lvl : LogLevel) (msgs : List (List UInt8)) : World σ :=
  { w with logged := w.logged ++ msgs.map fun msg => (lvl, msg) }

@[simp] theorem log_os (w : World σ) (lvl : LogLevel) (msg : List UInt8) :
    (w.log lvl msg).os = w.os := rfl

@[simp] theorem log_logged (w : World σ) (lvl : LogLevel) (msg : List UInt8) :
    (w.log lvl msg).logged = w.logged ++ [(lvl, msg)] := rfl

@[simp] theorem logAll_os (w : World σ) (lvl : LogLevel) (msgs : List (List UInt8)) :
    (w.logAll lvl msgs).os = w.os := rfl

@[simp] theorem logAll_logged (w : World σ) (lvl : LogLevel) (msgs : List (List UInt8)) :
    (w.logAll lvl msgs).logged = w.logged ++ msgs.map fun msg => (lvl, msg) := rfl

end World

/-- What the process runs on; the fuel bounds every loop over system calls. -/
structure Host where
  kernel : Kernel
  toDouble : ℚ → Option ℚ
  fuel : Nat

/-- `DockerClient::unix_socket_factory`, by what it captures. -/
structure UnixSocketFactory where
  socketPath : List UInt8
  timeoutSec : Int := 5

namespace DockerClient

/-- `/_ping` -/
def pingPath : List UInt8 := lit "/_ping"

/-- `/v1.41/containers/json?all=false` -/
def containersJsonPath : List UInt8 := lit "/" ++ dockerApiVersion ++ lit "/containers/json?all=false"

/-- How a stop or kill call ends; `sent` is no result of the call. -/
structure LiveReply where
  ok : Bool
  err : List UInt8
  httpStatus : Int
  sent : Bool

section Calls

variable (h : Host) (f : UnixSocketFactory)

/-- One request on a connection of its own. -/
def requestOver (method pathWithQuery : List UInt8) (w : World (List Syscall)) :
    Option (Except (List UInt8) HttpResponse × World (List Syscall)) :=
  (overSocket h.kernel h.fuel f.socketPath f.timeoutSec method pathWithQuery [] w.os).map
    fun (r, os) => (r, { w with os })

def pingOver (w : World (List Syscall)) :
    Option (Except (List UInt8) Unit × World (List Syscall)) :=
  (requestOver h f (lit "GET") pingPath w).map fun
    | (.error err, w) => (.error err, w)
    | (.ok resp, w) =>
        if ¬ resp.ok then (.error (lit "ping: HTTP " ++ decimal resp.status), w) else (.ok (), w)

/-- The list call, with the warnings of its entries. -/
def listContainersOver (w : World (List Syscall)) :
    Option (Except (List UInt8) (List Container) × World (List Syscall)) :=
  (requestOver h f (lit "GET") containersJsonPath w).bind fun
    | (.error err, w) => some (.error (lit "listing containers: " ++ err), w)
    | (.ok resp, w) =>
        if ¬ resp.ok then
          some (.error (lit "listing containers: HTTP " ++ decimal resp.status ++
            (if resp.body = [] then [] else lit " -- " ++ resp.body.take 300)), w)
        else
          match parseContainerList h.toDouble resp.body [] [] with
          | .error _ => none
          | .ok l =>
              let w := w.logAll .warn l.warnings
              if l.ok then some (.ok l.out, w) else some (.error l.err, w)

/-- Some byte of a request was offered to the kernel. -/
def wrote (log : List Syscall) : Bool :=
  log.any fun
    | .send _ _ _ => true
    | _ => false

def postContainerActionOver (path what : List UInt8) (w : World (List Syscall)) :
    Option (LiveReply × World (List Syscall)) :=
  (requestOver h f (lit "POST") path w).map fun
    | (.error err, w') =>
        ({ ok := false, err := what ++ lit ": " ++ err, httpStatus := 0
           sent := wrote (w'.os.drop w.os.length) }, w')
    | (.ok resp, w') =>
        if ¬ resp.ok then
          ({ ok := false
             err := what ++ lit ": HTTP " ++ decimal resp.status ++
               (if resp.body = [] then [] else lit " -- " ++ resp.body.take 200)
             httpStatus := resp.status, sent := true }, w')
        else ({ ok := true, err := [], httpStatus := resp.status, sent := true }, w')

def stopContainerOver (id : List UInt8) (timeoutSeconds : Int) (w : World (List Syscall)) :
    Option (LiveReply × World (List Syscall)) :=
  match stopContainerPath id timeoutSeconds with
  | none =>
      some ({ ok := false, err := lit "stop: invalid container id or timeout", httpStatus := 0
              sent := false }, w)
  | some path => postContainerActionOver h f path (lit "stop") w

def killContainerOver (id : List UInt8) (w : World (List Syscall)) :
    Option (LiveReply × World (List Syscall)) :=
  match killContainerPath id with
  | none =>
      some ({ ok := false, err := lit "kill: invalid container id", httpStatus := 0
              sent := false }, w)
  | some path => postContainerActionOver h f path (lit "kill") w

def performOver (call : StrikeCall) (w : World (List Syscall)) :
    Option (LiveReply × World (List Syscall)) :=
  match call with
  | .stopContainer id timeoutSeconds => stopContainerOver h f id timeoutSeconds w
  | .killContainer id => killContainerOver h f id w

end Calls

/-! ## What the calls leave -/

/-- No descriptor is open, and none has been misused. -/
def Settled (w : World (List Syscall)) : Prop :=
  Handles.Disciplined 1 (accesses w.os) ∧ openFds w.os = []

/-- From one world to the other, each of these requests has had a connection of
its own or none, in order, which has carried a front of it; and the descriptors
are in order. -/
structure Asks (wires : List (List UInt8)) (w w' : World (List Syscall)) : Prop where
  settled : Settled w → Settled w'
  grows : w.os <+: w'.os
  connections : ∃ new asked, connections w'.os = connections w.os ++ new ∧
    asked.Sublist wires ∧ List.Forall₂ (· <+: ·) new asked

theorem Asks.of_os_eq {w w' : World (List Syscall)} (hos : w'.os = w.os) : Asks [] w w' := by
  refine ⟨fun hw => ?_, by rw [hos], [], [], by simp [hos], .slnil, .nil⟩
  rw [Settled, hos]
  exact hw

theorem Asks.trans {wires wires' : List (List UInt8)} {w w' w'' : World (List Syscall)}
    (h : Asks wires w w') (h' : Asks wires' w' w'') : Asks (wires ++ wires') w w'' := by
  obtain ⟨hset, hgrows, new, asked, heq, hsub, hnew⟩ := h
  obtain ⟨hset', hgrows', new', asked', heq', hsub', hnew'⟩ := h'
  refine ⟨hset' ∘ hset, hgrows.trans hgrows', new ++ new', asked ++ asked', ?_,
    hsub.append hsub', ?_⟩
  · rw [heq', heq, List.append_assoc]
  · exact List.rel_append hnew hnew'

/-- Only the system calls matter. -/
theorem Asks.of_os {wires : List (List UInt8)} {w w' w'' : World (List Syscall)}
    (h : Asks wires w w') (hos : w''.os = w'.os) : Asks wires w w'' := by
  have hall := h.trans (.of_os_eq hos)
  rwa [List.append_nil] at hall

/-- A warning of the list call. -/
def ListWarning (msg : List UInt8) : Prop := ∃ text, msg = lit "container list: " ++ text

theorem listWarning_of_readContainer {entry : Json} {warning : List UInt8}
    (h : readContainer entry = .error warning) : ListWarning warning := by
  have hid : lit "container list: entry with malformed Id (len=" =
      lit "container list: " ++ lit "entry with malformed Id (len=" := by decide
  have hmissing : lit "container list: entry without string 'Id' field, skipping" =
      lit "container list: " ++ lit "entry without string 'Id' field, skipping" := by decide
  unfold readContainer at h
  split at h
  · split at h
    · obtain rfl := Except.error.inj h
      exact ⟨_, by rw [hid, List.append_assoc, List.append_assoc]⟩
    · contradiction
  · obtain rfl := Except.error.inj h
    exact ⟨_, hmissing⟩

theorem listWarning_readContainers {entries : List Json} {l : Listing}
    (h : ∀ msg ∈ l.warnings, ListWarning msg) :
    ∀ msg ∈ (readContainers entries l).warnings, ListWarning msg := by
  induction entries generalizing l with
  | nil => exact h
  | cons entry entries ih =>
      rw [readContainers]
      split
      · next warning hw =>
          refine ih fun msg hmsg => ?_
          obtain hmsg | hmsg := List.mem_append.mp hmsg
          · exact h msg hmsg
          · rw [List.mem_singleton.mp hmsg]
            exact listWarning_of_readContainer hw
      · exact ih h

theorem listWarning_parseContainerList {toDouble : ℚ → Option ℚ} {body err : List UInt8}
    {l : Listing} (h : parseContainerList toDouble body [] err = .ok l) :
    ∀ msg ∈ l.warnings, ListWarning msg := by
  obtain ⟨err', o, hparse, -⟩ := JsonParser.parse_spec toDouble body err
  simp only [parseContainerList, hparse, bind, Except.bind, pure, Except.pure] at h
  split at h
  · obtain rfl := Except.ok.inj h
    simp
  · obtain rfl := Except.ok.inj h
    exact listWarning_readContainers (by simp)
  · obtain rfl := Except.ok.inj h
    simp

/-- What has been accepted is as it was, and the rest is one connection at most. -/
theorem Asks.of_delivery {wire : List UInt8} {r : Except (List UInt8) HttpResponse}
    {w w' : World (List Syscall)} {calls : List Syscall} (hset : Settled w → Settled w')
    (hcalls : w'.os = w.os ++ calls) (h : Delivery wire r calls) : Asks [wire] w w' := by
  have hnew : ChaosForger.connections w'.os =
      ChaosForger.connections w.os ++ ChaosForger.connections calls := by
    rw [hcalls, connections_append h.head]
  refine ⟨hset, ⟨calls, hcalls.symm⟩, ChaosForger.connections calls, ?_⟩
  obtain hnone | hone := h.connections
  · exact ⟨[], hnew, List.nil_sublist _, by rw [hnone]; exact .nil⟩
  · exact ⟨[wire], hnew, List.Sublist.refl _, by rw [hone]; exact .cons h.sent .nil⟩

section Spec

variable {h : Host} {f : UnixSocketFactory} {w w' : World (List Syscall)}

/-- **One request**: it asks for this and nothing else. -/
theorem asks_requestOver {method path : List UInt8} {r : Except (List UInt8) HttpResponse}
    (hr : requestOver h f method path w = some (r, w')) :
    Asks [buildHttpRequest method path []] w w' ∧ w'.logged = w.logged := by
  obtain ⟨⟨r', os⟩, hover, heq⟩ := Option.map_eq_some_iff.mp hr
  obtain ⟨rfl, rfl⟩ := Prod.mk.inj heq
  obtain ⟨calls, hcalls, hdelivery⟩ := overSocket_delivery hover
  exact ⟨.of_delivery (fun hw => overSocket_disciplined hw.1 hw.2 hover) hcalls hdelivery, rfl⟩

/-- The bytes of a ping. -/
def pingWire : List UInt8 := buildHttpRequest (lit "GET") pingPath []

/-- The bytes of a list call. -/
def listWire : List UInt8 := buildHttpRequest (lit "GET") containersJsonPath []

theorem asks_pingOver {r : Except (List UInt8) Unit} (hr : pingOver h f w = some (r, w')) :
    Asks [pingWire] w w' ∧ w'.logged = w.logged := by
  obtain ⟨⟨res, w₁⟩, hreq, heq⟩ := Option.map_eq_some_iff.mp hr
  have hasks := asks_requestOver hreq
  cases res with
  | error err =>
      obtain ⟨-, rfl⟩ := Prod.mk.inj heq
      exact hasks
  | ok resp =>
      dsimp only at heq
      split at heq <;> obtain ⟨-, rfl⟩ := Prod.mk.inj heq <;> exact hasks

/-- **The list call**: its containers come from one response. -/
theorem asks_listContainersOver {r : Except (List UInt8) (List Container)}
    (hr : listContainersOver h f w = some (r, w')) :
    Asks [listWire] w w' ∧ (∃ warnings : List (List UInt8), (∀ msg ∈ warnings, ListWarning msg) ∧
        w'.logged = w.logged ++ warnings.map fun msg => (LogLevel.warn, msg)) ∧
      ∀ running, r = .ok running → ∃ body l,
        parseContainerList h.toDouble body [] [] = .ok l ∧ l.ok = true ∧ l.out = running := by
  obtain ⟨⟨res, w₁⟩, hreq, heq⟩ := Option.bind_eq_some_iff.mp hr
  obtain ⟨hasks, hlogged⟩ := asks_requestOver hreq
  cases res with
  | error err =>
      obtain ⟨rfl, rfl⟩ := Prod.mk.inj (Option.some.inj heq)
      exact ⟨hasks, ⟨[], by simp, by simp [hlogged]⟩, by simp⟩
  | ok resp =>
      dsimp only at heq
      split at heq
      · obtain ⟨rfl, rfl⟩ := Prod.mk.inj (Option.some.inj heq)
        exact ⟨hasks, ⟨[], by simp, by simp [hlogged]⟩, by simp⟩
      · split at heq
        · contradiction
        · next l hl =>
            have hwarn : ∃ warnings : List (List UInt8), (∀ msg ∈ warnings, ListWarning msg) ∧
                (w₁.logAll .warn l.warnings).logged =
                  w.logged ++ warnings.map fun msg => (LogLevel.warn, msg) :=
              ⟨l.warnings, listWarning_parseContainerList hl, by simp [hlogged]⟩
            have hall := hasks.of_os (World.logAll_os w₁ .warn l.warnings)
            split at heq
            · next hok =>
                obtain ⟨rfl, rfl⟩ := Prod.mk.inj (Option.some.inj heq)
                refine ⟨hall, hwarn, ?_⟩
                rintro _ ⟨⟩
                exact ⟨resp.body, l, hl, hok, rfl⟩
            · obtain ⟨rfl, rfl⟩ := Prod.mk.inj (Option.some.inj heq)
              exact ⟨hall, hwarn, by simp⟩

/-- What a strike asks for. -/
def wires (call : StrikeCall) : List (List UInt8) := if Valid call then [wire call] else []

/-- **A strike**: refused without a system call, or asked for on the wire. -/
theorem asks_performOver {call : StrikeCall} {reply : LiveReply}
    (hr : performOver h f call w = some (reply, w')) :
    Asks (wires call) w w' ∧ w'.logged = w.logged := by
  have hpost {path what : List UInt8} (hp : postContainerActionOver h f path what w = some (reply, w')) :
      Asks [buildHttpRequest (lit "POST") path []] w w' ∧ w'.logged = w.logged := by
    obtain ⟨⟨res, w₁⟩, hreq, heq⟩ := Option.map_eq_some_iff.mp hp
    have hasks := asks_requestOver hreq
    cases res with
    | error err =>
        obtain ⟨-, rfl⟩ := Prod.mk.inj heq
        exact hasks
    | ok resp =>
        dsimp only at heq
        split at heq <;> obtain ⟨-, rfl⟩ := Prod.mk.inj heq <;> exact hasks
  cases call with
  | stopContainer id n =>
      rw [performOver, stopContainerOver, stopContainerPath_eq] at hr
      by_cases hv : Valid (.stopContainer id n)
      · rw [if_pos hv] at hr
        rw [wires, if_pos hv]
        exact hpost hr
      · rw [if_neg hv] at hr
        obtain ⟨-, rfl⟩ := Prod.mk.inj (Option.some.inj hr)
        rw [wires, if_neg hv]
        exact ⟨.of_os_eq rfl, rfl⟩
  | killContainer id =>
      rw [performOver, killContainerOver, killContainerPath_eq] at hr
      by_cases hv : Valid (.killContainer id)
      · rw [if_pos hv] at hr
        rw [wires, if_pos hv]
        exact hpost hr
      · rw [if_neg hv] at hr
        obtain ⟨-, rfl⟩ := Prod.mk.inj (Option.some.inj hr)
        rw [wires, if_neg hv]
        exact ⟨.of_os_eq rfl, rfl⟩

end Spec

end DockerClient

end ChaosForger

import ChaosForger.Http.Feed

/-!
# ChaosForger.Http.Client

`HttpClient::request` over a scripted transport.  The receive loop has no
measure of its own, so it runs on fuel, one unit for each `read_some`; the
theorems of this module say what the loop has done after a number of reads,
whatever the fuel.
-/

namespace ChaosForger

open Search Libc

/-- What one `read_some` brings. -/
inductive Read where
  | failed (err : List UInt8)
  | eof
  | data (bytes : List UInt8)
  deriving DecidableEq, Repr

/-- A transport by the results of its calls; `readSome n` is the `n`-th read. -/
structure Transport where
  describe : List UInt8
  connect : Except (List UInt8) Unit
  sendAll : List UInt8 → Except (List UInt8) Unit
  readSome : Nat → Read

/-- The request wire. -/
def buildHttpRequest (method pathWithQuery body : List UInt8) : List UInt8 :=
  method ++ lit " " ++ pathWithQuery ++ lit " HTTP/1.1\r\n" ++
    lit "Host: docker\r\n" ++
    lit "User-Agent: Chaos_Forger/1.0\r\n" ++
    lit "Accept: application/json\r\n" ++
    lit "Connection: close\r\n" ++
    lit "Content-Length: " ++ decimal body.length ++ lit "\r\n" ++
    lit "\r\n" ++
    body

namespace HttpClient

/-- Size of the receive buffer. -/
def bufSize : Nat := 8192

/-- One round of the receive loop, before read `n`. -/
def receivePass (t : Transport) : HttpResponseParser × Nat →
    Pass (HttpResponseParser × Nat) (Except (List UInt8) HttpResponseParser)
  | (parser, n) =>
      if parser.done then .exit (.ok parser)
      else
        match t.readSome n with
        | .failed err => .exit (.error (lit "receive failed: " ++ err))
        | .eof =>
            match parser.feed none with
            | (parser, true) => .exit (.ok parser)
            | (parser, false) => .exit (.error (lit "malformed response: " ++ parser.error))
        | .data bytes =>
            match parser.feed (some bytes) with
            | (parser, true) => .again (parser, n + 1)
            | (parser, false) => .exit (.error (lit "malformed response: " ++ parser.error))

/-- The parser of a request: it allows EOF termination and has the default limits. -/
def parser : HttpResponseParser := .new true {}

/-- The receive loop, `none` when the fuel runs out. -/
def receive (t : Transport) (fuel : Nat) : Option (Except (List UInt8) HttpResponseParser) :=
  Loop.iterate (receivePass t) fuel (parser, 0)

/-- One request and its response on a fresh connection. -/
def request (t : Transport) (method pathWithQuery body : List UInt8) (fuel : Nat) :
    Option (Except (List UInt8) HttpResponse) :=
  match t.connect with
  | .error err => some (.error (lit "connect to " ++ t.describe ++ lit " failed: " ++ err))
  | .ok _ =>
      match t.sendAll (buildHttpRequest method pathWithQuery body) with
      | .error err => some (.error (lit "send failed: " ++ err))
      | .ok _ =>
          (receive t fuel).map fun
            | .error err => .error err
            | .ok parser =>
                if ¬ parser.done then .error (lit "response ended unexpectedly")
                else .ok parser.resp

/-! ## Reads that deliver bytes -/

section Reads

variable {t : Transport} {p : HttpResponseParser} {n : Nat}

theorem receivePass_of_done (h : p.state = .done) : receivePass t (p, n) = .exit (.ok p) := by
  have hd : p.done = true := by simp [HttpResponseParser.done, h]
  rw [receivePass, if_pos hd]

/-- A read that brings bytes the parser takes is followed by the next round. -/
theorem receivePass_data {bytes : List UInt8} (h : p.state ≠ .done)
    (hread : t.readSome n = .data bytes) :
    (p.feed (some bytes)).2 = true ∧
        receivePass t (p, n) = .again ((p.feed (some bytes)).1, n + 1) ∨
      (p.feed (some bytes)).2 = false ∧ ∃ err, receivePass t (p, n) = .exit (.error err) := by
  have hd : ¬ p.done = true := by simp [HttpResponseParser.done, h]
  rw [receivePass, if_neg hd, hread]
  dsimp only
  split
  · next q hq =>
      rw [hq]
      exact .inl ⟨rfl, rfl⟩
  · next q hq =>
      rw [hq]
      exact .inr ⟨rfl, _, rfl⟩

/-- A read that brings no bytes ends the loop. -/
theorem receivePass_no_data (h : p.state ≠ .done) (hread : ∀ bytes, t.readSome n ≠ .data bytes) :
    (∃ err, receivePass t (p, n) = .exit (.error err)) ∨
      receivePass t (p, n) = .exit (.ok (p.feed none).1) := by
  have hd : ¬ p.done = true := by simp [HttpResponseParser.done, h]
  rw [receivePass, if_neg hd]
  cases hr : t.readSome n with
  | failed err => exact .inl ⟨_, rfl⟩
  | eof =>
      dsimp only
      split
      · next q hq =>
          rw [hq]
          exact .inr rfl
      · exact .inl ⟨_, rfl⟩
  | data bytes => exact absurd hr (hread bytes)

end Reads

end HttpClient

end ChaosForger
